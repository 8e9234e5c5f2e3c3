import Mathlib.Data.List.Nodup

/-!
# Tables searched from the front

A list of entries with keys, in which the first entry with a key counts: how a
fixed array with a counter is searched, extended at its end and updated in place.
-/

namespace Trona

universe u v

variable {κ : Type u} {ν : Type v} [DecidableEq κ] (key : ν → κ)

/-- The first entry with a key. -/
def lookup (l : List ν) (k : κ) : Option ν := l.find? (key · = k)

/-- Put another entry in the place of the first one with a key. -/
def replace (l : List ν) (k : κ) (e : ν) : List ν := l.set (l.findIdx (key · = k)) e

variable {key} {l : List ν} {k k' : κ} {e e' : ν}

@[simp] theorem lookup_nil : lookup key [] k = none := rfl

theorem lookup_cons : lookup key (e :: l) k = if key e = k then some e else lookup key l k := by
  by_cases h : key e = k <;> simp [lookup, h]

theorem key_of_lookup (h : lookup key l k = some e) : key e = k := by
  simpa using List.find?_some h

theorem mem_of_lookup (h : lookup key l k = some e) : e ∈ l := List.mem_of_find?_eq_some h

theorem lookup_eq_none : lookup key l k = none ↔ ∀ e ∈ l, key e ≠ k := by
  simp [lookup]

theorem lookup_isSome_of_mem (h : e ∈ l) : (lookup key l (key e)).isSome = true := by
  rw [← Option.ne_none_iff_isSome, Ne, lookup_eq_none]
  exact fun hne => hne e h rfl

/-- With no key twice, every entry is found. -/
theorem lookup_of_mem (hn : (l.map key).Nodup) (h : e ∈ l) : lookup key l (key e) = some e := by
  have hsome : (lookup key l (key e)).isSome = true := lookup_isSome_of_mem h
  obtain ⟨e', he'⟩ := Option.isSome_iff_exists.1 hsome
  rw [he', List.inj_on_of_nodup_map hn (mem_of_lookup he') h (key_of_lookup he')]

theorem lookup_append_singleton (h : lookup key l (key e) = none) :
    lookup key (l ++ [e]) k = if k = key e then some e else lookup key l k := by
  rw [lookup, List.find?_append]
  by_cases hk : k = key e
  · subst hk
    rw [show l.find? (key · = key e) = none from h]
    simp
  · have hne : key e ≠ k := fun h => hk h.symm
    simp [lookup, hk, hne]

theorem replace_cons :
    replace key (e :: l) k e' = if key e = k then e' :: l else e :: replace key l k e' := by
  by_cases h : key e = k <;> simp [replace, List.findIdx_cons, h]

theorem lookup_replace (h : lookup key l k = some e) (he : key e' = k) :
    lookup key (replace key l k e') k' = if k' = k then some e' else lookup key l k' := by
  induction l with
  | nil => cases h
  | cons a l ih =>
    rw [replace_cons]
    by_cases ha : key a = k
    · rw [if_pos ha, lookup_cons, lookup_cons, he, ha]
      by_cases hk : k' = k
      · simp [hk]
      · simp [hk, Ne.symm hk]
    · rw [lookup_cons, if_neg ha] at h
      rw [if_neg ha, lookup_cons, lookup_cons, ih h]
      rcases eq_or_ne k' k with rfl | hk
      · simp [ha]
      · simp [hk]

/-- Replacing an entry keeps what the new entry has in common with the old one. -/
theorem map_replace {γ : Type*} (g : ν → γ) (h : lookup key l k = some e) (hg : g e' = g e) :
    (replace key l k e').map g = l.map g := by
  induction l with
  | nil => cases h
  | cons a l ih =>
    rw [lookup_cons] at h
    rw [replace_cons]
    by_cases ha : key a = k
    · rw [if_pos ha] at h
      obtain rfl := Option.some.inj h
      simp [ha, hg]
    · rw [if_neg ha] at h
      simp [ha, ih h]

end Trona
