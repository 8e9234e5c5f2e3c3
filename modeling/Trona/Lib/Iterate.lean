import Mathlib.Data.List.Basic

/-!
# Iterators

An iterator gives one element after the other, until it is at its end; a step may also fail
altogether. What it gives is a list (`Yields`), which is unique. If a rank falls with every step
and no step fails, there is such a list (`exists_yields`), and a search with the iterator finds
the first element of the list that it looks for (`Yields.search`).
-/

namespace Trona

variable {σ α β : Type}

/-- What an iterator gives from a state on. The outer option is whether the step can be made,
    the inner one whether there is an element. -/
inductive Yields (next : σ → Option (Option (α × σ))) : σ → List α → Prop
  | stop {s : σ} (h : next s = some none) : Yields next s []
  | more {s s' : σ} {a : α} {as : List α} (h : next s = some (some (a, s')))
    (hrest : Yields next s' as) : Yields next s (a :: as)

/-- Look for an element with an iterator, in at most so many steps. -/
def search (next : σ → Option (Option (α × σ))) (p : α → Bool) : ℕ → σ → Option (Option α)
  | 0, _ => some none
  | fuel + 1, s => (next s).bind fun r =>
    match r with
    | none => some none
    | some (a, s') => if p a then some (some a) else search next p fuel s'

namespace Yields

variable {next : σ → Option (Option (α × σ))} {s : σ} {as : List α}

variable (h : Yields next s as)

include h

theorem search {p : α → Bool} {fuel : ℕ} (hfuel : as.length < fuel) :
    search next p fuel s = some (as.find? p) := by
  induction h generalizing fuel with
  | stop hnext =>
    obtain ⟨fuel, rfl⟩ := Nat.exists_eq_succ_of_ne_zero (Nat.ne_zero_of_lt hfuel)
    rw [Trona.search, hnext]
    rfl
  | @more s s' a as hnext hrest ih =>
    obtain ⟨fuel, rfl⟩ := Nat.exists_eq_succ_of_ne_zero (Nat.ne_zero_of_lt hfuel)
    rw [Trona.search, hnext, Option.bind_some, List.find?_cons]
    cases hp : p a with
    | true => exact if_pos hp
    | false => exact (if_neg (by simp [hp])).trans (ih (Nat.lt_of_succ_lt_succ hfuel))

/-- An iterator that gives something else for the same elements. -/
theorem map {next' : σ → Option (Option (β × σ))} {f : α → β}
    (hnext : ∀ s, next' s = (next s).map (·.map (Prod.map f id))) : Yields next' s (as.map f) := by
  induction h with
  | stop hstop => exact .stop (by rw [hnext, hstop]; rfl)
  | more hmore _ ih => exact .more (by rw [hnext, hmore]; rfl) ih

/-- What is known of every element that is given. -/
theorem forall_mem {P : α → Prop} (hP : ∀ s a s', next s = some (some (a, s')) → P a) :
    ∀ a ∈ as, P a := by
  induction h with
  | stop => simp
  | more hmore _ ih => exact List.forall_mem_cons.2 ⟨hP _ _ _ hmore, ih⟩

end Yields

/-- An iterator whose steps do not fail and make a rank fall gives a list. -/
theorem exists_yields {next : σ → Option (Option (α × σ))} (rank : σ → ℕ)
    (hsome : ∀ s, (next s).isSome)
    (hrank : ∀ s a s', next s = some (some (a, s')) → rank s' < rank s) (s : σ) :
    ∃ as, Yields next s as ∧ as.length ≤ rank s := by
  obtain ⟨r, hr⟩ := Option.isSome_iff_exists.1 (hsome s)
  cases r with
  | none => exact ⟨[], .stop hr, Nat.zero_le _⟩
  | some p =>
    have hlt := hrank s p.1 p.2 hr
    obtain ⟨as, has, hlen⟩ := exists_yields rank hsome hrank p.2
    exact ⟨p.1 :: as, .more hr has, by rw [List.length_cons]; omega⟩
termination_by rank s

end Trona
