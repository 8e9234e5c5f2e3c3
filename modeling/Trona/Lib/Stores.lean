import Trona.Lib.Bytes
import Trona.Lib.Word

/-!
# Stores to memory

Memory that is written by range: a range is put in place, filled with zero or copied. Each store
changes nothing outside of its range (`Changes`), so that what is apart from it stays as it is
(`SameOn`).
-/

namespace Trona

/-- `len` bytes from `base` on. -/
structure Range where
  base : ℕ
  len : ℕ
  deriving DecidableEq

namespace Range

def Contains (r : Range) (i : ℕ) : Prop := r.base ≤ i ∧ i < r.base + r.len

/-- No byte is in both ranges. -/
def Apart (r s : Range) : Prop :=
  r.len = 0 ∨ s.len = 0 ∨ r.base + r.len ≤ s.base ∨ s.base + s.len ≤ r.base

instance (r s : Range) : Decidable (r.Apart s) := by
  unfold Apart
  infer_instance

variable {r r' s : Range} {i : ℕ}

theorem contains_add {a n k : ℕ} (hk : k < n) : (mk a n).Contains (a + k) :=
  ⟨Nat.le_add_right a k, Nat.add_lt_add_left hk a⟩

theorem Apart.not_contains (h : r.Apart s) (hi : s.Contains i) : ¬r.Contains i := by
  rintro ⟨hlo, hhi⟩
  obtain ⟨hlo', hhi'⟩ := hi
  rcases h with h | h | h | h <;> omega

theorem Apart.symm (h : r.Apart s) : s.Apart r := by
  rcases h with h | h | h | h
  exacts [.inr (.inl h), .inl h, .inr (.inr (.inr h)), .inr (.inr (.inl h))]

end Range

namespace Bytes

variable {f g h : Bytes} {bs : List UInt8} {a i n src : ℕ} {r s : Range} {rs : List Range}

/-- Fill a range with zero. -/
def zero (r : Range) (f : Bytes) : Bytes := fun i =>
  if r.base ≤ i ∧ i < r.base + r.len then 0 else f i

/-- Copy to a range from the bytes from `src` on. -/
def copy (src : ℕ) (r : Range) (f : Bytes) : Bytes := fun i =>
  if r.base ≤ i ∧ i < r.base + r.len then f (src + (i - r.base)) else f i

/-- The word at an address. -/
def word (f : Bytes) (a : ℕ) : ℕ := leNat (f.slice a 8)

/-- A range is all that differs. -/
def Changes (r : Range) (f g : Bytes) : Prop := ∀ i, ¬r.Contains i → g i = f i

/-- The bytes in some ranges are the same. -/
def SameOn (rs : List Range) (f g : Bytes) : Prop := ∀ r ∈ rs, ∀ i, r.Contains i → g i = f i

theorem zero_changes : Changes r f (zero r f) := fun _ hi => if_neg hi

theorem copy_changes : Changes r f (copy src r f) := fun _ hi => if_neg hi

theorem put_changes : Changes ⟨a, bs.length⟩ f (put a bs f) := fun _ hi => if_neg hi

theorem zero_of_contains (hi : r.Contains i) : zero r f i = 0 := if_pos hi

theorem copy_of_contains (hi : r.Contains i) : copy src r f i = f (src + (i - r.base)) := if_pos hi

/-- A range that is part of another one. -/
theorem Changes.mono (hfg : Changes r f g) (hrs : ∀ i, r.Contains i → s.Contains i) :
    Changes s f g :=
  fun i hi => hfg i fun hr => hi (hrs i hr)

theorem Changes.trans (hfg : Changes r f g) (hgh : Changes r g h) : Changes r f h :=
  fun i hi => (hgh i hi).trans (hfg i hi)

namespace SameOn

theorem refl : SameOn rs f f := fun _ _ _ _ => rfl

theorem trans (hfg : SameOn rs f g) (hgh : SameOn rs g h) : SameOn rs f h :=
  fun r hr i hi => (hgh r hr i hi).trans (hfg r hr i hi)

theorem slice (hfg : SameOn rs f g) (hr : r ∈ rs) (hlo : r.base ≤ a)
    (hhi : a + n ≤ r.base + r.len) : g.slice a n = f.slice a n := by
  refine List.map_congr_left fun i hi => hfg r hr _ ⟨?_, ?_⟩
  · exact hlo.trans (Nat.le_add_right a i)
  · have := List.mem_range.1 hi
    omega

theorem word (hfg : SameOn rs f g) (hr : ⟨a, 8⟩ ∈ rs) : g.word a = f.word a :=
  congrArg leNat (hfg.slice hr le_rfl le_rfl)

end SameOn

theorem SameOn.mono {rs' : List Range} (hfg : SameOn rs f g) (hsub : rs' ⊆ rs) : SameOn rs' f g :=
  fun r hr => hfg r (hsub hr)

/-- What is apart from a store stays as it is. -/
theorem Changes.sameOn (hfg : Changes r f g) (hr : ∀ s ∈ rs, r.Apart s) : SameOn rs f g :=
  fun s hs i hi => hfg i ((hr s hs).not_contains hi)

/-! ## Several stores -/

/-- A store: an address and what is put there. -/
abbrev Store := ℕ × List UInt8

/-- The range of a store. -/
def Store.range (s : Store) : Range := ⟨s.1, s.2.length⟩

/-- Stores one after the other. -/
def putAll (stores : List Store) (f : Bytes) : Bytes := stores.foldl (fun f s => put s.1 s.2 f) f

variable {stores : List Store}

theorem putAll_concat {s : Store} : putAll (stores ++ [s]) f = put s.1 s.2 (putAll stores f) :=
  List.foldl_append

theorem putAll_sameOn (hrs : ∀ s ∈ stores, ∀ r ∈ rs, s.range.Apart r) :
    SameOn rs f (putAll stores f) := by
  induction stores generalizing f with
  | nil => exact SameOn.refl
  | cons s stores ih =>
    obtain ⟨hs, hstores⟩ := List.forall_mem_cons.1 hrs
    exact (put_changes.sameOn hs).trans (ih hstores)

/-- Stores that are apart are all in place at the end. -/
theorem slice_putAll {s : Store} (hstores : stores.Pairwise fun s s' => s.range.Apart s'.range)
    (hs : s ∈ stores) : (putAll stores f).slice s.1 s.2.length = s.2 := by
  induction stores generalizing f with
  | nil => exact absurd hs List.not_mem_nil
  | cons s' stores ih =>
    obtain ⟨hhead, htail⟩ := List.pairwise_cons.1 hstores
    rcases List.mem_cons.1 hs with rfl | hs
    · have hsame : SameOn [s.range] (put s.1 s.2 f) (putAll (s :: stores) f) :=
        putAll_sameOn fun s' hs' r hr => List.mem_singleton.1 hr ▸ (hhead s' hs').symm
      exact (hsame.slice (List.mem_singleton.2 rfl) le_rfl le_rfl).trans slice_put
    · exact ih htail hs

/-- Bytes that no store is for stay as they are. -/
theorem putAll_outside (hi : ∀ s ∈ stores, ¬s.range.Contains i) : putAll stores f i = f i := by
  induction stores generalizing f with
  | nil => rfl
  | cons s stores ih =>
    obtain ⟨hs, hstores⟩ := List.forall_mem_cons.1 hi
    exact (ih hstores).trans (put_changes i hs)

/-! ## Parts of what is in place -/

/-- A byte of a slice. -/
theorem eq_of_slice (h : g.slice a n = f.slice a n) (hi : (Range.mk a n).Contains i) :
    g i = f i := by
  obtain ⟨j, rfl⟩ := Nat.exists_eq_add_of_le hi.1
  have hj : j < n := Nat.lt_of_add_lt_add_left hi.2
  have hbyte := congrArg (fun l => l.getD j 0) h
  rwa [getD_slice hj, getD_slice hj] at hbyte

/-- Bytes are put in place in two parts. -/
theorem put_append {bs' : List UInt8} :
    put a (bs ++ bs') f = put (a + bs.length) bs' (put a bs f) := by
  funext i
  simp only [put, List.length_append]
  by_cases hlo : a + bs.length ≤ i
  · by_cases hhi : i < a + bs.length + bs'.length
    · rw [if_pos (by omega), if_pos ⟨hlo, hhi⟩, List.getD_append_right _ _ _ _ (by omega)]
      congr 1
      omega
    · rw [if_neg (by omega), if_neg (by omega), if_neg (by omega)]
  · by_cases hin : a ≤ i
    · rw [if_pos (by omega), if_neg (by omega), if_pos (by omega),
        List.getD_append _ _ _ _ (by omega)]
    · rw [if_neg (by omega), if_neg (by omega), if_neg (by omega)]

/-- Nothing changes when the bytes are in place already. -/
theorem put_eq_self (h : f.slice a bs.length = bs) : put a bs f = f := by
  funext i
  by_cases hi : a ≤ i ∧ i < a + bs.length
  · obtain ⟨j, rfl⟩ := Nat.exists_eq_add_of_le hi.1
    have hj : j < bs.length := by omega
    rw [put_inside hj, ← getD_slice (f := f) (a := a) hj, h]
  · exact if_neg hi

/-- A part of a slice. -/
theorem slice_slice {k l : ℕ} (hkl : k + l ≤ n) :
    f.slice (a + k) l = ((f.slice a n).drop k).take l := by
  refine List.ext_getElem (by simp; omega) fun i hi _ => ?_
  simp [slice, Nat.add_assoc]

/-- Entries of one size, one after the other: the bytes of one of them. -/
theorem take_drop_flatMap {α : Type*} {l : List α} {bytes : α → List UInt8} {c : ℕ} (e : α)
    (hc : ∀ x, (bytes x).length = c) (hi : i < l.length) :
    ((l.flatMap bytes).drop (c * i)).take c = bytes (l.getD i e) := by
  induction l generalizing i with
  | nil => exact absurd hi (Nat.not_lt_zero i)
  | cons x l ih =>
    rw [List.flatMap_cons]
    cases i with
    | zero => simp [hc]
    | succ i =>
      rw [Nat.mul_succ, List.drop_append, List.drop_eq_nil_of_le (by rw [hc]; omega), hc,
        Nat.add_sub_cancel, List.nil_append, List.getD_cons_succ]
      exact ih (Nat.lt_of_succ_lt_succ hi)

end Bytes

end Trona
