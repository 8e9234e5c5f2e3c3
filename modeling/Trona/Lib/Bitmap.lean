import Mathlib.Data.Nat.Count
import Mathlib.Tactic.Cases

/-!
# Bitmaps over machine words

A set of small numbers kept as an array of 64-bit words: the number `i` is bit
`i % 64` of the word `i / 64`. Inserting and erasing touch one word with one
mask; what they do to the set is `test_insert` and `test_erase`, and what they
do to the number of members below a limit `card_insert` and `card_erase`.
-/

namespace Trona

/-- A bitmap of `n` words. -/
abbrev Bitmap (n : ℕ) := Vector (BitVec 64) n

namespace Bitmap

variable {n : ℕ}

/-- The mask of the bit `i` in its word. -/
def mask (i : ℕ) : BitVec 64 := 1#64 <<< (i % 64)

/-- The bitmap with no member. -/
def empty (n : ℕ) : Bitmap n := Vector.replicate n 0#64

/-- Whether `i` is a member: its bit is set in its word. -/
def test (b : Bitmap n) (i : ℕ) : Bool :=
  if h : i / 64 < n then (b[i / 64] &&& mask i) != 0#64 else false

/-- The bitmap with the bit `i` set. -/
def insert (b : Bitmap n) (i : ℕ) : Bitmap n :=
  if h : i / 64 < n then b.set (i / 64) (b[i / 64] ||| mask i) else b

/-- The bitmap with the bit `i` cleared. -/
def erase (b : Bitmap n) (i : ℕ) : Bitmap n :=
  if h : i / 64 < n then b.set (i / 64) (b[i / 64] &&& ~~~mask i) else b

/-- The number of members below `lim`. -/
def card (b : Bitmap n) (lim : ℕ) : ℕ := Nat.count (fun i => b.test i = true) lim

/-! ## Bits of a word -/

theorem getLsbD_mask (i k : ℕ) (hk : k < 64) : (mask i).getLsbD k = decide (k = i % 64) := by
  simp only [mask, BitVec.getLsbD_shiftLeft, BitVec.getLsbD_one, hk]
  by_cases h : k = i % 64
  · simp [h]
  · by_cases hlt : k < i % 64
    · simp [hlt, h]
    · simp only [h, hlt, decide_true, Bool.true_and, decide_false, Bool.not_false]
      simp only [decide_eq_false_iff_not, Bool.and_eq_false_iff]
      omega

variable {i lim : ℕ} {b c : Bitmap n}

theorem getLsbD_mask_of_div_eq {j : ℕ} (hw : i / 64 = j / 64) :
    (mask i).getLsbD (j % 64) = decide (j = i) := by
  rw [getLsbD_mask i _ (Nat.mod_lt _ (by decide)), decide_eq_decide]
  omega

/-- Masking a word with the mask of `i` is nonzero when the bit of `i` is set. -/
theorem and_mask_ne_zero (w : BitVec 64) (i : ℕ) :
    ((w &&& mask i) != 0#64) = w.getLsbD (i % 64) := by
  have hi : i % 64 < 64 := Nat.mod_lt _ (by decide)
  by_cases hw : w.getLsbD (i % 64) = true
  · rw [hw, bne_iff_ne]
    intro h0
    have := congrArg (fun v => v.getLsbD (i % 64)) h0
    simp [hw, getLsbD_mask i _ hi] at this
  · rw [Bool.not_eq_true] at hw
    rw [hw, bne_eq_false_iff_eq]
    ext k hk
    by_cases hki : k = i % 64
    · subst hki
      simp [← BitVec.getLsbD_eq_getElem, hw]
    · have := getLsbD_mask i k hk
      simp [← BitVec.getLsbD_eq_getElem, this, hki]

theorem test_eq (b : Bitmap n) (hi : i / 64 < n) : b.test i = b[i / 64].getLsbD (i % 64) := by
  rw [test, dif_pos hi, and_mask_ne_zero]

/-! ## Members -/

@[simp] theorem test_empty (i : ℕ) : (empty n).test i = false := by
  by_cases hi : i / 64 < n
  · simp [test_eq _ hi, empty]
  · simp [test, hi]

/-- Writing a word changes the members it holds. -/
theorem test_set (b : Bitmap n) {k : ℕ} (hk : k < n) (w : BitVec 64) (j : ℕ) :
    Bitmap.test (b.set k w) j = if k = j / 64 then w.getLsbD (j % 64) else b.test j := by
  by_cases hj : j / 64 < n
  · rw [test_eq _ hj, test_eq _ hj, Vector.getElem_set]
    split <;> rfl
  · have hne : k ≠ j / 64 := fun h => hj (h ▸ hk)
    simp [test, hj, hne]

/-- Setting the bit `i` adds `i` and nothing else. -/
theorem test_insert (b : Bitmap n) (hi : i / 64 < n) (j : ℕ) :
    (b.insert i).test j = (decide (j = i) || b.test j) := by
  rw [insert, dif_pos hi, test_set]
  by_cases hw : i / 64 = j / 64
  · rw [if_pos hw, BitVec.getLsbD_or, getLsbD_mask_of_div_eq hw, test_eq _ (hw ▸ hi), Bool.or_comm]
    simp only [hw]
  · have hne : j ≠ i := fun h => hw (by rw [h])
    simp [hw, hne]

/-- Clearing the bit `i` removes `i` and nothing else. -/
theorem test_erase (b : Bitmap n) (hi : i / 64 < n) (j : ℕ) :
    (b.erase i).test j = (!decide (j = i) && b.test j) := by
  rw [erase, dif_pos hi, test_set]
  by_cases hw : i / 64 = j / 64
  · have hlt : j % 64 < 64 := Nat.mod_lt _ (by decide)
    rw [if_pos hw, BitVec.getLsbD_and, BitVec.getLsbD_not, getLsbD_mask_of_div_eq hw,
      test_eq _ (hw ▸ hi), decide_eq_true hlt, Bool.true_and, Bool.and_comm]
    simp only [hw]
  · have hne : j ≠ i := fun h => hw (by rw [h])
    simp [hw, hne]

/-! ## Counting members -/

@[simp] theorem card_empty (lim : ℕ) : (empty n).card lim = 0 := by
  simp [card]

theorem card_le (b : Bitmap n) (lim : ℕ) : b.card lim ≤ lim := Nat.count_le _

theorem card_succ (b : Bitmap n) (lim : ℕ) :
    b.card (lim + 1) = b.card lim + if b.test lim = true then 1 else 0 := Nat.count_succ _ _

/-- Counting is pointwise: only the members below the limit matter. -/
theorem card_congr (h : ∀ j < lim, b.test j = c.test j) : b.card lim = c.card lim := by
  induction lim with
  | zero => rfl
  | succ k ih =>
    rw [card_succ, card_succ, ih fun j hj => h j (Nat.lt_succ_of_lt hj), h k (Nat.lt_succ_self k)]

/-- One more member below the limit counts one more. -/
theorem card_eq_add_one (hlim : i < lim) (hb : b.test i = false) (hc : c.test i = true)
    (hne : ∀ j ≠ i, c.test j = b.test j) : c.card lim = b.card lim + 1 := by
  induction lim with
  | zero => exact absurd hlim (Nat.not_lt_zero i)
  | succ k ih =>
    rw [card_succ, card_succ]
    rcases Nat.lt_succ_iff_lt_or_eq.1 hlim with hik | rfl
    · rw [ih hik, hne k hik.ne']
      omega
    · -- The member is the last one counted: below it, nothing changes.
      have hbelow : c.card i = b.card i := card_congr fun j hj => hne j hj.ne
      simp [hbelow, hb, hc]

/-- Adding a new member below the limit counts one more. -/
theorem card_insert (b : Bitmap n) (hi : i / 64 < n) (hlim : i < lim) (hfree : b.test i = false) :
    (b.insert i).card lim = b.card lim + 1 :=
  card_eq_add_one hlim hfree (by simp [test_insert b hi]) fun j hj => by simp [test_insert b hi, hj]

/-- Removing a member below the limit counts one less. -/
theorem card_erase (b : Bitmap n) (hi : i / 64 < n) (hlim : i < lim) (hused : b.test i = true) :
    (b.erase i).card lim + 1 = b.card lim :=
  (card_eq_add_one hlim (by simp [test_erase b hi]) hused fun j hj => by
    simp [test_erase b hi, hj]).symm

end Bitmap

end Trona
