import Mathlib.Data.List.Nodup
import Mathlib.Data.Nat.Bitwise
import Mathlib.Tactic.Cases

/-!
# Machine words

Arithmetic of 64-bit words on natural numbers. An address is rounded to a
power of two by masking; on words this is the rounding of arithmetic, which is
the form in which `omega` uses it (`alignDown_eq`, `alignUp_eq`).

A word is stored with its least significant byte first: `wordByte` takes it apart,
`leNat` puts it together.
-/

namespace Trona

/-- The difference of two words. -/
def wsub (a b : ℕ) : ℕ := (a + (2 ^ 64 - b)) % 2 ^ 64

/-- Round a word down to a multiple of `a`: `v & !(a - 1)`. -/
def alignDown (a v : ℕ) : ℕ := v &&& (2 ^ 64 - a)

/-- Round a word up to a multiple of `a`: `(v + a - 1) & !(a - 1)`. -/
def alignUp (a v : ℕ) : ℕ := alignDown a ((v + (a - 1)) % 2 ^ 64)

variable {v a k : ℕ}

theorem wsub_eq {b : ℕ} (h : b ≤ a) (ha : a < 2 ^ 64) : wsub a b = a - b := by
  unfold wsub
  omega

theorem wsub_lt (a b : ℕ) : wsub a b < 2 ^ 64 := Nat.mod_lt _ (by decide)

/-- Masking a word rounds it down. -/
theorem alignDown_eq {k v : ℕ} (hk : k ≤ 64) (hv : v < 2 ^ 64) :
    alignDown (2 ^ k) v = v - v % 2 ^ k := by
  have hmask : 2 ^ 64 - 2 ^ k = (2 ^ (64 - k) - 1) <<< k := by
    rw [Nat.shiftLeft_eq, Nat.sub_mul, ← Nat.pow_add, Nat.sub_add_cancel hk, Nat.one_mul]
  have hround : v - v % 2 ^ k = (v >>> k) <<< k := by
    rw [Nat.shiftLeft_eq, Nat.shiftRight_eq_div_pow]
    have := Nat.div_add_mod v (2 ^ k)
    have := Nat.mul_comm (v / 2 ^ k) (2 ^ k)
    omega
  rw [alignDown, hmask, hround]
  refine Nat.eq_of_testBit_eq fun i => ?_
  rw [Nat.testBit_and, Nat.testBit_shiftLeft, Nat.testBit_shiftLeft, Nat.testBit_two_pow_sub_one,
    Nat.testBit_shiftRight]
  by_cases hi : k ≤ i
  · by_cases h64 : i < 64
    · have hlt : i - k < 64 - k := by omega
      simp [hi, hlt, Nat.add_sub_cancel' hi]
    · have hzero : v.testBit i = false :=
        Nat.testBit_lt_two_pow (hv.trans_le (Nat.pow_le_pow_right (by decide) (by omega)))
      simp [hi, hzero, Nat.add_sub_cancel' hi]
  · simp [hi]

theorem dvd_alignDown (hk : k ≤ 64) : 2 ^ k ∣ alignDown (2 ^ k) v := by
  have hmask : (2 ^ 64 - 2 ^ k) % 2 ^ k = 0 :=
    Nat.mod_eq_zero_of_dvd (Nat.dvd_sub (Nat.pow_dvd_pow 2 hk) (Nat.dvd_refl _))
  refine Nat.dvd_of_mod_eq_zero ?_
  rw [alignDown, Nat.and_mod_two_pow, hmask, Nat.and_zero]

theorem alignUp_eq (hk : k ≤ 64) :
    alignUp (2 ^ k) v = (v + (2 ^ k - 1)) % 2 ^ 64 - (v + (2 ^ k - 1)) % 2 ^ 64 % 2 ^ k :=
  alignDown_eq hk (Nat.mod_lt _ (by decide))

theorem alignUp_four (v : ℕ) : alignUp 4 v = (v + 3) % 2 ^ 64 - (v + 3) % 2 ^ 64 % 4 :=
  alignUp_eq (k := 2) (by decide)

theorem alignUp_four_le (v : ℕ) : alignUp 4 v ≤ v + 3 := by
  rw [alignUp_four]
  omega

theorem le_alignUp_four (hv : v + 3 < 2 ^ 64) : v ≤ alignUp 4 v := by
  rw [alignUp_four]
  omega

theorem alignUp_four_eq (h : v % 4 = 0) (hv : v + 3 < 2 ^ 64) : alignUp 4 v = v := by
  rw [alignUp_four]
  omega

/-- The least multiple of `a` that is not less than `v`. -/
def roundUp (a v : ℕ) : ℕ := (v + (a - 1)) / a * a

theorem le_roundUp (ha : 0 < a) : v ≤ roundUp a v := by
  have hdiv := Nat.div_add_mod (v + (a - 1)) a
  have hmod := Nat.mod_lt (v + (a - 1)) ha
  rw [roundUp, Nat.mul_comm]
  omega

theorem roundUp_one : roundUp 1 v = v := by
  simp [roundUp]

/-- A multiple of `a` that is not zero is not less than `a`. -/
theorem le_roundUp_of_pos (ha : 0 < a) (hv : 0 < v) : a ≤ roundUp a v := by
  have hpos : 0 < (v + (a - 1)) / a := Nat.div_pos (by omega) ha
  exact Nat.le_mul_of_pos_left a hpos

theorem alignUp_eq_roundUp (hk : k ≤ 64) (hv : v + (2 ^ k - 1) < 2 ^ 64) :
    alignUp (2 ^ k) v = roundUp (2 ^ k) v := by
  rw [alignUp_eq hk, Nat.mod_eq_of_lt hv, roundUp]
  have hdiv := Nat.div_add_mod (v + (2 ^ k - 1)) (2 ^ k)
  rw [Nat.mul_comm] at hdiv
  omega

/-! ## Pages -/

/-- The size of a page. -/
def pageSize : ℕ := 4096

def pageAlignDown (v : ℕ) : ℕ := alignDown pageSize v

def pageAlignUp (v : ℕ) : ℕ := alignUp pageSize v

theorem pageAlignDown_eq (hv : v < 2 ^ 64) : pageAlignDown v = v - v % 4096 :=
  alignDown_eq (k := 12) (by decide) hv

theorem pageAlignUp_eq (v : ℕ) :
    pageAlignUp v = (v + 4095) % 2 ^ 64 - (v + 4095) % 2 ^ 64 % 4096 :=
  alignUp_eq (k := 12) (by decide)

/-- The pages from `start` on, up to `fin`. -/
def pageRange (start fin : ℕ) : List ℕ :=
  (List.range ((fin - start) / pageSize)).map fun k => start + pageSize * k

theorem mem_pageRange {start fin : ℕ} (hs : start % 4096 = 0) (hf : fin % 4096 = 0) :
    v ∈ pageRange start fin ↔ v % 4096 = 0 ∧ start ≤ v ∧ v < fin := by
  simp only [pageRange, List.mem_map, List.mem_range, pageSize]
  constructor
  · rintro ⟨k, hk, rfl⟩
    omega
  · rintro ⟨hv, hlo, hhi⟩
    exact ⟨(v - start) / 4096, by omega, by omega⟩

theorem nodup_pageRange (start fin : ℕ) : (pageRange start fin).Nodup := by
  refine List.Nodup.map (fun a b h => ?_) List.nodup_range
  simp only [pageSize] at h
  omega

/-! ## Bytes -/

/-- The byte `j` of a word, from the least significant one. -/
def wordByte (v j : ℕ) : UInt8 := UInt8.ofNat (v / 256 ^ j % 256)

/-- The `n` bytes of a number, the least significant one first. -/
def wordBytes (n v : ℕ) : List UInt8 := (List.range n).map (wordByte v)

/-- The number that bytes spell, the least significant one first. -/
def leNat : List UInt8 → ℕ
  | [] => 0
  | b :: bs => b.toNat + 256 * leNat bs

theorem leNat_lt (bs : List UInt8) : leNat bs < 256 ^ bs.length := by
  induction bs with
  | nil => decide
  | cons b bs ih =>
    have := b.toNat_lt
    rw [leNat, List.length_cons, Nat.pow_succ]
    omega

theorem leNat_append (as bs : List UInt8) :
    leNat (as ++ bs) = leNat as + 256 ^ as.length * leNat bs := by
  induction as with
  | nil => simp [leNat]
  | cons a as ih =>
    rw [List.cons_append, leNat, leNat, ih, List.length_cons, Nat.pow_succ', Nat.mul_add,
      Nat.mul_assoc, Nat.add_assoc]

/-- The low bytes of a number are the first of the bytes that spell it. -/
theorem leNat_mod (bs : List UInt8) (k : ℕ) : leNat bs % 256 ^ k = leNat (bs.take k) := by
  by_cases hk : k ≤ bs.length
  · have hlen : (bs.take k).length = k := by rw [List.length_take, Nat.min_eq_left hk]
    have hlt := leNat_lt (bs.take k)
    rw [hlen] at hlt
    rw [← List.take_append_drop k bs, leNat_append, hlen, Nat.add_mul_mod_self_left,
      Nat.mod_eq_of_lt hlt, List.take_append_drop]
  · have hle : bs.length ≤ k := by omega
    rw [List.take_of_length_le hle, Nat.mod_eq_of_lt]
    exact (leNat_lt bs).trans_le (Nat.pow_le_pow_right (by decide) hle)

theorem toNat_wordByte (v j : ℕ) : (wordByte v j).toNat = v / 256 ^ j % 256 := by
  rw [wordByte, UInt8.toNat_ofNat']
  omega

/-- The bytes of a number are those that spell it. -/
theorem wordByte_leNat {bs : List UInt8} {j : ℕ} (hj : j < bs.length) :
    wordByte (leNat bs) j = bs[j] := by
  induction bs generalizing j with
  | nil => exact absurd hj (Nat.not_lt_zero j)
  | cons b bs ih =>
    rw [← UInt8.toNat_inj, toNat_wordByte, leNat]
    have hb := b.toNat_lt
    cases j with
    | zero =>
      rw [Nat.pow_zero, Nat.div_one, List.getElem_cons_zero]
      omega
    | succ j =>
      rw [List.getElem_cons_succ, ← ih (by simpa using hj), toNat_wordByte, Nat.pow_succ',
        ← Nat.div_div_eq_div_mul]
      congr 2
      omega

@[simp] theorem length_wordBytes (n v : ℕ) : (wordBytes n v).length = n := by simp [wordBytes]

theorem wordBytes_succ (n v : ℕ) :
    wordBytes (n + 1) v = wordByte v 0 :: wordBytes n (v / 256) := by
  have hbyte : ∀ j, wordByte v (j + 1) = wordByte (v / 256) j := by
    intro j
    rw [wordByte, wordByte, Nat.pow_succ', Nat.div_div_eq_div_mul]
  simp [wordBytes, List.range_succ_eq_map, Function.comp_def, hbyte]

/-- A number that was taken apart is put together again, to the width. -/
theorem leNat_wordBytes (n v : ℕ) : leNat (wordBytes n v) = v % 256 ^ n := by
  induction n generalizing v with
  | zero => simp [wordBytes, leNat, Nat.mod_one]
  | succ n ih =>
    rw [wordBytes_succ, leNat, ih, toNat_wordByte, Nat.pow_zero, Nat.div_one, Nat.pow_succ',
      Nat.mod_mul]

/-- The low `n` bytes of two words are the same when the words are, to that width. -/
theorem wordByte_eq_iff (v w n : ℕ) :
    (∀ j < n, wordByte v j = wordByte w j) ↔ v % 256 ^ n = w % 256 ^ n := by
  have hbyte : ∀ j, wordByte v j = wordByte w j ↔ v / 256 ^ j % 256 = w / 256 ^ j % 256 := by
    intro j
    rw [← UInt8.toNat_inj, toNat_wordByte, toNat_wordByte]
  induction n with
  | zero => simp [Nat.mod_one]
  | succ n ih =>
    refine (Nat.forall_lt_succ_right.trans (and_congr ih (hbyte n))).trans ?_
    rw [Nat.mod_pow_succ, Nat.mod_pow_succ]
    generalize hb : 256 ^ n = b
    have hpos : 0 < b := hb ▸ Nat.pow_pos (by decide)
    constructor
    · rintro ⟨h₁, h₂⟩
      rw [h₁, h₂]
    · intro h
      have hlow := congrArg (· % b) h
      have hhigh := congrArg (· / b) h
      simp only [Nat.add_mul_mod_self_left, Nat.mod_mod] at hlow
      simp only [Nat.add_mul_div_left _ _ hpos, Nat.div_eq_of_lt (Nat.mod_lt _ hpos),
        Nat.zero_add] at hhigh
      exact ⟨hlow, hhigh⟩

end Trona
