import Mathlib.Data.List.Basic

/-!
# Bytes by their position

The contents of a file or of a buffer, as the byte at every position. A transfer takes some
bytes from a position on (`Bytes.slice`) and puts them at another (`Bytes.put`).
-/

namespace Trona

/-- The byte at every position. -/
abbrev Bytes := ℕ → UInt8

namespace Bytes

variable {f : Bytes} {bs : List UInt8} {a i n : ℕ}

/-- The `n` bytes from the position `a` on. -/
def slice (f : Bytes) (a n : ℕ) : List UInt8 := (List.range n).map fun i => f (a + i)

/-- Put bytes in place, from the position `a` on. -/
def put (a : ℕ) (bs : List UInt8) (f : Bytes) : Bytes := fun i =>
  if a ≤ i ∧ i < a + bs.length then bs.getD (i - a) 0 else f i

@[simp] theorem length_slice : (f.slice a n).length = n := by simp [slice]

theorem getD_slice (hi : i < n) : (f.slice a n).getD i 0 = f (a + i) := by
  simp [slice, List.getD_eq_getElem?_getD, hi]

theorem take_slice {k : ℕ} : (f.slice a n).take k = f.slice a (min k n) := by
  rw [slice, ← List.map_take, List.take_range, slice]

theorem put_inside (hi : i < bs.length) : put a bs f (a + i) = bs.getD i 0 := by
  rw [put, if_pos ⟨Nat.le_add_right a i, by omega⟩, Nat.add_sub_cancel_left]

theorem put_outside (hi : i < a ∨ a + bs.length ≤ i) : put a bs f i = f i :=
  if_neg (by omega)

/-- What was put in place is there. -/
theorem slice_put : (put a bs f).slice a bs.length = bs := by
  refine List.ext_getElem length_slice fun i h _ => ?_
  rw [length_slice] at h
  have hput : put a bs f (a + i) = bs.getD i 0 := put_inside h
  simpa [slice, h] using hput

theorem slice_add {m : ℕ} : f.slice a (m + n) = f.slice a m ++ f.slice (a + m) n := by
  rw [slice, List.range_add, List.map_append, slice, slice, List.map_map]
  simp [Function.comp_def, Nat.add_assoc]

/-- Bytes before the place of a transfer stay as they are. -/
theorem slice_put_before {b : ℕ} (h : b + n ≤ a) : (put a bs f).slice b n = f.slice b n := by
  refine List.map_congr_left fun i hi => put_outside (.inl ?_)
  have := List.mem_range.1 hi
  omega

@[simp] theorem put_nil : put a [] f = f := by
  funext i
  exact put_outside (by simp; omega)

end Bytes

end Trona
