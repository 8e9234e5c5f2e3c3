import Mathlib.Order.MinMax
import Mathlib.Order.Nat

/-!
# Running minima and maxima

The least and the greatest value over a list, as a loop with an accumulator finds
them.
-/

namespace Trona

universe u

variable {α : Type u} {g : α → ℕ} {l : List α} {m : ℕ}

/-- The least of `m` and the values of a list. -/
def foldMin (g : α → ℕ) (m : ℕ) (l : List α) : ℕ :=
  l.foldl (fun m a => if g a < m then g a else m) m

/-- The greatest of `m` and the values of a list. -/
def foldMax (g : α → ℕ) (m : ℕ) (l : List α) : ℕ :=
  l.foldl (fun m a => if g a > m then g a else m) m

theorem foldMin_cons (a : α) : foldMin g m (a :: l) = foldMin g (min (g a) m) l := by
  rw [foldMin, List.foldl_cons, ← foldMin, min_def]
  split <;> split <;> first | rfl | (congr 1; omega)

theorem foldMax_cons (a : α) : foldMax g m (a :: l) = foldMax g (max (g a) m) l := by
  rw [foldMax, List.foldl_cons, ← foldMax, max_def]
  split <;> split <;> first | rfl | (congr 1; omega)

theorem le_foldMin {b : ℕ} : b ≤ foldMin g m l ↔ b ≤ m ∧ ∀ a ∈ l, b ≤ g a := by
  induction l generalizing m with
  | nil => simp [foldMin]
  | cons a l ih =>
    rw [foldMin_cons, ih, le_min_iff, List.forall_mem_cons, and_comm (a := b ≤ g a), and_assoc]

theorem foldMax_le {b : ℕ} : foldMax g m l ≤ b ↔ m ≤ b ∧ ∀ a ∈ l, g a ≤ b := by
  induction l generalizing m with
  | nil => simp [foldMax]
  | cons a l ih =>
    rw [foldMax_cons, ih, max_le_iff, List.forall_mem_cons, and_comm (a := g a ≤ b), and_assoc]

/-- What all values have, the greatest has. -/
theorem foldMax_induction {P : ℕ → Prop} (hm : P m) (hg : ∀ a ∈ l, P (g a)) :
    P (foldMax g m l) := by
  induction l generalizing m with
  | nil => exact hm
  | cons a l ih =>
    rw [foldMax_cons]
    refine ih ?_ fun b hb => hg b (List.mem_cons_of_mem _ hb)
    rcases max_choice (g a) m with h | h
    · rw [h]
      exact hg a List.mem_cons_self
    · rw [h]
      exact hm

theorem foldMin_le {a : α} (ha : a ∈ l) : foldMin g m l ≤ g a := (le_foldMin.1 le_rfl).2 a ha

theorem le_foldMax {a : α} (ha : a ∈ l) : g a ≤ foldMax g m l := (foldMax_le.1 le_rfl).2 a ha

end Trona
