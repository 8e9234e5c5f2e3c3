import Trona.Lib.Wp

/-!
# Two programs in lock step

Two programs whose states are related at the start, by a relation that does not look at what
they do differently, and that return the same or exit in the same way, with states that are related
again (`LockStep`). The rules follow the programs, as those of `wp` do.
-/

namespace Trona

universe u

variable {ε σ α β : Type u} {R R' : σ → σ → Prop}

/-- Two runs end in the same way, in states that are related. -/
inductive SameEnd (R : σ → σ → Prop) : EStateM.Result ε σ α → EStateM.Result ε σ α → Prop
  | ok {a : α} {s t : σ} (h : R s t) : SameEnd R (.ok a s) (.ok a t)
  | error {e : ε} {s t : σ} (h : R s t) : SameEnd R (.error e s) (.error e t)

theorem SameEnd.mono {p q : EStateM.Result ε σ α} (h : SameEnd R p q) (hR : ∀ s t, R s t → R' s t) :
    SameEnd R' p q := by
  cases h with
  | ok hst => exact .ok (hR _ _ hst)
  | error hst => exact .error (hR _ _ hst)

/-- From states that are related, the programs end in the same way. -/
def LockStep (R : σ → σ → Prop) (x y : EStateM ε σ α) : Prop :=
  ∀ s t, R s t → SameEnd R (x.run s) (y.run t)

namespace LockStep

variable {x y : EStateM ε σ α}

protected theorem pure {a : α} : LockStep R (pure a : EStateM ε σ α) (pure a) := fun _ _ h => .ok h

protected theorem throw {e : ε} : LockStep R (throw e : EStateM ε σ α) (throw e) :=
  fun _ _ h => .error h

protected theorem modify {f g : σ → σ} (h : ∀ s t, R s t → R (f s) (g t)) :
    LockStep R (modify f : EStateM ε σ PUnit) (modify g) := fun s t hst => .ok (h s t hst)

protected theorem bind {f g : α → EStateM ε σ β} (hxy : LockStep R x y)
    (hfg : ∀ a, LockStep R (f a) (g a)) : LockStep R (x >>= f) (y >>= g) := by
  intro s t hst
  have hend := hxy s t hst
  rw [EStateM.run_bind, EStateM.run_bind]
  generalize x.run s = p at hend ⊢
  generalize y.run t = q at hend ⊢
  cases hend with
  | ok h => exact hfg _ _ _ h
  | error h => exact .error h

/-- The programs go on with their states, which are related. -/
protected theorem get {f g : σ → EStateM ε σ β}
    (h : ∀ s t, R s t → SameEnd R ((f s).run s) ((g t).run t)) :
    LockStep R (get >>= f) (get >>= g) := fun s t hst => h s t hst

protected theorem ite {c : Prop} [Decidable c] {x' y' : EStateM ε σ α} (h : c → LockStep R x y)
    (h' : ¬c → LockStep R x' y') : LockStep R (if c then x else x') (if c then y else y') := by
  split
  · exact h ‹_›
  · exact h' ‹_›

/-- Loops go in lock step when their iterations do. -/
protected theorem forM {ι : Type u} {l : List ι} {f g : ι → EStateM ε σ PUnit}
    (h : ∀ i ∈ l, LockStep R (f i) (g i)) : LockStep R (l.forM f) (l.forM g) := by
  induction l with
  | nil => exact .pure
  | cons i l ih =>
    rw [List.forall_mem_cons] at h
    exact .bind h.1 fun _ => ih h.2

end LockStep

end Trona
