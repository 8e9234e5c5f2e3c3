import Mathlib.Data.List.Basic
import Mathlib.Order.Defs.Unbundled

/-!
# Weakest preconditions

Programs with a state and early exits, in the monad `EStateM ε σ`, whose exits
keep the state they were taken in. `wp x Q E s` says that `x`, started in the
state `s`, returns with `Q` or exits with `E`.

The rules follow the program: one for each way to build it (`wp_bind`, `wp_ite`,
...), one for a loop over a list, with an invariant of the part gone through
(`wp_forM`), and weakening (`wp_mono`). Where it is enough to know how the states at the
start and at the end are related, there are rules for that alone (`Within`, and `Returns` if
only runs that return matter).
-/

namespace Trona

universe u

variable {ε σ α β : Type u} {x : EStateM ε σ α} {Q Q' : α → σ → Prop} {E E' : ε → σ → Prop} {s : σ}

/-- Started in `s`, the program returns with `Q` or exits with `E`. -/
def wp (x : EStateM ε σ α) (Q : α → σ → Prop) (E : ε → σ → Prop) (s : σ) : Prop :=
  match x.run s with
  | .ok a s' => Q a s'
  | .error e s' => E e s'

theorem wp_mono (h : wp x Q E s) (hQ : ∀ a s', Q a s' → Q' a s') (hE : ∀ e s', E e s' → E' e s') :
    wp x Q' E' s := by
  unfold wp at *
  split
  · rename_i heq
    rw [heq] at h
    exact hQ _ _ h
  · rename_i heq
    rw [heq] at h
    exact hE _ _ h

/-- What holds when the program returns may be weakened alone. -/
theorem wp_post (h : wp x Q E s) (hQ : ∀ a s', Q a s' → Q' a s') : wp x Q' E s :=
  wp_mono h hQ fun _ _ h => h

/-- Only the runs that return matter. -/
theorem wp_returns (h : wp x Q E s) (hQ : ∀ a s', Q a s' → Q' a s') :
    wp x Q' (fun _ _ => True) s :=
  wp_mono h hQ fun _ _ _ => trivial

theorem wp_and (h : wp x Q E s) (h' : wp x Q' E' s) :
    wp x (fun a s' => Q a s' ∧ Q' a s') (fun e s' => E e s' ∧ E' e s') s := by
  unfold wp at *
  split <;> simp_all

variable {ι : Type u} {R R' : σ → σ → Prop} {s' : σ} {e : ε} {l : List ι}
  {g : ι → EStateM ε σ PUnit} {a : α} {c : Prop} {y : EStateM ε σ α}

theorem wp_iff_of_ok (hx : x.run s = .ok a s') : wp x Q E s ↔ Q a s' := by
  rw [wp, hx]

theorem wp_ok (h : wp x Q E s) (hx : x.run s = .ok a s') : Q a s' :=
  (wp_iff_of_ok hx).1 h

theorem wp_iff_of_error (hx : x.run s = .error e s') : wp x Q E s ↔ E e s' := by
  rw [wp, hx]

theorem wp_error (h : wp x Q E s) (hx : x.run s = .error e s') : E e s' :=
  (wp_iff_of_error hx).1 h

/-- A program that cannot exit returns. -/
theorem wp_exists_ok (h : wp x Q (fun _ _ => False) s) :
    ∃ a s', x.run s = .ok a s' ∧ Q a s' := by
  unfold wp at h
  split at h
  · exact ⟨_, _, ‹_›, h⟩
  · exact h.elim

/-- A program returns or exits. -/
theorem not_wp_false : ¬wp x (fun _ _ => False) (fun _ _ => False) s := by
  unfold wp
  split <;> exact id

/-- What a program does can be tested by running it. -/
instance [∀ a s', Decidable (Q a s')] [∀ e s', Decidable (E e s')] : Decidable (wp x Q E s) :=
  match h : x.run s with
  | .ok a s' => decidable_of_iff (Q a s') (by rw [wp, h])
  | .error e s' => decidable_of_iff (E e s') (by rw [wp, h])

@[simp] theorem wp_pure : wp (pure a) Q E s ↔ Q a s := Iff.rfl

@[simp] theorem wp_throw : wp (throw e) Q E s ↔ E e s := Iff.rfl

@[simp] theorem wp_get {Q : σ → σ → Prop} : wp get Q E s ↔ Q s s := Iff.rfl

@[simp] theorem wp_set {t : σ} {Q : PUnit → σ → Prop} : wp (set t) Q E s ↔ Q ⟨⟩ t := Iff.rfl

@[simp] theorem wp_modify {f : σ → σ} {Q : PUnit → σ → Prop} :
    wp (modify f) Q E s ↔ Q ⟨⟩ (f s) := Iff.rfl

@[simp] theorem wp_bind {g : α → EStateM ε σ β} {Q : β → σ → Prop} :
    wp (x >>= g) Q E s ↔ wp x (fun a s' => wp (g a) Q E s') E s := by
  rw [wp, wp, EStateM.run_bind]
  cases EStateM.run x s <;> rfl

@[simp] theorem wp_map {g : α → β} {Q : β → σ → Prop} :
    wp (g <$> x) Q E s ↔ wp x (fun a s' => Q (g a) s') E s := by
  rw [map_eq_pure_bind, wp_bind]
  exact Iff.rfl

@[simp] theorem wp_ite [Decidable c] :
    wp (if c then x else y) Q E s ↔ (c → wp x Q E s) ∧ (¬c → wp y Q E s) := by
  split <;> simp_all

/-- A loop goes through its list part by part. -/
theorem wp_forM_append {l' : List ι} {Q : PUnit → σ → Prop} :
    wp ((l ++ l').forM g) Q E s ↔ wp (l.forM g) (fun _ => wp (l'.forM g) Q E) E s := by
  have h : (l ++ l').forM g = (l.forM g >>= fun _ => l'.forM g) := List.forM_append
  rw [h, wp_bind]

theorem wp_forM_singleton {i : ι} {Q : PUnit → σ → Prop} :
    wp (([i] : List ι).forM g) Q E s ↔ wp (g i) Q E s :=
  wp_bind.trans ⟨fun h => wp_post h fun _ _ => wp_pure.1, fun h => wp_post h fun _ _ => wp_pure.2⟩

theorem wp_forM_map {κ : Type u} {l : List κ} {k : κ → ι} {Q : PUnit → σ → Prop} :
    wp ((l.map k).forM g) Q E s ↔ wp (l.forM fun i => g (k i)) Q E s := by
  have h : (l.map k).forM g = l.forM fun i => g (k i) := List.forM_map
  rw [h]

/-- Two loops do the same if their iterations do. Their exits may be different. -/
theorem wp_forM_congr {ε' : Type u} {g' : ι → EStateM ε' σ PUnit} {E' : ε' → σ → Prop}
    (h : ∀ i ∈ l, ∀ (Q : PUnit → σ → Prop) s, wp (g i) Q E s ↔ wp (g' i) Q E' s)
    {Q : PUnit → σ → Prop} : wp (l.forM g) Q E s ↔ wp (l.forM g') Q E' s := by
  induction l generalizing s with
  | nil => exact wp_pure.trans wp_pure.symm
  | cons i l ih =>
    rw [List.forall_mem_cons] at h
    refine wp_bind.trans (Iff.trans ?_ wp_bind.symm)
    simp only [fun s => ih h.2 (s := s)]
    exact h.1 _ s

/-- A loop keeps an invariant of the elements gone through. An exit may be
    described by the iteration it was taken in. -/
theorem wp_forM (I : List ι → σ → Prop) (hinit : I [] s)
    (hstep : ∀ pre i post s, l = pre ++ i :: post → I pre s →
      wp (g i) (fun _ => I (pre ++ [i])) E s) : wp (l.forM g) (fun _ => I l) E s := by
  suffices h : ∀ (todo pre : List ι) (s : σ), l = pre ++ todo → I pre s →
      wp (todo.forM g) (fun _ => I l) E s from h l [] s rfl hinit
  intro todo
  induction todo with
  | nil =>
    intro pre s hl hI
    simpa [hl] using hI
  | cons i todo ih =>
    intro pre s hl hI
    refine wp_bind.2 ?_
    exact wp_post (hstep pre i todo s hl hI) fun _ s' hI' => ih (pre ++ [i]) s' (by simp [hl]) hI'

/-- Two nested loops keep an invariant of what they have gone through together. -/
theorem wp_forM_forM {κ τ : Type u} {m : ι → List κ} {g : ι → κ → EStateM ε σ PUnit}
    (item : ι → κ → τ) (I : List τ → σ → Prop) (hinit : I [] s)
    (hstep : ∀ pre i k post s, i ∈ l → k ∈ m i →
      (l.flatMap fun i => (m i).map (item i)) = pre ++ item i k :: post → I pre s →
      wp (g i k) (fun _ => I (pre ++ [item i k])) E s) :
    wp (l.forM fun i => (m i).forM (g i))
      (fun _ => I (l.flatMap fun i => (m i).map (item i))) E s := by
  refine wp_forM (fun done => I (done.flatMap fun i => (m i).map (item i))) hinit
    fun pre i post s hl hI => ?_
  have hinner := wp_forM (l := m i) (g := g i) (E := E) (s := s)
    (fun done => I ((pre.flatMap fun i => (m i).map (item i)) ++ done.map (item i)))
    (by simpa using hI) fun pre' k post' s hm hI' => ?_
  · simpa using hinner
  · have hitems : (l.flatMap fun i => (m i).map (item i)) =
        ((pre.flatMap fun i => (m i).map (item i)) ++ pre'.map (item i)) ++ item i k ::
          (post'.map (item i) ++ post.flatMap fun i => (m i).map (item i)) := by
      simp [hl, hm]
    simpa using hstep _ i k _ s (by simp [hl]) (by simp [hm]) hitems hI'

/-! ## Relations that runs keep -/

/-- Wherever the program is started and however it ends, the state at its end is in a
    relation to the one at its start. -/
def Within (R : σ → σ → Prop) (x : EStateM ε σ α) : Prop :=
  ∀ s, wp x (fun _ => R s) (fun _ => R s) s

theorem Within.mono (h : Within R x) (hR : ∀ s s', R s s' → R' s s') : Within R' x :=
  fun s => wp_mono (h s) (fun _ s' => hR s s') fun _ s' => hR s s'

section

variable {R : σ → σ → Prop} [IsPreorder σ R]

protected theorem Within.pure : Within R (pure a : EStateM ε σ α) :=
  fun s => wp_pure.2 (refl_of R s)

protected theorem Within.throw : Within R (throw e : EStateM ε σ α) :=
  fun s => wp_throw.2 (refl_of R s)

protected theorem Within.get : Within R (get : EStateM ε σ σ) := fun s => wp_get.2 (refl_of R s)

omit [IsPreorder σ R] in
protected theorem Within.modify {f : σ → σ} (h : ∀ s, R s (f s)) :
    Within R (modify f : EStateM ε σ PUnit) := fun s => wp_modify.2 (h s)

protected theorem Within.bind {g : α → EStateM ε σ β} (hx : Within R x) (hg : ∀ a, Within R (g a)) :
    Within R (x >>= g) := by
  intro s
  refine wp_bind.2 (wp_post (hx s) fun a s' h => ?_)
  exact wp_mono (hg a s') (fun _ _ h' => trans_of R h h') fun _ _ h' => trans_of R h h'

omit [IsPreorder σ R] in
protected theorem Within.ite [Decidable c] (hx : c → Within R x) (hy : ¬c → Within R y) :
    Within R (if c then x else y) := by
  split
  · exact hx ‹_›
  · exact hy ‹_›

/-- A loop keeps what its iterations keep. -/
protected theorem Within.forM (hg : ∀ i ∈ l, Within R (g i)) : Within R (l.forM g) := by
  induction l with
  | nil => exact .pure
  | cons i l ih =>
    rw [List.forall_mem_cons] at hg
    exact .bind hg.1 fun _ => ih hg.2

end

/-! ## Relations that returning runs keep -/

/-- Wherever the program is started, if it returns then the state at its end is in a relation
    to the one at its start. -/
def Returns (R : σ → σ → Prop) (x : EStateM ε σ α) : Prop :=
  ∀ s, wp x (fun _ => R s) (fun _ _ => True) s

theorem Within.returns (h : Within R x) : Returns R x :=
  fun s => wp_returns (h s) fun _ _ h => h

protected theorem Returns.throw :
    Returns R (throw e : EStateM ε σ α) := fun _ => wp_throw.2 trivial

protected theorem Returns.ite [Decidable c] (hx : c → Returns R x) (hy : ¬c → Returns R y) :
    Returns R (if c then x else y) := by
  split
  · exact hx ‹_›
  · exact hy ‹_›

section

variable {R : σ → σ → Prop} [IsPreorder σ R]

protected theorem Returns.pure : Returns R (pure a : EStateM ε σ α) :=
  Within.pure.returns

protected theorem Returns.get : Returns R (get : EStateM ε σ σ) := Within.get.returns

protected theorem Returns.bind {g : α → EStateM ε σ β} (hx : Returns R x)
    (hg : ∀ a, Returns R (g a)) : Returns R (x >>= g) := by
  intro s
  refine wp_bind.2 (wp_post (hx s) fun a s' h => ?_)
  exact wp_mono (hg a s') (fun _ _ h' => trans_of R h h') fun _ _ h' => h'

protected theorem Returns.forM (hg : ∀ i ∈ l, Returns R (g i)) : Returns R (l.forM g) := by
  induction l with
  | nil => exact .pure
  | cons i l ih =>
    rw [List.forall_mem_cons] at hg
    exact .bind hg.1 fun _ => ih hg.2

end

-- A fact about a concrete program is used by the rules, not by running the program.
attribute [irreducible] wp

end Trona
