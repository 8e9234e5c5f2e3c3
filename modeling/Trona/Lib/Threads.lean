import Mathlib.Algebra.BigOperators.Group.Finset.Basic
import Mathlib.Data.Finset.Card
import Mathlib.Data.Fintype.Basic
import Trona.Lib.Run

/-!
# Threads and futexes

Any number of threads run the same program, with a state that they share. A step of the
program is an atomic operation on the shared state, by a thread in some place of the program;
where the program or its surroundings are free, the step has a choice. The threads are
interleaved in every way.

A thread may be asleep on a futex. It then goes on when another thread wakes it: a wake-up
call for one thread wakes an arbitrary one of those that are asleep, if there is any, and a
call for all of them wakes all (`Amount.Wakes`). Other reasons for a sleeping thread to go
on, such as a timeout, are steps of its own.

What is kept by every step is kept by every run (`Steps.invariant`); a step is one of a
thread's program or a wake-up call (`Machine.exec_cases`).
-/

namespace Trona

/-- How many threads a wake-up call is for. -/
inductive Amount
  | one
  | all
  deriving DecidableEq

/-- The program of the threads: `τ` are the threads, `σ` the shared state, `ℓ` the places of
    a thread in the program, `χ` the choices of a step and `φ` the futexes. -/
structure Machine (τ σ ℓ χ φ : Type) where
  /-- An atomic step of a thread. -/
  next : τ → χ → σ → ℓ → Option (σ × ℓ)
  /-- The futex that a thread in this place is asleep on. -/
  sleeping : ℓ → Option φ
  /-- Where a thread goes on when it is woken. -/
  roused : ℓ → ℓ
  /-- The wake-up call that a thread in this place makes. -/
  waking : ℓ → Option (φ × Amount)
  /-- Where a thread goes on after its wake-up call. -/
  resumed : ℓ → ℓ

/-- The shared state, and the places of the threads. -/
structure Config (τ σ ℓ : Type) where
  shared : σ
  loc : τ → ℓ

/-- A step: of a thread's program, or a wake-up call and the threads that it wakes. -/
inductive Act (τ χ : Type)
  | run (t : τ) (c : χ)
  | wake (t : τ) (us : Finset τ)

section

variable {τ σ ℓ χ φ : Type} [DecidableEq τ]

/-- A thread has made a step. -/
def Config.set (g : Config τ σ ℓ) (t : τ) (s : σ) (l : ℓ) : Config τ σ ℓ :=
  ⟨s, Function.update g.loc t l⟩

section

variable (g : Config τ σ ℓ) {t u : τ} {s : σ} {l : ℓ}

@[simp] theorem Config.set_shared : (g.set t s l).shared = s := rfl

@[simp] theorem Config.set_loc_self : (g.set t s l).loc t = l := Function.update_self ..

theorem Config.set_loc_of_ne (h : u ≠ t) : (g.set t s l).loc u = g.loc u :=
  Function.update_of_ne h ..

theorem Config.set_loc : (g.set t s l).loc = Function.update g.loc t l := rfl

@[simp] theorem Config.set_set {s' : σ} {l' : ℓ} : (g.set t s l).set t s' l' = g.set t s' l' :=
  congrArg (Config.mk s') (Function.update_idem ..)

/-- What is known of each thread stays known after a step of one of them. -/
theorem Config.forall_set {P : ℓ → Prop} (h : ∀ u, P (g.loc u)) (hl : P l) (u : τ) :
    P ((g.set t s l).loc u) := by
  by_cases hut : u = t
  · rwa [hut, Config.set_loc_self]
  · rw [Config.set_loc_of_ne g hut]
    exact h u

/-- What is known of some thread is still known of one, if a step does not end it. -/
theorem Config.exists_set {P : ℓ → Prop} (h : ∃ u, P (g.loc u)) (hl : P (g.loc t) → P l) :
    ∃ u, P ((g.set t s l).loc u) := by
  obtain ⟨u, hu⟩ := h
  rcases eq_or_ne u t with rfl | hut
  · exact ⟨u, by rw [Config.set_loc_self]; exact hl hu⟩
  · exact ⟨u, by rwa [Config.set_loc_of_ne g hut]⟩

/-- A sum over the threads, after one of them has made a step. -/
theorem Config.sum_set [Fintype τ] (f : ℓ → ℕ) :
    ∑ u, f ((g.set t s l).loc u) + f (g.loc t) = ∑ u, f (g.loc u) + f l := by
  rw [← Finset.add_sum_erase _ _ (Finset.mem_univ t),
    ← Finset.add_sum_erase _ (fun u => f (g.loc u)) (Finset.mem_univ t), Config.set_loc_self]
  have hrest : ∑ u ∈ Finset.univ.erase t, f ((g.set t s l).loc u) =
      ∑ u ∈ Finset.univ.erase t, f (g.loc u) :=
    Finset.sum_congr rfl fun u hu => by rw [Config.set_loc_of_ne g (Finset.ne_of_mem_erase hu)]
  omega

end

/-- Of the threads that are asleep, these are woken by a call. -/
def Amount.Wakes : Amount → (us asleep : Finset τ) → Prop
  | .one, us, asleep => us ⊆ asleep ∧ us.card = min 1 asleep.card
  | .all, us, asleep => us = asleep

instance : (n : Amount) → (us asleep : Finset τ) → Decidable (n.Wakes us asleep)
  | .one, us, asleep => inferInstanceAs (Decidable (us ⊆ asleep ∧ us.card = min 1 asleep.card))
  | .all, us, asleep => inferInstanceAs (Decidable (us = asleep))

omit [DecidableEq τ] in
theorem Amount.Wakes.subset {n : Amount} {us asleep : Finset τ} (h : n.Wakes us asleep) :
    us ⊆ asleep := by
  cases n with
  | one => exact h.1
  | all => exact (show us = asleep from h).subset

omit [DecidableEq τ] in
/-- A call that wakes nobody finds nobody asleep. -/
theorem Amount.Wakes.asleep_eq_empty {n : Amount} {asleep : Finset τ} (h : n.Wakes ∅ asleep) :
    asleep = ∅ := by
  cases n with
  | one =>
    have hcard : 0 = min 1 asleep.card := h.2
    rw [← Finset.card_eq_zero]
    omega
  | all => exact h.symm

namespace Machine

variable (m : Machine τ σ ℓ χ φ)

/-- A thread has made a wake-up call, and some threads are woken. -/
def wakeUp (g : Config τ σ ℓ) (t : τ) (us : Finset τ) : Config τ σ ℓ :=
  ⟨g.shared, fun u =>
    if u = t then m.resumed (g.loc t) else if u ∈ us then m.roused (g.loc u) else g.loc u⟩

section

variable {m} {g : Config τ σ ℓ} {t u : τ} {us : Finset τ}

@[simp] theorem wakeUp_shared : (m.wakeUp g t us).shared = g.shared := rfl

@[simp] theorem wakeUp_loc_self : (m.wakeUp g t us).loc t = m.resumed (g.loc t) := if_pos rfl

theorem wakeUp_loc_of_mem (h : u ≠ t) (hu : u ∈ us) :
    (m.wakeUp g t us).loc u = m.roused (g.loc u) := (if_neg h).trans (if_pos hu)

theorem wakeUp_loc_of_notMem (h : u ≠ t) (hu : u ∉ us) : (m.wakeUp g t us).loc u = g.loc u :=
  (if_neg h).trans (if_neg hu)

/-- What a wake-up call does to each thread. -/
theorem rel_wakeUp {r : ℓ → ℓ → Prop} (hrefl : ∀ l, r l l)
    (hresumed : r (g.loc t) (m.resumed (g.loc t)))
    (hroused : ∀ u ∈ us, r (g.loc u) (m.roused (g.loc u))) (u : τ) :
    r (g.loc u) ((m.wakeUp g t us).loc u) := by
  by_cases hut : u = t
  · rwa [hut, wakeUp_loc_self]
  · by_cases hu : u ∈ us
    · rw [wakeUp_loc_of_mem hut hu]
      exact hroused u hu
    · rw [wakeUp_loc_of_notMem hut hu]
      exact hrefl (g.loc u)

/-- What is known of each thread stays known after a wake-up call. -/
theorem forall_wakeUp {P : ℓ → Prop} (h : ∀ u, P (g.loc u)) (hresumed : P (m.resumed (g.loc t)))
    (hroused : ∀ u ∈ us, P (g.loc u) → P (m.roused (g.loc u))) (u : τ) :
    P ((m.wakeUp g t us).loc u) :=
  rel_wakeUp (r := fun l l' => P l → P l') (fun _ hl => hl) (fun _ => hresumed) hroused u (h u)

/-- A wake-up call leaves a sum over the threads as it is, if it does so for each of them. -/
theorem sum_wakeUp [Fintype τ] (f : ℓ → ℕ) (hresumed : f (m.resumed (g.loc t)) = f (g.loc t))
    (hroused : ∀ u ∈ us, f (m.roused (g.loc u)) = f (g.loc u)) :
    ∑ u, f ((m.wakeUp g t us).loc u) = ∑ u, f (g.loc u) :=
  Finset.sum_congr rfl fun u _ =>
    rel_wakeUp (r := fun l l' => f l' = f l) (fun _ => rfl) hresumed hroused u

end

variable [Fintype τ] [DecidableEq φ]

/-- The threads that are asleep on a futex. -/
def sleepers (g : Config τ σ ℓ) (f : φ) : Finset τ := {u | m.sleeping (g.loc u) = some f}

/-- A step, if it is possible. -/
def exec (g : Config τ σ ℓ) : Act τ χ → Option (Config τ σ ℓ)
  | .run t c => (m.next t c g.shared (g.loc t)).map fun p => g.set t p.1 p.2
  | .wake t us =>
    match m.waking (g.loc t) with
    | some (f, n) => if n.Wakes us (m.sleepers g f) then some (m.wakeUp g t us) else none
    | none => none

/-- The steps that are possible and allowed by a condition, one after the other. -/
def Steps (C : Config τ σ ℓ → Act τ χ → Prop) : Config τ σ ℓ → Config τ σ ℓ → Prop :=
  Relation.ReflTransGen fun g g' => ∃ a, C g a ∧ m.exec g a = some g'

/-- The steps of a list, one after the other. -/
def replay (C : Config τ σ ℓ → Act τ χ → Prop) [∀ g a, Decidable (C g a)] :
    Config τ σ ℓ → List (Act τ χ) → Option (Config τ σ ℓ)
  | g, [] => some g
  | g, a :: as => if C g a then (m.exec g a).bind fun g' => replay C g' as else none

variable {m} {g g' : Config τ σ ℓ} {C : Config τ σ ℓ → Act τ χ → Prop} {f : φ} {t : τ}
  {as : List (Act τ χ)}

omit [DecidableEq τ] in
theorem mem_sleepers {u : τ} : u ∈ m.sleepers g f ↔ m.sleeping (g.loc u) = some f := by
  simp [sleepers]

/-- A step is one of a thread's program, or a wake-up call. -/
theorem exec_cases {a : Act τ χ} (h : m.exec g a = some g') :
    (∃ t c s l, a = .run t c ∧ m.next t c g.shared (g.loc t) = some (s, l) ∧ g' = g.set t s l) ∨
      ∃ t us f n, a = .wake t us ∧ m.waking (g.loc t) = some (f, n) ∧
        n.Wakes us (m.sleepers g f) ∧ g' = m.wakeUp g t us := by
  cases a with
  | run t c =>
    obtain ⟨p, hp, rfl⟩ := Option.map_eq_some_iff.1 h
    exact .inl ⟨t, c, p.1, p.2, rfl, hp, rfl⟩
  | wake t us =>
    rw [exec] at h
    split at h
    · rename_i f n hwaking
      obtain ⟨hwakes, hg⟩ := Option.ite_none_right_eq_some.1 h
      exact .inr ⟨t, us, f, n, rfl, hwaking, hwakes, (Option.some.inj hg).symm⟩
    · cases h

/-- What is kept by every step is kept by every run. -/
theorem Steps.invariant {I : Config τ σ ℓ → Prop}
    (hrun : ∀ g t c s l, I g → C g (.run t c) → m.next t c g.shared (g.loc t) = some (s, l) →
      I (g.set t s l))
    (hwake : ∀ g t us f n, I g → C g (.wake t us) → m.waking (g.loc t) = some (f, n) →
      n.Wakes us (m.sleepers g f) → I (m.wakeUp g t us))
    (h : m.Steps C g g') (hg : I g) : I g' := by
  induction h with
  | refl => exact hg
  | tail _ hstep ih =>
    obtain ⟨a, hC, hexec⟩ := hstep
    obtain ⟨t, c, s, l, rfl, hnext, rfl⟩ | ⟨t, us, f, n, rfl, hwaking, hwakes, rfl⟩ :=
      exec_cases hexec
    · exact hrun _ t c s l ih hC hnext
    · exact hwake _ t us f n ih hC hwaking hwakes

/-- A run goes on with a step of a thread. -/
theorem Steps.run {c : χ} {s : σ} {l : ℓ} (h : m.Steps C g g') (hC : C g' (.run t c))
    (hnext : m.next t c g'.shared (g'.loc t) = some (s, l)) : m.Steps C g (g'.set t s l) :=
  h.tail ⟨.run t c, hC, by rw [exec, hnext]; rfl⟩

theorem steps_of_replay [∀ g a, Decidable (C g a)] (h : m.replay C g as = some g') :
    m.Steps C g g' := by
  induction as generalizing g with
  | nil =>
    obtain rfl := Option.some.inj h
    exact .refl
  | cons a as ih =>
    rw [replay, Option.ite_none_right_eq_some] at h
    obtain ⟨hC, hbind⟩ := h
    obtain ⟨g₁, hexec, hrest⟩ := Option.bind_eq_some_iff.1 hbind
    exact .head ⟨a, hC, hexec⟩ (ih hrest)

theorem steps_replay_get [∀ g a, Decidable (C g a)] (h : (m.replay C g as).isSome) :
    m.Steps C g ((m.replay C g as).get h) :=
  steps_of_replay (Option.some_get h).symm

end Machine

end

/-- Three threads, for runs of a few steps. -/
inductive Trio
  | a
  | b
  | c
  deriving DecidableEq

instance : Fintype Trio := ⟨{.a, .b, .c}, fun t => by cases t <;> decide⟩

/-- Their numbers. -/
def Trio.number : Trio → ℕ
  | .a => 1
  | .b => 2
  | .c => 3

end Trona
