import Trona.Substrate.Sync.TypedMutex

/-!
# The condition variable

`Condvar` (`substrate/sync.rs`): a counter that is also the word of a futex. A thread that waits
loads the counter, unlocks its mutex, sleeps while the counter is what it has loaded, and locks
the mutex again. A signal increments the counter and wakes one thread, a broadcast wakes all.

Here are any number of threads with one condition variable and any number of mutexes of all
types. The word of the futex is the counter modulo `2 ^ 32`; the counter of the model goes on
counting. A thread waits with a mutex by the functions of `TypedMutex` that are for this,
`condvar_unlock` and `condvar_relock`, and the runs for each mutex are runs of its threads.

When a broadcast has woken the threads, or a signal finds nobody to wake, no thread that had
loaded the counter before the increment is asleep, and none falls asleep any more
(`condvar_noLostWakeup`). This does not mean that every signal has a thread of its own: of two
signals one may find that the only waiter was woken by the other (`condvar_signalAbsorbed`).
-/

namespace Trona

namespace Sync

/-- The places of a thread in the code of the condition variable. A wait is for the mutex `i`,
    maybe for a limited time; `v` is the counter that was loaded. -/
inductive CvPc (μ : Type)
  /-- Not in a call, with what the last one has returned. -/
  | idle (ret : Option ℕ)
  /-- In a call of a mutex. -/
  | call (i : μ)
  /-- In a wait: the counter is loaded. -/
  | loaded (i : μ) (timed : Bool) (v : ℕ)
  /-- In a wait: in the code that unlocks the mutex. -/
  | unlocking (i : μ) (timed : Bool) (v : ℕ)
  /-- In a wait: at the futex wait. -/
  | ready (i : μ) (timed : Bool) (v : ℕ)
  | asleep (i : μ) (timed : Bool) (v : ℕ)
  /-- In a wait: after the futex wait, which may have ended since the time was up. -/
  | woken (i : μ) (timedOut : Bool)
  /-- In a wait: in the code that locks the mutex. -/
  | relocking (i : μ) (timedOut : Bool)
  /-- At the end of a wait. -/
  | returned (i : μ) (ret : ℕ)
  /-- `signal` or `broadcast`: at the futex wake. -/
  | signalled (all : Bool) (v : ℕ)
  deriving DecidableEq

/-- The mutex whose code the thread is in. -/
def CvPc.active {μ : Type} : CvPc μ → Option μ
  | call i | unlocking i _ _ | relocking i _ => some i
  | _ => none

/-- The mutex that the thread is not done with: in its code, or waiting for the condition. -/
def CvPc.user {μ : Type} : CvPc μ → Option μ
  | call i | unlocking i _ _ | ready i _ _ | asleep i _ _ | woken i _ | relocking i _ => some i
  | _ => none

/-- The counter, and the words of the mutexes. -/
structure CvShared (μ : Type) where
  seq : ℕ
  mutex : μ → TypedShared

/-- A thread: where it is in the code of the condition variable and of each mutex. -/
structure CvLoc (μ : Type) where
  pc : CvPc μ
  mutex : μ → TypedLoc

inductive CvChoice (μ : Type)
  /-- A call of a mutex by its user. -/
  | mutexCall (i : μ) (call : TypedCall) (ne : call ≠ .condvarUnlock)
  | wait (i : μ) (timed : Bool)
  | signal (all : Bool)
  | op (b : Bool)

/-- The futex of the condition variable and those of the mutexes. -/
inductive CvFutex (μ : Type)
  | seq
  | mutex (i : μ)
  deriving DecidableEq

section

variable {τ μ : Type} [DecidableEq μ] (kind : μ → MutexKind) (tid : τ → ℕ)

/-- The thread is in another place, and the mutexes stay as they are. -/
def CvLoc.goto (l : CvLoc μ) (pc : CvPc μ) : CvLoc μ := { l with pc }

/-- A thread makes a step in the code of a mutex. -/
def mutexStep (t : τ) (i : μ) (c : TypedChoice) (pc : CvPc μ) (s : CvShared μ) (l : CvLoc μ) :
    Option (CvShared μ × CvLoc μ) :=
  ((typedMachine (kind i) tid).next t c (s.mutex i) (l.mutex i)).map fun p =>
    ({ s with mutex := Function.update s.mutex i p.1 },
      { pc := pc, mutex := Function.update l.mutex i p.2 })

/-- Who calls a function that waits has locked the mutex, if this is not checked. -/
def mayWait (l : CvLoc μ) (i : μ) : Bool := ((l.mutex i).start (kind i) .condvarUnlock).isSome

/-- The atomic operation at a place. The choice `b` is one of the code of a mutex; for a
    thread that is asleep for a limited time, that its time is up. A thread that is asleep may
    go on at any time. -/
def cvStep (t : τ) (b : Bool) (s : CvShared μ) (l : CvLoc μ) : Option (CvShared μ × CvLoc μ) :=
  match l.pc with
  | .call i =>
    match (l.mutex i).pc with
    | .rest ret => some (s, l.goto (.idle ret))
    | _ => mutexStep kind tid t i (.op b) (.call i) s l
  | .loaded i timed v => mutexStep kind tid t i (.call .condvarUnlock) (.unlocking i timed v) s l
  | .unlocking i timed v =>
    match (l.mutex i).pc with
    | .rest _ => some (s, l.goto (.idle (some tronaInvalidOperation)))
    | .waiting saved => some (s, l.goto
        (if saved = 0 then .idle (some tronaInvalidOperation) else .ready i timed v))
    | _ => mutexStep kind tid t i (.op b) (.unlocking i timed v) s l
  | .ready i timed v => some (s, l.goto
      (if s.seq % 2 ^ 32 = v % 2 ^ 32 then .asleep i timed v else .woken i false))
  | .asleep i timed _ => some (s, l.goto (.woken i (timed && b)))
  | .woken i timedOut => mutexStep kind tid t i .relock (.relocking i timedOut) s l
  | .relocking i timedOut =>
    match (l.mutex i).pc with
    | .rest _ => some (s, l.goto (.returned i (if timedOut then tronaTimedOut else tronaOk)))
    | _ => mutexStep kind tid t i (.op b) (.relocking i timedOut) s l
  | .returned _ ret => some (s, l.goto (.idle (some ret)))
  | .idle _ | .signalled _ _ => none

/-- The thread has got a wake-up call at the futex of a mutex, or has made one. -/
def CvLoc.setLock (l : CvLoc μ) (i : μ) (f : LockLoc → LockLoc) : CvLoc μ :=
  { l with mutex := Function.update l.mutex i { l.mutex i with lock := f (l.mutex i).lock } }

/-- Threads that use one condition variable, with some mutexes. -/
def cvMachine : Machine τ (CvShared μ) (CvLoc μ) (CvChoice μ) (CvFutex μ) where
  next t c s l :=
    match c, l.pc with
    | .mutexCall i call _, .idle _ => mutexStep kind tid t i (.call call) (.call i) s l
    | .wait i timed, .idle _ =>
      if mayWait kind l i then some (s, l.goto (.loaded i timed s.seq)) else none
    | .signal all, .idle _ =>
      some ({ s with seq := s.seq + 1 }, l.goto (.signalled all (s.seq + 1)))
    | .op b, _ => cvStep kind tid t b s l
    | _, _ => none
  sleeping l :=
    match l.pc with
    | .asleep _ _ _ => some .seq
    | pc => pc.active.bind fun i => if (l.mutex i).lock.isAsleep then some (.mutex i) else none
  roused l :=
    match l.pc with
    | .asleep i _ _ => l.goto (.woken i false)
    | pc => (pc.active.map fun i => l.setLock i LockLoc.roused).getD l
  waking l :=
    match l.pc with
    | .signalled all _ => some (.seq, if all then .all else .one)
    | pc => pc.active.bind fun i => if (l.mutex i).lock = .wake then some (.mutex i, .one) else none
  resumed l :=
    match l.pc with
    | .signalled _ _ => l.goto (.idle none)
    | pc => (pc.active.map fun i => l.setLock i LockLoc.resumed).getD l

end

/-- At first the mutexes are free and no thread is in a call. -/
def cvInit (τ μ : Type) : Config τ (CvShared μ) (CvLoc μ) :=
  ⟨⟨0, fun _ => ⟨0, noOwner, 0⟩⟩, fun _ => ⟨.idle none, fun _ => ⟨.outside, .rest none, 0⟩⟩⟩

/-- At the futex wait the counter has been incremented fewer than `2 ^ 32` times since it was
    loaded, and a mutex that is locked again is not locked `2 ^ 32` times. -/
def CvPc.InBounds {μ : Type} (seq : ℕ) (mutex : μ → TypedLoc) : CvPc μ → Prop
  | .ready _ _ v => seq < v + 2 ^ 32
  | .call i | .unlocking i _ _ | .relocking i _ =>
    (mutex i).pc = .countIncr → (mutex i).depth + 1 < 2 ^ 32
  | _ => True

/-- There are fewer than `2 ^ 32` increments between the load of the counter and the futex wait,
    and no mutex is locked `2 ^ 32` times by its owner. -/
def CvBounds {τ μ : Type} (g : Config τ (CvShared μ) (CvLoc μ)) : Act τ (CvChoice μ) → Prop
  | .run t _ => (g.loc t).pc.InBounds g.shared.seq (g.loc t).mutex
  | .wake _ _ => True

instance {μ : Type} (seq : ℕ) (mutex : μ → TypedLoc) :
    (pc : CvPc μ) → Decidable (pc.InBounds seq mutex)
  | .ready _ _ v => inferInstanceAs (Decidable (seq < v + 2 ^ 32))
  | .call i | .unlocking i _ _ | .relocking i _ => inferInstanceAs
    (Decidable ((mutex i).pc = .countIncr → (mutex i).depth + 1 < 2 ^ 32))
  | .idle _ | .loaded _ _ _ | .asleep _ _ _ | .woken _ _ | .returned _ _ | .signalled _ _ =>
    inferInstanceAs (Decidable True)

instance {τ μ : Type} (g : Config τ (CvShared μ) (CvLoc μ)) :
    (a : Act τ (CvChoice μ)) → Decidable (CvBounds g a)
  | .run t _ => inferInstanceAs (Decidable ((g.loc t).pc.InBounds g.shared.seq (g.loc t).mutex))
  | .wake _ _ => inferInstanceAs (Decidable True)

/-! ## Steps -/

/-- A thread there is not in the code of the mutex. -/
def TypedPc.isQuiet : TypedPc → Bool
  | rest _ | waiting _ => true
  | _ => false

/-- A thread there is in `condvar_relock`. -/
def TypedPc.isRelocking : TypedPc → Bool
  | acquire (.relock _) | countStore (.relock _) => true
  | _ => false

section

variable {μ : Type}

/-- What is known at a place: what was loaded is not more than the counter, and between
    unlocking and locking a mutex the thread counts as having locked it. -/
def CvPc.Ok (seq : ℕ) (mutex : μ → TypedLoc) : CvPc μ → Prop
  | .loaded _ _ v | .unlocking _ _ v | .signalled _ v => v ≤ seq
  | .ready i _ v | .asleep i _ v => v ≤ seq ∧ ∃ saved, (mutex i).pc = .waiting saved
  | .woken i _ => ∃ saved, (mutex i).pc = .waiting saved
  | .relocking i _ => 0 < (mutex i).depth ∧
      ((mutex i).pc.isRelocking ∨ ∃ ret, (mutex i).pc = .rest ret)
  | .returned i _ => 0 < (mutex i).depth ∧ ∃ ret, (mutex i).pc = .rest ret
  | .idle _ | .call _ => True

/-- What is known of a thread: it is done with all mutexes but one at most. -/
structure CvLoc.Placed (seq : ℕ) (l : CvLoc μ) : Prop where
  rest : ∀ i, l.pc.user ≠ some i → ∃ ret, (l.mutex i).pc = .rest ret
  ok : l.pc.Ok seq l.mutex

variable {seq seq' : ℕ} {pc : CvPc μ} {i : μ}

theorem CvPc.user_of_active (h : pc.active = some i) : pc.user = some i := by
  cases pc <;> first | exact h | cases h

/-- A thread is in the code of one mutex at most. -/
theorem CvLoc.Placed.quiet {l : CvLoc μ} (h : l.Placed seq) (hi : l.pc.active ≠ some i) :
    (l.mutex i).pc.isQuiet := by
  have hquiet : (∃ ret, (l.mutex i).pc = .rest ret) ∨ (∃ saved, (l.mutex i).pc = .waiting saved) →
      (l.mutex i).pc.isQuiet := by
    rintro (⟨_, heq⟩ | ⟨_, heq⟩) <;> rw [heq] <;> rfl
  apply hquiet
  by_cases huser : l.pc.user = some i
  · have hok := h.ok
    cases hpc : l.pc <;> rw [hpc] at hok huser hi
    case call | unlocking | relocking => exact absurd huser hi
    case ready | asleep =>
      obtain rfl := Option.some.inj huser
      exact .inr hok.2
    case woken =>
      obtain rfl := Option.some.inj huser
      exact .inr hok
    all_goals cases huser
  · exact .inl (h.rest i huser)

theorem CvLoc.Placed.mono {l : CvLoc μ} (h : l.Placed seq) (hle : seq ≤ seq') : l.Placed seq' := by
  obtain ⟨hrest, hok⟩ := h
  refine ⟨hrest, ?_⟩
  cases hpc : l.pc <;> rw [hpc] at hok
  case loaded | unlocking | signalled => exact le_trans hok hle
  case ready | asleep => exact ⟨hok.1.trans hle, hok.2⟩
  all_goals exact hok

variable {τ : Type} [DecidableEq μ] (kind : μ → MutexKind) (tid : τ → ℕ)

/-- What a step can do: it is a step in the code of one mutex, or does not touch the mutexes; and
    a thread falls asleep when the counter is what it has loaded. -/
structure CvMove (t : τ) (s : CvShared μ) (l : CvLoc μ) (s' : CvShared μ) (l' : CvLoc μ) :
    Prop where
  mutex : (s'.mutex = s.mutex ∧ l'.mutex = l.mutex) ∨
    ∃ i c w m, (typedMachine (kind i) tid).next t c (s.mutex i) (l.mutex i) = some (w, m) ∧
      s'.mutex = Function.update s.mutex i w ∧ l'.mutex = Function.update l.mutex i m ∧
      ((∃ b, c = .op b) → l.pc.active = some i)
  seq_le : s.seq ≤ s'.seq
  placed : l'.Placed s'.seq
  sleeps : ∀ i timed v, l'.pc = .asleep i timed v →
    l.pc = .ready i timed v ∧ s.seq % 2 ^ 32 = v % 2 ^ 32

variable {kind tid} {t : τ} {s s' : CvShared μ} {l l' : CvLoc μ} {b : Bool}

/-- A step that does not touch the mutexes. -/
theorem CvMove.local (hplaced : (l.goto pc).Placed s'.seq) (hmutex : s'.mutex = s.mutex)
    (hle : s.seq ≤ s'.seq) (hsleeps : ∀ i timed v, pc = .asleep i timed v →
      l.pc = .ready i timed v ∧ s.seq % 2 ^ 32 = v % 2 ^ 32) :
    CvMove kind tid t s l s' (l.goto pc) :=
  ⟨.inl ⟨hmutex, rfl⟩, hle, hplaced, hsleeps⟩

/-- A step in the code of a mutex. -/
theorem CvMove.ofMutexStep {c : TypedChoice} (hplaced : l.Placed s.seq)
    (h : mutexStep kind tid t i c pc s l = some (s', l')) (hactive : pc.active = some i)
    (hbefore : ∀ j, l.pc.user = some j → j = i)
    (hop : (∃ b, c = .op b) → l.pc.active = some i)
    (hok : ∀ w m, (typedMachine (kind i) tid).next t c (s.mutex i) (l.mutex i) = some (w, m) →
      pc.Ok s.seq (Function.update l.mutex i m)) : CvMove kind tid t s l s' l' := by
  obtain ⟨⟨w, m⟩, hnext, rfl, rfl⟩ := mapped_inj h
  refine ⟨.inr ⟨i, c, w, m, hnext, rfl, rfl, hop⟩, le_rfl, ⟨fun j hj => ?_, hok w m hnext⟩, ?_⟩
  · have hji : j ≠ i := by
      rintro rfl
      exact hj (CvPc.user_of_active hactive)
    change ∃ ret, (Function.update l.mutex i m j).pc = .rest ret
    rw [Function.update_of_ne hji]
    exact hplaced.rest j fun hu => hji (hbefore j hu)
  · intro j timed v hpc
    change pc = _ at hpc
    rw [hpc] at hactive
    cases hactive

/-- A thread goes to another place with the same mutex, or is done with it. -/
theorem CvLoc.Placed.goto (h : l.Placed seq)
    (huser : ∀ i, l.pc.user = some i → pc.user = some i ∨ ∃ ret, (l.mutex i).pc = .rest ret)
    (hok : pc.Ok seq' l.mutex) : (l.goto pc).Placed seq' := by
  refine ⟨fun i hi => ?_, hok⟩
  by_cases hbefore : l.pc.user = some i
  · exact (huser i hbefore).resolve_left hi
  · exact h.rest i hbefore

/-- A thread is done with a mutex. -/
theorem CvLoc.Placed.done {ret : Option ℕ} (h : l.Placed seq) (huser : l.pc.user = some i)
    (hrest : (l.mutex i).pc = .rest ret) (hok : pc.Ok seq' l.mutex) : (l.goto pc).Placed seq' := by
  refine h.goto (fun j hj => .inr ?_) hok
  obtain rfl := Option.some.inj (huser.symm.trans hj)
  exact ⟨ret, hrest⟩

/-- A step in `condvar_relock` stays in it or is the end of it. -/
theorem TypedLoc.relock_step {k : MutexKind} {n : ℕ} {w w' : TypedShared} {l l' : TypedLoc}
    (hpc : l.pc.isRelocking) (h : l.step k n b w = some (w', l')) :
    l'.pc.isRelocking ∨ ∃ ret, l'.pc = .rest ret := by
  cases hl : l.pc <;> rw [hl] at hpc
  case countStore a =>
    cases a with
    | relock saved =>
      simp only [step, hl] at h
      obtain ⟨-, rfl⟩ := step_inj h
      exact .inr ⟨none, rfl⟩
    | _ => cases hpc
  case acquire a =>
    cases a with
    | relock saved =>
      simp only [step, hl] at h
      split at h
      · split at h
        · obtain ⟨-, rfl⟩ := step_inj h
          split
          · exact .inl rfl
          · exact .inr ⟨none, rfl⟩
        · obtain ⟨-, rfl⟩ := step_inj h
          exact .inr ⟨none, rfl⟩
      · obtain ⟨-, rfl⟩ := step_inj h
        exact .inr ⟨_, rfl⟩
      · obtain ⟨p, -, -, rfl⟩ := mapped_inj h
        exact .inl rfl
    | _ => cases hpc
  all_goals cases hpc

theorem TypedPc.inCondvar_of_relocking {pc : TypedPc} (h : pc.isRelocking) : pc.inCondvar := by
  unfold isRelocking at h
  split at h <;> first | rfl | cases h

variable (hplaced : l.Placed s.seq) (htyped : ∀ i, (l.mutex i).Ok (kind i))

include hplaced htyped

/-- The steps of a thread are moves. -/
theorem cvStep_move (h : cvStep kind tid t b s l = some (s', l')) :
    CvMove kind tid t s l s' l' := by
  have hok := hplaced.ok
  -- a thread that is not done with one mutex is done with the others
  have hone {i : μ} (hi : l.pc.user = some i) (j : μ) (hj : l.pc.user = some j) : j = i :=
    Option.some.inj (hj.symm.trans hi)
  cases hpc : l.pc <;> rw [hpc] at hok <;> simp only [cvStep, hpc] at h
  case call i =>
    have hactive : l.pc.active = some i := by rw [hpc]; rfl
    have huser := CvPc.user_of_active hactive
    split at h
    · obtain ⟨rfl, rfl⟩ := step_inj h
      exact .local (hplaced.done huser ‹_› True.intro) rfl le_rfl (by simp)
    · exact .ofMutexStep hplaced h rfl (hone huser) (fun _ => hactive) fun _ _ _ => True.intro
  case loaded i timed v =>
    exact .ofMutexStep hplaced h rfl (by simp [hpc, CvPc.user]) (by simp) fun _ _ _ => hok
  case unlocking i timed v =>
    have hactive : l.pc.active = some i := by rw [hpc]; rfl
    have huser := CvPc.user_of_active hactive
    split at h
    · obtain ⟨rfl, rfl⟩ := step_inj h
      exact .local (hplaced.done huser ‹_› True.intro) rfl le_rfl (by simp)
    · obtain ⟨rfl, rfl⟩ := step_inj h
      rename_i saved hwaiting
      -- the saved count is not zero, so that this is not taken for an error
      have hlocks := (htyped i).2
      rw [hwaiting] at hlocks
      have hsaved : saved ≠ 0 := by
        have hdepth : 0 < (l.mutex i).depth := hlocks.2.2.1
        rw [hlocks.2.1]
        exact hdepth.ne'
      rw [if_neg hsaved]
      refine .local (hplaced.goto (fun j hj => .inl ?_) ⟨hok, _, hwaiting⟩) rfl le_rfl (by simp)
      exact huser.symm.trans hj
    · exact .ofMutexStep hplaced h rfl (hone huser) (fun _ => hactive) fun _ _ _ => hok
  case ready i timed v =>
    obtain ⟨rfl, rfl⟩ := step_inj h
    split
    · refine .local (hplaced.goto (by simp [hpc, CvPc.user]) hok) rfl le_rfl
        fun j timed' v' heq => ?_
      obtain ⟨rfl, rfl, rfl⟩ := CvPc.asleep.inj heq
      exact ⟨hpc, ‹_›⟩
    · exact .local (hplaced.goto (by simp [hpc, CvPc.user]) hok.2) rfl le_rfl (by simp)
  case asleep i timed v =>
    obtain ⟨rfl, rfl⟩ := step_inj h
    exact .local (hplaced.goto (by simp [hpc, CvPc.user]) hok.2) rfl le_rfl (by simp)
  case woken i timedOut =>
    obtain ⟨saved, hwaiting⟩ := hok
    have huser : l.pc.user = some i := by rw [hpc]; rfl
    refine .ofMutexStep hplaced h rfl (hone huser) (by simp) fun w m hnext => ?_
    -- the mutex counts as locked while the thread waits
    have hlocks := (htyped i).2
    rw [hwaiting] at hlocks
    simp only [typedMachine, hwaiting] at hnext
    obtain ⟨-, rfl⟩ := step_inj hnext
    rw [CvPc.Ok, Function.update_self]
    exact ⟨hlocks.2.2.1, .inl rfl⟩
  case relocking i timedOut =>
    have hactive : l.pc.active = some i := by rw [hpc]; rfl
    have huser := CvPc.user_of_active hactive
    split at h
    · obtain ⟨rfl, rfl⟩ := step_inj h
      exact .local (hplaced.done huser ‹_› ⟨hok.1, _, ‹_›⟩) rfl le_rfl (by simp)
    · have hrelocking : (l.mutex i).pc.isRelocking := by
        refine hok.2.resolve_right ?_
        rintro ⟨ret, hret⟩
        exact ‹∀ ret, (l.mutex i).pc = .rest ret → False› ret hret
      refine .ofMutexStep hplaced h rfl (hone huser) (fun _ => hactive) fun w m hnext => ?_
      rw [CvPc.Ok, Function.update_self]
      have hdepth := TypedLoc.step_depth (TypedPc.inCondvar_of_relocking hrelocking) hnext
      exact ⟨hdepth ▸ hok.1, TypedLoc.relock_step hrelocking hnext⟩
  case returned i ret =>
    obtain ⟨rfl, rfl⟩ := step_inj h
    exact .local (hplaced.goto (by simp [hpc, CvPc.user]) True.intro) rfl le_rfl (by simp)
  case idle | signalled => cases h

theorem cvNext_move {c : CvChoice μ} (h : (cvMachine kind tid).next t c s l = some (s', l')) :
    CvMove kind tid t s l s' l' := by
  simp only [cvMachine] at h
  split at h
  · have hpc : l.pc = .idle _ := ‹_›
    exact .ofMutexStep hplaced h rfl (by simp [hpc, CvPc.user]) (by simp)
      fun _ _ _ => True.intro
  · have hpc : l.pc = .idle _ := ‹_›
    obtain ⟨-, rfl, rfl⟩ := guarded_inj h
    exact .local (hplaced.goto (by simp [hpc, CvPc.user]) (le_refl s.seq)) rfl le_rfl (by simp)
  · have hpc : l.pc = .idle _ := ‹_›
    obtain ⟨rfl, rfl⟩ := step_inj h
    exact .local (hplaced.goto (by simp [hpc, CvPc.user]) (le_refl (s.seq + 1))) rfl (Nat.le_succ _)
      (by simp)
  · exact cvStep_move hplaced htyped h
  · cases h

end

/-! ## Runs -/

/-- The threads and one mutex. -/
def mutexConfig {τ μ : Type} (i : μ) (g : Config τ (CvShared μ) (CvLoc μ)) :
    Config τ TypedShared TypedLoc :=
  ⟨g.shared.mutex i, fun t => (g.loc t).mutex i⟩

/-- Each mutex is as it is in a run of its own, and the threads are where they should. -/
structure CvInv {τ μ : Type} (kind : μ → MutexKind) (tid : τ → ℕ)
    (g : Config τ (CvShared μ) (CvLoc μ)) : Prop where
  mutex : ∀ i, TypedInv (kind i) tid (mutexConfig i g)
  placed : ∀ t, (g.loc t).Placed g.shared.seq

section

variable {τ μ : Type} [DecidableEq μ] {kind : μ → MutexKind} {tid : τ → ℕ}
  {g : Config τ (CvShared μ) (CvLoc μ)} {t : τ} {s : CvShared μ} {l : CvLoc μ}

omit [DecidableEq μ] in
theorem CvInv.init : CvInv kind tid (cvInit τ μ) where
  mutex _ := TypedInv.init
  placed _ := ⟨fun _ _ => ⟨none, rfl⟩, True.intro⟩

variable {i : μ} {us : Finset τ} {v b : ℕ} {timed all : Bool} {c : CvChoice μ} {n : Amount}
  {g' g₁ : Config τ (CvShared μ) (CvLoc μ)}

theorem CvInv.move (h : CvInv kind tid g)
    (hnext : (cvMachine kind tid).next t c g.shared (g.loc t) = some (s, l)) :
    CvMove kind tid t g.shared (g.loc t) s l :=
  cvNext_move (h.placed t) (fun i => (h.mutex i).ok t) hnext

variable [DecidableEq τ]

omit [DecidableEq μ] in
theorem mutexConfig_set :
    mutexConfig i (g.set t s l) = (mutexConfig i g).set t (s.mutex i) (l.mutex i) := by
  refine congrArg (Config.mk (s.mutex i)) (funext fun u => ?_)
  rcases eq_or_ne u t with rfl | hut
  · rw [Config.set_loc_self, Function.update_self]
  · rw [Config.set_loc_of_ne g hut, Function.update_of_ne hut]
    rfl

omit [DecidableEq μ] in
theorem mutexConfig_set_same (hs : s.mutex i = g.shared.mutex i)
    (hl : l.mutex i = (g.loc t).mutex i) : mutexConfig i (g.set t s l) = mutexConfig i g := by
  rw [mutexConfig_set, hs, hl, Config.set]
  congr 1
  exact Function.update_eq_self t _

/-- Steps of the threads keep the invariant. -/
theorem CvInv.set (hinj : Function.Injective tid) (hne : ∀ t, tid t ≠ noOwner)
    (h : CvInv kind tid g) (hbounds : CvBounds g (.run t c))
    (hnext : (cvMachine kind tid).next t c g.shared (g.loc t) = some (s, l)) :
    CvInv kind tid (g.set t s l) := by
  have hmove := h.move hnext
  refine ⟨fun j => ?_, fun u => ?_⟩
  · rcases hmove.mutex with ⟨hs, hl⟩ | ⟨i, c', w, m, htyped, hs, hl, hop⟩
    · rw [mutexConfig_set_same (by rw [hs]) (by rw [hl])]
      exact h.mutex j
    rcases eq_or_ne j i with rfl | hji
    · rw [mutexConfig_set, hs, hl, Function.update_self, Function.update_self]
      refine (h.mutex j).set ((h.mutex j).next_move hinj hne ?_ htyped)
      cases c' with
      | op b =>
        have hactive := hop ⟨b, rfl⟩
        rw [CvBounds] at hbounds
        cases hpc : (g.loc t).pc <;> rw [hpc] at hactive hbounds <;> cases hactive <;> exact hbounds
      | _ => exact True.intro
    · rw [mutexConfig_set_same (by rw [hs, Function.update_of_ne hji])
        (by rw [hl, Function.update_of_ne hji])]
      exact h.mutex j
  · rcases eq_or_ne u t with rfl | hut
    · rw [Config.set_loc_self]
      exact hmove.placed
    · rw [Config.set_loc_of_ne g hut]
      exact (h.placed u).mono hmove.seq_le

/-! ### Wake-up calls -/

section

omit [DecidableEq τ]

theorem cvMachine_sleeping_seq :
    (cvMachine kind tid).sleeping l = some .seq ↔ ∃ i timed v, l.pc = .asleep i timed v := by
  rw [cvMachine]
  cases hpc : l.pc <;> simp [hpc, CvPc.active]

variable {i : μ} {f : LockLoc → LockLoc} {n : Amount} {v seq : ℕ}

theorem cvMachine_sleeping_mutex :
    (cvMachine kind tid).sleeping l = some (.mutex i) ↔
      l.pc.active = some i ∧ (l.mutex i).lock.isAsleep := by
  rw [cvMachine]
  cases hpc : l.pc <;> simp only [hpc, CvPc.active] <;> simp
  all_goals exact ⟨fun h => ⟨h.2, h.2 ▸ h.1⟩, fun h => ⟨h.1 ▸ h.2, h.1⟩⟩

theorem cvMachine_waking_seq (h : (cvMachine kind tid).waking l = some (.seq, n)) :
    ∃ all v, l.pc = .signalled all v ∧ n = if all then .all else .one := by
  rw [cvMachine] at h
  cases hpc : l.pc <;> simp_all [CvPc.active]

theorem cvMachine_waking_mutex (h : (cvMachine kind tid).waking l = some (.mutex i, n)) :
    l.pc.active = some i ∧ (l.mutex i).lock = .wake ∧ n = .one := by
  rw [cvMachine] at h
  cases hpc : l.pc <;> simp only [hpc, CvPc.active] at h ⊢ <;> simp at h
  all_goals obtain ⟨hw, rfl, rfl⟩ := h; exact ⟨rfl, hw, rfl⟩

theorem cvMachine_roused_seq (h : l.pc = .asleep i timed v) :
    (cvMachine kind tid).roused l = l.goto (.woken i false) := by
  rw [cvMachine]
  simp only [h]

theorem cvMachine_resumed_seq (h : l.pc = .signalled all v) :
    (cvMachine kind tid).resumed l = l.goto (.idle none) := by
  rw [cvMachine]
  simp only [h]

theorem cvMachine_roused_mutex (h : l.pc.active = some i) :
    (cvMachine kind tid).roused l = l.setLock i LockLoc.roused := by
  rw [cvMachine]
  cases hpc : l.pc <;> rw [hpc] at h <;> cases h <;> simp [hpc, CvPc.active]

theorem cvMachine_resumed_mutex (h : l.pc.active = some i) :
    (cvMachine kind tid).resumed l = l.setLock i LockLoc.resumed := by
  rw [cvMachine]
  cases hpc : l.pc <;> rw [hpc] at h <;> cases h <;> simp [hpc, CvPc.active]

omit [DecidableEq μ] in
/-- What is known at a place does not depend on the places in the code of the locks. -/
theorem CvPc.Ok.congr {pc : CvPc μ} {m m' : μ → TypedLoc} (h : pc.Ok seq m)
    (hpc : ∀ i, (m' i).pc = (m i).pc) (hdepth : ∀ i, (m' i).depth = (m i).depth) :
    pc.Ok seq m' := by
  cases pc <;> simp only [Ok, hpc, hdepth] at h ⊢ <;> exact h

theorem CvLoc.setLock_pc {j : μ} : ((l.setLock i f).mutex j).pc = (l.mutex j).pc := by
  rcases eq_or_ne j i with rfl | hji
  · simp [setLock]
  · simp [setLock, hji]

theorem CvLoc.setLock_depth {j : μ} : ((l.setLock i f).mutex j).depth = (l.mutex j).depth := by
  rcases eq_or_ne j i with rfl | hji
  · simp [setLock]
  · simp [setLock, hji]

theorem CvLoc.Placed.setLock (h : l.Placed seq) : (l.setLock i f).Placed seq :=
  ⟨fun j hj => by rw [setLock_pc]; exact h.rest j hj,
    h.ok.congr (fun _ => setLock_pc) fun _ => setLock_depth⟩

/-- A thread at rest is not in the code of the lock. -/
theorem TypedLoc.not_asleep_of_quiet {k : MutexKind} {m : TypedLoc} (hok : m.Ok k)
    (hquiet : m.pc.isQuiet) : ¬m.lock.isAsleep := by
  obtain ⟨-, hrest⟩ := hok
  intro hasleep
  cases hpc : m.pc <;> rw [hpc] at hquiet hrest
  case rest ret =>
    rcases hrest with ⟨hlock, -⟩ | ⟨hlock, -⟩ <;> rw [hlock] at hasleep <;> cases hasleep
  case waiting saved =>
    rw [hrest.1] at hasleep
    cases hasleep
  all_goals cases hquiet

end

variable [Fintype τ]

/-- A wake-up call of a signal or a broadcast: the mutexes are not touched, and the threads that
    are woken go on. -/
theorem CvInv.wakeUp_seq (h : CvInv kind tid g) (hpc : (g.loc t).pc = .signalled all v)
    (hsub : us ⊆ (cvMachine kind tid).sleepers g .seq) :
    CvInv kind tid ((cvMachine kind tid).wakeUp g t us) := by
  have hloc (u : τ) : ∃ pc, ((cvMachine kind tid).wakeUp g t us).loc u = (g.loc u).goto pc ∧
      ((g.loc u).goto pc).Placed g.shared.seq := by
    refine Machine.rel_wakeUp (r := fun (l : CvLoc μ) l' => l.Placed g.shared.seq →
      ∃ pc, l' = l.goto pc ∧ (l.goto pc).Placed g.shared.seq) (fun l hl => ⟨l.pc, rfl, hl⟩)
      (fun ht => ?_) (fun u hu hplaced => ?_) u (h.placed u)
    · exact ⟨.idle none, cvMachine_resumed_seq hpc, ht.goto (by simp [hpc, CvPc.user]) True.intro⟩
    · obtain ⟨i, timed, x, hasleep⟩ := cvMachine_sleeping_seq.1 (Machine.mem_sleepers.1 (hsub hu))
      have hok := hplaced.ok
      rw [hasleep] at hok
      exact ⟨.woken i false, cvMachine_roused_seq hasleep,
        hplaced.goto (by simp [hasleep, CvPc.user]) hok.2⟩
  refine ⟨fun i => ?_, fun u => ?_⟩
  · have hsame : mutexConfig i ((cvMachine kind tid).wakeUp g t us) = mutexConfig i g := by
      refine congrArg (Config.mk (g.shared.mutex i)) (funext fun u => ?_)
      obtain ⟨pc, heq, -⟩ := hloc u
      rw [heq]
      rfl
    rw [hsame]
    exact h.mutex i
  · obtain ⟨pc, heq, hplaced⟩ := hloc u
    rw [heq]
    exact hplaced

/-- A wake-up call at the futex of a mutex is one of the run of the mutex. -/
theorem CvInv.wakeUp_mutex (h : CvInv kind tid g)
    (hwaking : (cvMachine kind tid).waking (g.loc t) = some (.mutex i, n))
    (hwakes : n.Wakes us ((cvMachine kind tid).sleepers g (.mutex i))) :
    CvInv kind tid ((cvMachine kind tid).wakeUp g t us) := by
  obtain ⟨hactive, hwake, rfl⟩ := cvMachine_waking_mutex hwaking
  have hsleepers : (cvMachine kind tid).sleepers g (.mutex i) =
      (typedMachine (kind i) tid).sleepers (mutexConfig i g) () := by
    ext u
    rw [Machine.mem_sleepers, Machine.mem_sleepers, cvMachine_sleeping_mutex, typedMachine_sleeping]
    refine ⟨fun hu => hu.2, fun hu => ⟨by_contra fun hne => ?_, hu⟩⟩
    exact TypedLoc.not_asleep_of_quiet ((h.mutex i).ok u) ((h.placed u).quiet hne) hu
  have hus : ∀ u ∈ us, (g.loc u).pc.active = some i := fun u hu =>
    (cvMachine_sleeping_mutex.1 (Machine.mem_sleepers.1 (hwakes.subset hu))).1
  have hloc : ∀ u, ∃ f, ((cvMachine kind tid).wakeUp g t us).loc u = (g.loc u).setLock i f :=
    Machine.rel_wakeUp (r := fun (l : CvLoc μ) l' => ∃ f, l' = l.setLock i f)
      (fun l => ⟨id, by simp [CvLoc.setLock]⟩) ⟨_, cvMachine_resumed_mutex hactive⟩
      fun u hu => ⟨_, cvMachine_roused_mutex (hus u hu)⟩
  refine ⟨fun j => ?_, fun u => ?_⟩
  · rcases eq_or_ne j i with rfl | hji
    · have hproj : mutexConfig j ((cvMachine kind tid).wakeUp g t us) =
          (typedMachine (kind j) tid).wakeUp (mutexConfig j g) t us := by
        refine congrArg (Config.mk (g.shared.mutex j)) (funext fun u => ?_)
        simp only [Machine.wakeUp]
        split_ifs with hut hu
        · simp [cvMachine_resumed_mutex hactive, CvLoc.setLock, mutexConfig, typedMachine]
        · simp [cvMachine_roused_mutex (hus u hu), CvLoc.setLock, mutexConfig, typedMachine]
        · rfl
      rw [hproj]
      refine (h.mutex j).wakeUp (f := ()) (n := .one) ?_ (hsleepers ▸ hwakes)
      exact if_pos hwake
    · have hsame : mutexConfig j ((cvMachine kind tid).wakeUp g t us) = mutexConfig j g := by
        refine congrArg (Config.mk (g.shared.mutex j)) (funext fun u => ?_)
        obtain ⟨f, heq⟩ := hloc u
        rw [heq]
        exact Function.update_of_ne hji _ _
      rw [hsame]
      exact h.mutex j
  · obtain ⟨f, heq⟩ := hloc u
    rw [heq]
    exact (h.placed u).setLock

/-- Wake-up calls keep the invariant. -/
theorem CvInv.wakeUp {f : CvFutex μ} (h : CvInv kind tid g)
    (hwaking : (cvMachine kind tid).waking (g.loc t) = some (f, n))
    (hwakes : n.Wakes us ((cvMachine kind tid).sleepers g f)) :
    CvInv kind tid ((cvMachine kind tid).wakeUp g t us) := by
  cases f with
  | seq =>
    obtain ⟨all, v, hpc, -⟩ := cvMachine_waking_seq hwaking
    exact h.wakeUp_seq hpc hwakes.subset
  | mutex i => exact h.wakeUp_mutex hwaking hwakes

theorem cvInv_steps (hinj : Function.Injective tid) (hne : ∀ t, tid t ≠ noOwner)
    (h : (cvMachine kind tid).Steps CvBounds g g') (hg : CvInv kind tid g) : CvInv kind tid g' :=
  h.invariant (I := CvInv kind tid)
    (fun _ _ _ _ _ hinv hbounds hnext => hinv.set hinj hne hbounds hnext)
    (fun _ _ _ _ _ hinv _ hwaking hwakes => hinv.wakeUp hwaking hwakes) hg

/-! ## No lost wakeup -/

/-- The thread is blocked in a wait for which it had loaded the counter before it was `b`. -/
def CvLoc.BlockedBefore (b : ℕ) (l : CvLoc μ) : Prop :=
  ∃ i timed v, l.pc = .asleep i timed v ∧ v < b

omit [DecidableEq τ] [Fintype τ] in
/-- A thread falls asleep only when the counter still is what it has loaded. -/
theorem CvInv.sleeps (h : CvInv kind tid g) (hbounds : CvBounds g (.run t c))
    (hnext : (cvMachine kind tid).next t c g.shared (g.loc t) = some (s, l))
    (hpc : l.pc = .asleep i timed v) : v = g.shared.seq := by
  obtain ⟨hready, hword⟩ := (h.move hnext).sleeps i timed v hpc
  have hok := (h.placed t).ok
  rw [hready] at hok
  have hle : v ≤ g.shared.seq := hok.1
  simp only [CvBounds, hready, CvPc.InBounds] at hbounds
  omega

omit [DecidableEq τ] [Fintype τ] in
/-- A thread that is woken, or has made a wake-up call, is not asleep at the condition variable. -/
theorem cvMachine_roused_ne_asleep : ((cvMachine kind tid).roused l).pc ≠ .asleep i timed v := by
  rw [cvMachine]
  cases hpc : l.pc <;> simp [hpc, CvPc.active, CvLoc.goto, CvLoc.setLock]

omit [DecidableEq τ] [Fintype τ] in
theorem cvMachine_resumed_asleep (h : ((cvMachine kind tid).resumed l).pc = .asleep i timed v) :
    l.pc = .asleep i timed v := by
  rw [cvMachine] at h
  cases hpc : l.pc <;> simp_all [CvPc.active, CvLoc.goto, CvLoc.setLock]

omit [Fintype τ] in
/-- Who is asleep at the condition variable after a wake-up call was asleep there, and is not
    one of those woken. -/
theorem cvMachine_wakeUp_asleep {u : τ}
    (h : (((cvMachine kind tid).wakeUp g t us).loc u).pc = .asleep i timed v) :
    (g.loc u).pc = .asleep i timed v ∧ (u ∈ us → u = t) := by
  rcases eq_or_ne u t with rfl | hut
  · rw [Machine.wakeUp_loc_self] at h
    exact ⟨cvMachine_resumed_asleep h, fun _ => rfl⟩
  by_cases hu : u ∈ us
  · rw [Machine.wakeUp_loc_of_mem hut hu] at h
    exact absurd h cvMachine_roused_ne_asleep
  · rw [Machine.wakeUp_loc_of_notMem hut hu] at h
    exact ⟨h, fun hmem => absurd hmem hu⟩

/-- When the counter is `b` or more and no thread is blocked that had loaded it before, this
    stays so: who falls asleep has loaded what the counter is. -/
theorem not_blockedBefore_steps (hinj : Function.Injective tid) (hne : ∀ t, tid t ≠ noOwner)
    (h : (cvMachine kind tid).Steps CvBounds g g') (hg : CvInv kind tid g) (hseq : b ≤ g.shared.seq)
    (hblocked : ∀ u, ¬(g.loc u).BlockedBefore b) (u : τ) : ¬(g'.loc u).BlockedBefore b := by
  refine (h.invariant (I := fun g => CvInv kind tid g ∧ b ≤ g.shared.seq ∧
    ∀ u, ¬(g.loc u).BlockedBefore b) ?_ ?_ ⟨hg, hseq, hblocked⟩).2.2 u
  · rintro g t c s l ⟨hinv, hseq, hblocked⟩ hbounds hnext
    refine ⟨hinv.set hinj hne hbounds hnext, hseq.trans (hinv.move hnext).seq_le, fun u hu => ?_⟩
    rcases eq_or_ne u t with rfl | hut
    · rw [Config.set_loc_self] at hu
      obtain ⟨i, timed, v, hpc, hlt⟩ := hu
      have heq := hinv.sleeps hbounds hnext hpc
      omega
    · rw [Config.set_loc_of_ne g hut] at hu
      exact hblocked u hu
  · rintro g t us f n ⟨hinv, hseq, hblocked⟩ - hwaking hwakes
    refine ⟨hinv.wakeUp hwaking hwakes, hseq, ?_⟩
    rintro u ⟨i, timed, v, hpc, hlt⟩
    exact hblocked u ⟨i, timed, v, (cvMachine_wakeUp_asleep hpc).1, hlt⟩

/-- The wake-up call of a signal or a broadcast. -/
theorem exec_signalled (hpc : (g.loc t).pc = .signalled all b)
    (hexec : (cvMachine kind tid).exec g (.wake t us) = some g₁) :
    (if all then Amount.all else .one).Wakes us ((cvMachine kind tid).sleepers g .seq) ∧
      g₁ = (cvMachine kind tid).wakeUp g t us := by
  rcases Machine.exec_cases hexec with
    ⟨_, _, _, _, hact, -⟩ | ⟨_, _, f, n, hact, hwaking, hwakes, rfl⟩
  · cases hact
  · cases hact
    have heq : (cvMachine kind tid).waking (g.loc t) = some (.seq, if all then .all else .one) := by
      simp only [cvMachine, hpc]
    rw [heq] at hwaking
    obtain ⟨rfl, rfl⟩ := step_inj hwaking
    exact ⟨hwakes, rfl⟩

/-- A call that wakes all threads, or finds none, leaves none blocked that should not be. -/
theorem CvInv.not_blockedBefore {g₂ : Config τ (CvShared μ) (CvLoc μ)}
    (hinj : Function.Injective tid) (hne : ∀ t, tid t ≠ noOwner) (h : CvInv kind tid g)
    (hpc : (g.loc t).pc = .signalled all b)
    (hexec : (cvMachine kind tid).exec g (.wake t us) = some g₁) (hall : all = true ∨ us = ∅)
    (hsteps : (cvMachine kind tid).Steps CvBounds g₁ g₂) (u : τ) : ¬(g₂.loc u).BlockedBefore b := by
  obtain ⟨hwakes, rfl⟩ := exec_signalled hpc hexec
  have hok := (h.placed t).ok
  rw [hpc] at hok
  have hus : us = (cvMachine kind tid).sleepers g .seq := by
    rcases hall with rfl | rfl
    · exact hwakes
    · exact hwakes.asleep_eq_empty.symm
  refine not_blockedBefore_steps hinj hne hsteps (h.wakeUp_seq hpc hwakes.subset) hok ?_ u
  rintro u ⟨i, timed, v, hasleep, -⟩
  obtain ⟨hbefore, hmem⟩ := cvMachine_wakeUp_asleep hasleep
  have hut : u = t :=
    hmem (hus ▸ Machine.mem_sleepers.2 (cvMachine_sleeping_seq.2 ⟨i, timed, v, hbefore⟩))
  subst hut
  rw [hpc] at hbefore
  cases hbefore

/-- What a condition variable is for, in a state of a run. -/
structure NoLostWakeup (kind : μ → MutexKind) (tid : τ → ℕ) (g : Config τ (CvShared μ) (CvLoc μ)) :
    Prop where
  /-- When a broadcast returns, no thread is or becomes blocked that had loaded the counter
      before the increment. -/
  broadcast : ∀ t us b g₁ g₂, (g.loc t).pc = .signalled true b →
    (cvMachine kind tid).exec g (.wake t us) = some g₁ →
    (cvMachine kind tid).Steps CvBounds g₁ g₂ → ∀ u, ¬(g₂.loc u).BlockedBefore b
  /-- A signal releases a thread that is blocked, or the same is true as of a broadcast. -/
  signal : ∀ t us b g₁, (g.loc t).pc = .signalled false b →
    (cvMachine kind tid).exec g (.wake t us) = some g₁ →
    (∃ u i timed v, (g.loc u).pc = .asleep i timed v ∧ (g₁.loc u).pc = .woken i false) ∨
      ∀ g₂, (cvMachine kind tid).Steps CvBounds g₁ g₂ → ∀ u, ¬(g₂.loc u).BlockedBefore b
  /-- A wait that has released the mutex ends with the mutex. -/
  relocked : ∀ t i ret, (g.loc t).pc = .returned i ret →
    ((g.loc t).mutex i).lock.holds ∧ ∀ u, u ≠ t → ¬((g.loc u).mutex i).lock.holds
  /-- Who is not in a call has no mutex to lock again. -/
  done : ∀ t ret i saved, (g.loc t).pc = .idle ret → ((g.loc t).mutex i).pc ≠ .waiting saved

/-- In every run of any number of threads with a condition variable and any mutexes, in which
    there are fewer than `2 ^ 32` increments between a load of the counter and the futex wait and
    no mutex is locked `2 ^ 32` times by its owner, no wakeup is lost. -/
theorem condvar_noLostWakeup (hinj : Function.Injective tid) (hne : ∀ t, tid t ≠ noOwner)
    (h : (cvMachine kind tid).Steps CvBounds (cvInit τ μ) g) : NoLostWakeup kind tid g := by
  have hinv := cvInv_steps hinj hne h .init
  refine ⟨fun t us b g₁ g₂ hpc hexec hsteps => ?_, fun t us b g₁ hpc hexec => ?_,
    fun t i ret hpc => ?_, fun t ret i saved hpc => ?_⟩
  · exact hinv.not_blockedBefore hinj hne hpc hexec (.inl rfl) hsteps
  · rcases us.eq_empty_or_nonempty with hus | ⟨u, hu⟩
    · exact .inr fun g₂ hsteps => hinv.not_blockedBefore hinj hne hpc hexec (.inr hus) hsteps
    · obtain ⟨hwakes, rfl⟩ := exec_signalled hpc hexec
      obtain ⟨i, timed, v, hasleep⟩ :=
        cvMachine_sleeping_seq.1 (Machine.mem_sleepers.1 (hwakes.subset hu))
      have hut : u ≠ t := by
        rintro rfl
        rw [hpc] at hasleep
        cases hasleep
      refine .inl ⟨u, i, timed, v, hasleep, ?_⟩
      rw [Machine.wakeUp_loc_of_mem hut hu, cvMachine_roused_seq hasleep]
      rfl
  · have hok := (hinv.placed t).ok
    rw [hpc] at hok
    obtain ⟨hdepth, ret', hrest⟩ := hok
    have hlock := ((hinv.mutex i).ok t).2
    simp only [mutexConfig, hrest] at hlock
    have hholds : ((g.loc t).mutex i).lock.holds := by
      rcases hlock with ⟨hheld, -⟩ | ⟨-, hzero⟩
      · rw [hheld]
        rfl
      · omega
    exact ⟨hholds, fun u hut hu => hut ((hinv.mutex i).unique hu hholds)⟩
  · obtain ⟨ret', hrest⟩ := (hinv.placed t).rest i (by simp [hpc, CvPc.user])
    rw [hrest]
    exact nofun

end

/-- A thread locks a mutex, waits for the condition and is blocked, and another one has
    incremented the counter for a signal. -/
def blockedWaiter : Config Trio (CvShared Unit) (CvLoc Unit) :=
  ((cvMachine (fun _ => .plain) Trio.number).replay CvBounds (cvInit Trio Unit)
    (List.flatten [
      .run .a (.mutexCall () .lock (by decide)) :: List.replicate 3 (.run .a (.op false)),
      .run .a (.wait () false) :: List.replicate 5 (.run .a (.op false)),
      [.run .b (.signal false)]])).get (by decide)

theorem condvar_noLostWakeup_blockedWaiter :
    ((blockedWaiter.loc .a).pc = .asleep () false 0 ∧
        (blockedWaiter.loc .b).pc = .signalled false 1) ∧
      NoLostWakeup (fun _ => .plain) Trio.number blockedWaiter :=
  ⟨by decide, condvar_noLostWakeup (by decide) (by decide) (Machine.steps_replay_get _)⟩

/-- A third thread increments the counter as well. Then the first signal wakes the waiter. -/
def firstSignal : Config Trio (CvShared Unit) (CvLoc Unit) :=
  ((cvMachine (fun _ => .plain) Trio.number).replay CvBounds blockedWaiter
    [.run .c (.signal false), .wake .b {.a}]).get (by decide)

/-- At the increment of the second signal the only waiter is blocked. It is released by the
    first signal, so the second one releases nobody, and nobody has got by without blocking. -/
theorem condvar_signalAbsorbed :
    (cvMachine (fun _ => .plain) Trio.number).Steps CvBounds (cvInit Trio Unit)
        blockedWaiter ∧
      (cvMachine (fun _ => .plain) Trio.number).Steps CvBounds blockedWaiter
        firstSignal ∧
      ((blockedWaiter.loc .a).pc = .asleep () false 0 ∧ (blockedWaiter.loc .c).pc = .idle none) ∧
      ((firstSignal.loc .a).pc = .woken () false ∧ (firstSignal.loc .c).pc = .signalled false 2) ∧
      (cvMachine (fun _ => .plain) Trio.number).sleepers firstSignal .seq = ∅ :=
  ⟨Machine.steps_replay_get _, Machine.steps_replay_get _, by decide, by decide, by decide⟩

end Sync

end Trona
