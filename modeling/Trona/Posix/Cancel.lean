import Trona.Substrate.Sync.Condvar

/-!
# Cancellation of a thread that waits for a condition

`pthread_cancel` (`posix/pthread.rs`) sets `cancel_pending` of a thread, loads its
`blocked_futex_addr` and, if this is not 0, wakes one thread at this address. `Condvar::wait`
(`substrate/sync.rs`) publishes the address just before the futex wait, takes it back after it,
locks the mutex and only then looks at `cancel_pending`.

Here are any number of threads with one condition variable and any number of mutexes, which
wait, signal and cancel each other. A thread is not cancelled and left asleep if each call of
`pthread_cancel` finds it between the futex wait and the check, or wakes it
(`cancel_notLost`). Otherwise the call is lost: on a thread that has not published the address,
or has not yet fallen asleep, or is not the one that is woken, or comes to the wait later
(`cancel_lost`).
-/

namespace Trona

namespace Posix

open Sync (LockLoc LockCall CvFutex)

/-- `ESRCH`, as `pthread_cancel` returns it. -/
def esrch : ℤ := -3

/-- The places of a thread. A wait is with the mutex `i`; `v` is the counter that was loaded,
    and `u` is the thread that is cancelled. -/
inductive CancelPc (τ μ : Type)
  /-- Not in a call, with what the last one has returned. -/
  | idle (ret : Option ℤ)
  | exited
  /-- In a call of a mutex. -/
  | mutexCall (i : μ)
  /-- `Condvar::wait`: in the code that unlocks the mutex. -/
  | unlocking (i : μ) (v : ℕ)
  /-- `Condvar::wait`: at `set_blocked_futex`, and at the futex wait. -/
  | publish (i : μ) (v : ℕ)
  | ready (i : μ) (v : ℕ)
  | asleep (i : μ) (v : ℕ)
  /-- `Condvar::wait`: at `clear_blocked_futex`, in the code that locks the mutex, and at
      `check_cancellation`. -/
  | clear (i : μ)
  | relocking (i : μ)
  | check
  /-- `signal` or `broadcast`: at the futex wake. -/
  | signalled (all : Bool)
  /-- `pthread_cancel`: at the load of `state`, the store of `cancel_pending`, the load of
      `blocked_futex_addr`, the futex wake and the return of 0. -/
  | cancelState (u : τ)
  | cancelStore (u : τ)
  | cancelLoad (u : τ)
  | cancelWake (u : τ)
  | cancelReturn (u : τ)
  deriving DecidableEq

/-- The mutex whose code the thread is in. -/
def CancelPc.active {τ μ : Type} : CancelPc τ μ → Option μ
  | mutexCall i | unlocking i _ | relocking i => some i
  | _ => none

/-- The counter of the condition variable, the words of the mutexes, and of each thread: if the
    state of its descriptor is `TD_RUNNING`, `cancel_pending`, and if `blocked_futex_addr` is
    the address of the counter and not 0. The last one is history: `pthread_cancel` for the
    thread has returned 0. -/
structure CancelShared (τ μ : Type) where
  seq : ℕ
  mutex : μ → ℕ
  running : τ → Bool
  pending : τ → Bool
  blocked : τ → Bool
  answered : τ → Bool

structure CancelLoc (τ μ : Type) where
  pc : CancelPc τ μ
  lock : μ → LockLoc

inductive CancelChoice (τ μ : Type)
  | mutexCall (i : μ) (call : LockCall)
  | wait (i : μ)
  | signal (all : Bool)
  | cancel (u : τ)
  | op (b : Bool)

section

variable {τ μ : Type} [DecidableEq τ] [DecidableEq μ]

def CancelLoc.goto (l : CancelLoc τ μ) (pc : CancelPc τ μ) : CancelLoc τ μ := { l with pc }

def CancelLoc.setLock (l : CancelLoc τ μ) (i : μ) (k : LockLoc) : CancelLoc τ μ :=
  { l with lock := Function.update l.lock i k }

/-- A thread makes a step in the code of a mutex. -/
def CancelLoc.lockStep (l : CancelLoc τ μ) (i : μ) (b : Bool) (s : CancelShared τ μ) :
    Option (CancelShared τ μ × CancelLoc τ μ) :=
  (LockLoc.step b (s.mutex i) (l.lock i)).map fun p =>
    ({ s with mutex := Function.update s.mutex i p.1 }, l.setLock i p.2)

/-- The atomic operation at a place; `enabled` are the threads whose cancellation is enabled.
    The choice `b` is one of the code of a mutex; for a thread that exits, that it is a worker,
    which sets the state of its own descriptor. A thread that is asleep may go on at any
    time. -/
def cancelStep (enabled : τ → Bool) (t : τ) (b : Bool) (s : CancelShared τ μ) (l : CancelLoc τ μ) :
    Option (CancelShared τ μ × CancelLoc τ μ) :=
  match l.pc with
  | .mutexCall i =>
    if l.lock i = .held ∨ l.lock i = .outside then some (s, l.goto (.idle none))
    else l.lockStep i b s
  | .unlocking i v =>
    if l.lock i = .outside then some (s, l.goto (.publish i v)) else l.lockStep i b s
  | .publish i v =>
    some ({ s with blocked := Function.update s.blocked t true }, l.goto (.ready i v))
  | .ready i v => some (s, l.goto (if s.seq = v then .asleep i v else .clear i))
  | .asleep i _ => some (s, l.goto (.clear i))
  | .clear i => some ({ s with blocked := Function.update s.blocked t false },
      (l.goto (.relocking i)).setLock i .lockFast)
  | .relocking i => if l.lock i = .held then some (s, l.goto .check) else l.lockStep i b s
  | .check =>
    if s.pending t && enabled t then
      some ({ s with running := Function.update s.running t (s.running t && !b) }, l.goto .exited)
    else some (s, l.goto (.idle none))
  | .cancelState u => some (s, l.goto (if s.running u then .cancelStore u else .idle (some esrch)))
  | .cancelStore u =>
    some ({ s with pending := Function.update s.pending u true }, l.goto (.cancelLoad u))
  | .cancelLoad u => some (s, l.goto (if s.blocked u then .cancelWake u else .cancelReturn u))
  | .cancelReturn u =>
    some ({ s with answered := Function.update s.answered u true }, l.goto (.idle (some 0)))
  | .idle _ | .exited | .signalled _ | .cancelWake _ => none

/-- Where a thread goes on when it is woken. -/
def CancelLoc.roused (l : CancelLoc τ μ) : CancelLoc τ μ :=
  match l.pc with
  | .asleep i _ => l.goto (.clear i)
  | pc => (pc.active.map fun i => l.setLock i (l.lock i).roused).getD l

/-- Where a thread goes on after its wake-up call. -/
def CancelLoc.resumed (l : CancelLoc τ μ) : CancelLoc τ μ :=
  match l.pc with
  | .signalled _ => l.goto (.idle none)
  | .cancelWake u => l.goto (.cancelReturn u)
  | pc => (pc.active.map fun i => l.setLock i (l.lock i).resumed).getD l

/-- Threads that use one condition variable and cancel each other. -/
def cancelMachine (enabled : τ → Bool) :
    Machine τ (CancelShared τ μ) (CancelLoc τ μ) (CancelChoice τ μ) (CvFutex μ) where
  next t c s l :=
    match c, l.pc with
    | .mutexCall i call, .idle _ =>
      (LockLoc.start call (l.lock i)).map fun k => (s, (l.goto (.mutexCall i)).setLock i k)
    | .wait i, .idle _ =>
      (LockLoc.start .unlock (l.lock i)).map fun k => (s, (l.goto (.unlocking i s.seq)).setLock i k)
    | .signal all, .idle _ => some ({ s with seq := (s.seq + 1) % 2 ^ 32 }, l.goto (.signalled all))
    | .cancel u, .idle _ => some (s, l.goto (.cancelState u))
    | .op b, _ => cancelStep enabled t b s l
    | _, _ => none
  sleeping l :=
    match l.pc with
    | .asleep _ _ => some .seq
    | pc => pc.active.bind fun i => if (l.lock i).isAsleep then some (.mutex i) else none
  roused := CancelLoc.roused
  waking l :=
    match l.pc with
    | .signalled all => some (.seq, if all then .all else .one)
    | .cancelWake _ => some (.seq, .one)
    | pc => pc.active.bind fun i => if l.lock i = .wake then some (.mutex i, .one) else none
  resumed := CancelLoc.resumed

end

/-- At first the mutexes are free, and all threads run and are in no call. -/
def cancelInit (τ μ : Type) : Config τ (CancelShared τ μ) (CancelLoc τ μ) :=
  ⟨⟨0, fun _ => 0, fun _ => true, fun _ => false, fun _ => false, fun _ => false⟩,
    fun _ => ⟨.idle none, fun _ => .outside⟩⟩

namespace CancelPc

variable {τ μ : Type}

/-- The thread is in a wait and blocked there, or will be if the counter stays as it is. -/
def blocks (seq : ℕ) : CancelPc τ μ → Bool
  | asleep _ _ => true
  | unlocking _ v | publish _ v | ready _ v => v = seq
  | _ => false

/-- The thread has made the futex wait of a wait, and is going to look at `cancel_pending` or
    has done so and is gone. -/
def past : CancelPc τ μ → Bool
  | clear _ | relocking _ | check | exited => true
  | _ => false

/-- The thread may be about to wake the threads that wait: it has signalled, or is in
    `pthread_cancel` for the thread `u`. -/
def wakes [DecidableEq τ] (u : τ) : CancelPc τ μ → Bool
  | signalled _ => true
  | cancelState v | cancelStore v | cancelLoad v | cancelWake v => v = u
  | _ => false

/-- The thread has set `cancel_pending` of the thread `u` in the present call. -/
def sets [DecidableEq τ] (u : τ) : CancelPc τ μ → Bool
  | cancelLoad v | cancelWake v | cancelReturn v => v = u
  | _ => false

theorem not_blocks_of_past {pc : CancelPc τ μ} {seq : ℕ} (h : pc.past) : pc.blocks seq = false := by
  cases pc <;> first | rfl | cases h

end CancelPc

section

variable {τ μ : Type} [DecidableEq τ] (u : τ) (g : Config τ (CancelShared τ μ) (CancelLoc τ μ))

/-- `pthread_cancel` for the thread `u` has returned 0, but the thread waits, or will wait,
    and nobody is about to wake it. -/
def CancelLost : Prop :=
  g.shared.answered u ∧ g.shared.pending u ∧ (g.loc u).pc.blocks g.shared.seq ∧
    ∀ c, ¬(g.loc c).pc.wakes u

/-- A call of `pthread_cancel` for the thread `u` finds no address only when the thread has
    made its futex wait and not yet looked at `cancel_pending`; and when it makes a wake-up
    call, this is so or the thread is woken. -/
def CancelSeen : Act τ (CancelChoice τ μ) → Prop
  | .run c _ => (g.loc c).pc = .cancelLoad u → g.shared.blocked u = false → (g.loc u).pc.past
  | .wake c us => (g.loc c).pc = .cancelWake u → (g.loc u).pc.past ∨ u ∈ us

instance [Fintype τ] : Decidable (CancelLost u g) := inferInstanceAs (Decidable (_ ∧ _ ∧ _ ∧ _))

instance [DecidableEq μ] : (a : Act τ (CancelChoice τ μ)) → Decidable (CancelSeen u g a)
  | .run c _ => inferInstanceAs (Decidable
    ((g.loc c).pc = .cancelLoad u → g.shared.blocked u = false → (g.loc u).pc.past))
  | .wake c us => inferInstanceAs (Decidable
    ((g.loc c).pc = .cancelWake u → (g.loc u).pc.past ∨ u ∈ us))

end

/-! ## Steps -/

section

variable {τ μ : Type} [DecidableEq τ] [DecidableEq μ] {enabled : τ → Bool} {t u : τ}
  {s s' : CancelShared τ μ} {l l' : CancelLoc τ μ}

/-- What a step can do to the cancellation of the thread `u`. -/
structure CancelMove (enabled : τ → Bool) (t u : τ) (s : CancelShared τ μ) (l : CancelLoc τ μ)
    (s' : CancelShared τ μ) (l' : CancelLoc τ μ) : Prop where
  pending : s.pending u → s'.pending u
  sets : l'.pc.sets u → l.pc.sets u ∨ s'.pending u
  answered : s'.answered u → s.answered u ∨ l.pc = .cancelReturn u
  returns : l'.pc = .cancelReturn u → l.pc = .cancelLoad u ∧ s.blocked u = false
  past : t = u → enabled u → s.pending u → l.pc.past → l'.pc.past

omit [DecidableEq μ] in
/-- Steps that are not of `pthread_cancel`. -/
theorem CancelMove.other (hpending : s'.pending = s.pending) (hanswered : s'.answered = s.answered)
    (hsets : l'.pc.sets u = false) (hpast : enabled t → s.pending t → l.pc.past → l'.pc.past) :
    CancelMove enabled t u s l s' l' := by
  refine ⟨fun h => hpending ▸ h, fun h => ?_, fun h => .inl (hanswered ▸ h), fun h => ?_, ?_⟩
  · rw [hsets] at h
    cases h
  · rw [h] at hsets
    exact absurd rfl (of_decide_eq_false hsets)
  · rintro rfl
    exact hpast

theorem CancelMove.ofLockStep {i : μ} {b : Bool} (h : l.lockStep i b s = some (s', l'))
    (hsets : l.pc.sets u = false) : CancelMove enabled t u s l s' l' := by
  obtain ⟨p, -, rfl, rfl⟩ := mapped_inj h
  exact .other rfl rfl hsets fun _ _ hpast => hpast

theorem cancelStep_move {b : Bool} (h : cancelStep enabled t b s l = some (s', l')) :
    CancelMove enabled t u s l s' l' := by
  cases hpc : l.pc <;> simp only [cancelStep, hpc] at h
  case mutexCall | unlocking =>
    split at h
    · obtain ⟨rfl, rfl⟩ := step_inj h
      exact .other rfl rfl rfl (by simp [hpc, CancelPc.past])
    · exact .ofLockStep h (by rw [hpc]; rfl)
  case relocking i =>
    split at h
    · obtain ⟨rfl, rfl⟩ := step_inj h
      exact .other rfl rfl rfl fun _ _ _ => rfl
    · exact .ofLockStep h (by rw [hpc]; rfl)
  case publish =>
    obtain ⟨rfl, rfl⟩ := step_inj h
    exact .other rfl rfl rfl (by simp [hpc, CancelPc.past])
  case ready | cancelState =>
    obtain ⟨rfl, rfl⟩ := step_inj h
    refine .other rfl rfl ?_ (by simp [hpc, CancelPc.past])
    split <;> rfl
  case asleep | clear =>
    obtain ⟨rfl, rfl⟩ := step_inj h
    exact .other rfl rfl rfl fun _ _ _ => rfl
  case check =>
    split at h
    · obtain ⟨rfl, rfl⟩ := step_inj h
      exact .other rfl rfl rfl fun _ _ _ => rfl
    · obtain ⟨rfl, rfl⟩ := step_inj h
      refine .other rfl rfl rfl fun henabled hpending _ => ?_
      simp_all
  case cancelStore v =>
    obtain ⟨rfl, rfl⟩ := step_inj h
    refine ⟨fun hpending => ?_, fun hsets => .inr ?_, .inl, fun hret => ?_, ?_⟩
    · simp [Function.update_apply, hpending]
    · obtain rfl : v = u := of_decide_eq_true hsets
      exact Function.update_self ..
    · cases hret
    · simp [hpc, CancelPc.past]
  case cancelLoad v =>
    obtain ⟨rfl, rfl⟩ := step_inj h
    refine ⟨id, fun hsets => .inl ?_, .inl, fun hret => ?_, by simp [hpc, CancelPc.past]⟩
    · simp only [CancelLoc.goto] at hsets
      split at hsets <;> simpa [hpc, CancelPc.sets] using hsets
    · simp only [CancelLoc.goto] at hret
      split at hret
      · cases hret
      · obtain rfl := CancelPc.cancelReturn.inj hret
        exact ⟨hpc, Bool.eq_false_iff.2 ‹_›⟩
  case cancelReturn v =>
    obtain ⟨rfl, rfl⟩ := step_inj h
    refine ⟨id, fun hsets => ?_, fun hanswered => ?_, fun hret => ?_, by simp [hpc, CancelPc.past]⟩
    · cases hsets
    · by_cases huv : u = v
      · exact .inr (by rw [hpc, huv])
      · exact .inl (by simpa [Function.update_of_ne huv] using hanswered)
    · cases hret
  all_goals cases h

/-- Each step of a thread is one of these. -/
theorem cancelMachine_move {c : CancelChoice τ μ}
    (h : (cancelMachine enabled).next t c s l = some (s', l')) :
    CancelMove enabled t u s l s' l' := by
  have hidle : ∀ ret, l.pc = .idle ret → ¬l.pc.past := by
    intro ret hpc
    rw [hpc]
    exact Bool.false_ne_true
  simp only [cancelMachine] at h
  split at h
  iterate 2
    · rename_i ret hpc
      obtain ⟨k, -, rfl, rfl⟩ := mapped_inj h
      exact .other rfl rfl rfl fun _ _ hpast => absurd hpast (hidle ret hpc)
  iterate 2
    · rename_i ret hpc
      obtain ⟨rfl, rfl⟩ := step_inj h
      exact .other rfl rfl rfl fun _ _ hpast => absurd hpast (hidle ret hpc)
  · exact cancelStep_move h
  · cases h

/-- What a wake-up call can do to the cancellation of the thread `u`: a call of
    `pthread_cancel` goes on if `b`. -/
structure CancelStay (u : τ) (b : Bool) (l l' : CancelLoc τ μ) : Prop where
  past : l.pc.past → l'.pc.past
  sets : l'.pc.sets u → l.pc.sets u
  returns : l'.pc = .cancelReturn u → l.pc = .cancelReturn u ∨ b = true ∧ l.pc = .cancelWake u

omit [DecidableEq μ] in
theorem CancelStay.refl : CancelStay u false l l := ⟨id, id, .inl⟩

theorem CancelStay.setLock {b : Bool} {o : Option μ} {k : μ → LockLoc} :
    CancelStay u b l ((o.map fun i => l.setLock i (k i)).getD l) := by
  cases o <;> exact ⟨id, id, .inl⟩

theorem cancelStay_roused : CancelStay u false l l.roused := by
  rw [CancelLoc.roused]
  split
  · exact ⟨fun _ => rfl, (by cases ·), (by cases ·)⟩
  · exact .setLock

theorem cancelStay_resumed : CancelStay u true l l.resumed := by
  rw [CancelLoc.resumed]
  split
  · rename_i hpc
    exact ⟨by rw [hpc]; exact (by cases ·), (by cases ·), (by cases ·)⟩
  · rename_i v hpc
    refine ⟨by rw [hpc]; exact (by cases ·), by rw [hpc]; exact id, fun hret => .inr ⟨rfl, ?_⟩⟩
    rw [hpc, CancelPc.cancelReturn.inj hret]
  · exact .setLock

theorem cancelStay_wakeUp {g : Config τ (CancelShared τ μ) (CancelLoc τ μ)} {us : Finset τ}
    (c : τ) : CancelStay u (c = t) (g.loc c) (((cancelMachine enabled).wakeUp g t us).loc c) := by
  by_cases hct : c = t
  · rw [hct, Machine.wakeUp_loc_self, decide_eq_true rfl]
    exact cancelStay_resumed
  · rw [decide_eq_false hct]
    by_cases hc : c ∈ us
    · rw [Machine.wakeUp_loc_of_mem hct hc]
      exact cancelStay_roused
    · rw [Machine.wakeUp_loc_of_notMem hct hc]
      exact .refl

/-- A thread that waits is past its futex wait when it is woken. -/
theorem past_roused (h : (cancelMachine enabled).sleeping l = some CvFutex.seq) :
    l.roused.pc.past := by
  simp only [cancelMachine] at h
  split at h
  · rename_i hpc
    simp only [CancelLoc.roused, hpc]
    rfl
  · obtain ⟨i, -, hi⟩ := Option.bind_eq_some_iff.1 h
    cases (Option.ite_none_right_eq_some.1 hi).2

/-! ## Runs -/

/-- Once a call for the thread `u` is about to return 0, or has done so, `cancel_pending` is
    set and the thread is past its futex wait. -/
structure CancelInv (u : τ) (g : Config τ (CancelShared τ μ) (CancelLoc τ μ)) : Prop where
  pending : ∀ c, (g.loc c).pc.sets u → g.shared.pending u
  past : (g.shared.answered u ∨ ∃ c, (g.loc c).pc = .cancelReturn u) →
    g.shared.pending u ∧ (g.loc u).pc.past

variable {g : Config τ (CancelShared τ μ) (CancelLoc τ μ)}

namespace CancelInv

omit [DecidableEq μ] in
/-- The steps of threads keep the invariant, if no call finds that there is nothing to do
    while the thread may still wait. -/
theorem set (h : CancelInv u g) (henabled : enabled u)
    (hm : CancelMove enabled t u g.shared (g.loc t) s l)
    (hseen : (g.loc t).pc = .cancelLoad u → g.shared.blocked u = false → (g.loc u).pc.past) :
    CancelInv u (g.set t s l) := by
  refine ⟨fun c hc => ?_, fun hret => ?_⟩
  · by_cases hct : c = t
    · rw [hct, Config.set_loc_self] at hc
      exact (hm.sets hc).elim (fun hsets => hm.pending (h.pending t hsets)) id
    · rw [Config.set_loc_of_ne g hct] at hc
      exact hm.pending (h.pending c hc)
  · -- the thread is past its futex wait before the step
    have hbefore : g.shared.pending u ∧ (g.loc u).pc.past := by
      rcases hret with hanswered | ⟨c, hc⟩
      · exact h.past ((hm.answered hanswered).imp_right fun hpc => ⟨t, hpc⟩)
      · by_cases hct : c = t
        · rw [hct, Config.set_loc_self] at hc
          obtain ⟨hload, hblocked⟩ := hm.returns hc
          refine ⟨h.pending t ?_, hseen hload hblocked⟩
          rw [hload]
          exact decide_eq_true rfl
        · rw [Config.set_loc_of_ne g hct] at hc
          exact h.past (.inr ⟨c, hc⟩)
    refine ⟨hm.pending hbefore.1, ?_⟩
    rcases eq_or_ne u t with rfl | hut
    · rw [Config.set_loc_self]
      exact hm.past rfl henabled hbefore.1 hbefore.2
    · rw [Config.set_loc_of_ne g hut]
      exact hbefore.2

variable [Fintype τ] {us : Finset τ} {f : CvFutex μ} {n : Amount}

/-- Wake-up calls keep the invariant, if the one of `pthread_cancel` wakes the thread when it
    is asleep. -/
theorem wakeUp (h : CancelInv u g)
    (hwaking : (cancelMachine enabled).waking (g.loc t) = some (f, n))
    (hwakes : n.Wakes us ((cancelMachine enabled).sleepers g f))
    (hseen : (g.loc t).pc = .cancelWake u → (g.loc u).pc.past ∨ u ∈ us) :
    CancelInv u ((cancelMachine enabled).wakeUp g t us) := by
  have hstay := fun c => @cancelStay_wakeUp τ μ _ _ enabled t u g us c
  refine ⟨fun c hc => h.pending c ((hstay c).sets hc), fun hret => ?_⟩
  by_cases hwake : (g.loc t).pc = .cancelWake u ∧ u ∈ us
  · -- the call has found the thread asleep
    obtain ⟨hpc, hu⟩ := hwake
    have hf : f = .seq := by
      simp only [cancelMachine, hpc] at hwaking
      exact (step_inj hwaking).1.symm
    have hasleep := Machine.mem_sleepers.1 (hwakes.subset hu)
    have hut : u ≠ t := by
      rintro rfl
      simp [cancelMachine, hpc, CancelPc.active] at hasleep
    refine ⟨h.pending t ?_, ?_⟩
    · rw [hpc]
      exact decide_eq_true rfl
    · rw [Machine.wakeUp_loc_of_mem hut hu]
      exact past_roused (hf ▸ hasleep)
  · have hbefore : g.shared.pending u ∧ (g.loc u).pc.past := by
      rcases hret with hanswered | ⟨c, hc⟩
      · exact h.past (.inl hanswered)
      · rcases (hstay c).returns hc with hpc | ⟨hct, hpc⟩
        · exact h.past (.inr ⟨c, hpc⟩)
        · obtain rfl := of_decide_eq_true hct
          refine ⟨h.pending c ?_, (hseen hpc).resolve_right fun hu => hwake ⟨hpc, hu⟩⟩
          rw [hpc]
          exact decide_eq_true rfl
    exact ⟨hbefore.1, (hstay u).past hbefore.2⟩

end CancelInv

omit [DecidableEq μ] in
theorem CancelInv.not_lost (h : CancelInv u g) : ¬CancelLost u g := by
  rintro ⟨hanswered, -, hblocks, -⟩
  rw [CancelPc.not_blocks_of_past (h.past (.inl hanswered)).2] at hblocks
  cases hblocks

/-- In every run of any number of threads in which each call of `pthread_cancel` for a thread
    that may be cancelled finds it past its futex wait, or wakes it: the call is not lost. -/
theorem cancel_notLost [Fintype τ] (henabled : enabled u)
    (h : (cancelMachine enabled).Steps (CancelSeen u) (cancelInit τ μ) g) : ¬CancelLost u g := by
  refine CancelInv.not_lost (h.invariant (I := CancelInv u) ?_ ?_ ⟨?_, ?_⟩)
  · intro g t c s l hg hseen hnext
    exact hg.set henabled (cancelMachine_move hnext) hseen
  · intro g t us f n hg hseen hwaking hwakes
    exact hg.wakeUp hwaking hwakes hseen
  · intro c hc
    cases hc
  · rintro (hanswered | ⟨c, hc⟩)
    · cases hanswered
    · cases hc

end

/-- A thread makes a choice, and some steps after it. -/
def cancelActs (t : Trio) (c : CancelChoice Trio Unit) (ops : ℕ) :
    List (Act Trio (CancelChoice Trio Unit)) :=
  .run t c :: List.replicate ops (.run t (.op false))

/-- A thread locks the mutex and waits with it, up to some place. -/
def waits (t : Trio) (ops : ℕ) : List (Act Trio (CancelChoice Trio Unit)) :=
  cancelActs t (.mutexCall () .lock) 2 ++ cancelActs t (.wait ()) ops

/-- The thread is cancelled when it is asleep, and exits. -/
def cancelledAsleep : Config Trio (CancelShared Trio Unit) (CancelLoc Trio Unit) :=
  ((cancelMachine fun _ => true).replay (CancelSeen .a) (cancelInit Trio Unit)
    (List.flatten [waits .a 4, cancelActs .b (.cancel .a) 3, [.wake .b {.a}],
      cancelActs .b (.op false) 0, List.replicate 4 (.run .a (.op true))])).get (by decide)

theorem cancel_notLost_asleep :
    (cancelledAsleep.shared.answered .a ∧ (cancelledAsleep.loc .a).pc = .exited) ∧
      ¬CancelLost .a cancelledAsleep :=
  ⟨by decide, cancel_notLost rfl (Machine.steps_replay_get _)⟩

/-- A run without a condition on its steps. -/
def cancelRun (acts : List (Act Trio (CancelChoice Trio Unit))) :
    Option (Config Trio (CancelShared Trio Unit) (CancelLoc Trio Unit)) :=
  (cancelMachine fun _ => true).replay (fun _ _ => True) (cancelInit Trio Unit) acts

/-- A thread is cancelled, and then begins to wait. -/
def cancelledBefore : Config Trio (CancelShared Trio Unit) (CancelLoc Trio Unit) :=
  (cancelRun (cancelActs .b (.cancel .a) 4 ++ waits .a 4)).get (by decide)

/-- A thread has not yet published the address when it is cancelled. -/
def cancelledUnpublished : Config Trio (CancelShared Trio Unit) (CancelLoc Trio Unit) :=
  (cancelRun (List.flatten [waits .a 2, cancelActs .b (.cancel .a) 4,
    cancelActs .a (.op false) 1])).get (by decide)

/-- A thread has published the address but not yet fallen asleep when it is to be woken. -/
def cancelledAwake : Config Trio (CancelShared Trio Unit) (CancelLoc Trio Unit) :=
  (cancelRun (List.flatten [waits .a 3, cancelActs .b (.cancel .a) 3, [.wake .b ∅],
    cancelActs .b (.op false) 0, cancelActs .a (.op false) 0])).get (by decide)

/-- Two threads are asleep, and the one that is not cancelled is woken. -/
def cancelledOther : Config Trio (CancelShared Trio Unit) (CancelLoc Trio Unit) :=
  (cancelRun (List.flatten [waits .a 4, waits .c 4, cancelActs .b (.cancel .a) 3,
    [.wake .b {.c}], cancelActs .b (.op false) 0])).get (by decide)

/-- Each of these calls is lost: the thread is asleep. -/
theorem cancel_lost :
    ((cancelMachine fun _ => true).Steps (fun _ _ => True) (cancelInit Trio Unit) cancelledBefore ∧
      CancelLost .a cancelledBefore ∧ (cancelledBefore.loc .a).pc = .asleep () 0) ∧
    ((cancelMachine fun _ => true).Steps (fun _ _ => True) (cancelInit Trio Unit)
        cancelledUnpublished ∧
      CancelLost .a cancelledUnpublished ∧ (cancelledUnpublished.loc .a).pc = .asleep () 0) ∧
    ((cancelMachine fun _ => true).Steps (fun _ _ => True) (cancelInit Trio Unit) cancelledAwake ∧
      CancelLost .a cancelledAwake ∧ (cancelledAwake.loc .a).pc = .asleep () 0) ∧
    (cancelMachine fun _ => true).Steps (fun _ _ => True) (cancelInit Trio Unit) cancelledOther ∧
      CancelLost .a cancelledOther ∧ (cancelledOther.loc .a).pc = .asleep () 0 :=
  ⟨⟨Machine.steps_replay_get _, by decide⟩, ⟨Machine.steps_replay_get _, by decide⟩,
    ⟨Machine.steps_replay_get _, by decide⟩, Machine.steps_replay_get _, by decide⟩

end Posix

end Trona
