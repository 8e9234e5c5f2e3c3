import Trona.Substrate.ThreadPool

/-!
# The life of a thread

What `pthread_create`, `pthread_exit`, `pthread_join` and `pthread_detach` (`posix/pthread.rs`) do
with the entries of the pool (`ThreadPool.Entry`), as steps of any number of calls at a time:

* `pthread_create` looks at one entry after the other until it gets one that is unused; it fails
  later, or a thread is made, and then the handle is returned;
* a thread that exits tells the process manager and leaves its entry as it is;
* `pthread_join` waits for the process manager, and then puts the entry back;
* `pthread_detach` tells the process manager not to wait for a join.

That the process manager gives each new thread a number of its own is an assumption
(`State.NewTid`).

The entries that are not unused are those of the main thread, of the threads that run, of those
that have exited and can be joined, and of calls of `pthread_create`, as long as every thread is
joined: nothing puts back the entry of a thread that is detached when it exits, or exited when it
is detached, or whose join was interrupted (`entries_accounted_iff`). After 63 threads that were
detached there is none left (`entries_exhausted`).
-/

namespace Trona

namespace Posix

namespace ThreadLife

open ThreadPool

/-! ## The state -/

/-- What has become of a thread that the process manager has made. -/
inductive Life
  | running
  /-- It has exited, and can be joined. -/
  | exited
  /-- The process manager has answered a call of `pthread_join`, which is about to put back an
      entry. -/
  | joining (entry : ℕ)
  | joined
  /-- The process manager has removed it, and nobody joins it any more. -/
  | removed
  /-- It is there, but `pthread_create` has failed and unmapped its stack. -/
  | stray
  deriving DecidableEq

/-- A thread that runs, or has exited and is not yet joined. -/
def Life.counts : Life → Bool
  | .running | .exited | .joining _ | .stray => true
  | .joined | .removed => false

/-- A thread: the entry of its descriptor, and whether it is detached for the process manager. -/
structure Thread where
  entry : ℕ
  life : Life
  detached : Bool
  /-- `pthread_create` has returned. -/
  returned : Bool
  deriving DecidableEq

/-- A call of `pthread_create` that looks for an entry: those that it has not looked at, and the
    attribute. -/
structure Scan where
  order : List ℕ
  detached : Bool

/-- A call of `pthread_join` that waits for the process manager: the entry of the descriptor, and
    the number of the thread. -/
structure Join where
  entry : ℕ
  tid : ℕ

/-- A handle that `pthread_create` has returned, and its thread. -/
structure Issue where
  handle : ℕ
  thread : ℕ
  deriving DecidableEq

/-- The pool, `NEXT_FREE_HINT`, the calls that are in progress, and the threads, by the numbers that
    the process manager has given to them. -/
structure State where
  entry : ℕ → Entry
  hint : ℕ
  scans : List Scan
  /-- The entries of the calls of `pthread_create` that have no thread yet. -/
  creating : Finset ℕ
  thread : ℕ → Thread
  /-- The numbers that the process manager has given. -/
  made : Finset ℕ
  joins : List Join
  issued : List Issue
  /-- Entries that `alloc_thread_desc` has given to a worker, before their owner is set. -/
  spawning : Finset ℕ

/-! ## Handles -/

/-- `encode_handle`. -/
def encodeHandle (index generation : ℕ) : ℕ := index % 2 ^ 16 + generation % 2 ^ 16 * 2 ^ 16

/-- `PTHREAD_NULL`. -/
def pthreadNull : ℕ := 2 ^ 64 - 1

/-- `decode_handle`: the index and the generation. -/
def decodeHandle (handle : ℕ) : Option (ℕ × ℕ) :=
  if handle = pthreadNull ∨ handle % 2 ^ 16 ≥ maxThreads then none
  else some (handle % 2 ^ 16, handle / 2 ^ 16 % 2 ^ 16)

namespace State

variable (s : State)

/-- `validate_handle`. -/
def validateHandle (handle : ℕ) : Option ℕ := do
  let p ← decodeHandle handle
  if (s.entry p.1).generation % 2 ^ 16 ≠ p.2 then none
  else if (s.entry p.1).owner ≠ .personality then none
  else some p.1

/-- `pthread_self`, for the thread of an entry. -/
def pthreadSelf (caller : ℕ) : ℕ := encodeHandle caller (s.entry caller).generation

/-! ## Steps -/

def setEntry (i : ℕ) (e : Entry) : State := { s with entry := Function.update s.entry i e }

def setThread (n : ℕ) (t : Thread) : State := { s with thread := Function.update s.thread n t }

variable {s} in
/-- What holds of the new entry, and of the other ones, holds of all. -/
theorem forall_setEntry {i : ℕ} {e : Entry} {p : ℕ → Entry → Prop} (hi : p i e)
    (hold : ∀ j ≠ i, p j (s.entry j)) (j : ℕ) : p j ((s.setEntry i e).entry j) :=
  (Function.forall_update_iff s.entry p).2 ⟨hi, hold⟩ j

variable {s} in
theorem forall_setThread {n : ℕ} {t : Thread} {p : ℕ → Thread → Prop} (hn : p n t)
    (hold : ∀ m ≠ n, p m (s.thread m)) (m : ℕ) : p m ((s.setThread n t).thread m) :=
  (Function.forall_update_iff s.thread p).2 ⟨hn, hold⟩ m

theorem setEntry_self (i : ℕ) (e : Entry) : (s.setEntry i e).entry i = e :=
  Function.update_self i _ _

theorem setEntry_of_ne {i j : ℕ} (e : Entry) (h : j ≠ i) : (s.setEntry i e).entry j = s.entry j :=
  Function.update_of_ne h _ _

theorem setThread_self (n : ℕ) (t : Thread) : (s.setThread n t).thread n = t :=
  Function.update_self n _ _

theorem setThread_of_ne {m n : ℕ} (t : Thread) (h : m ≠ n) :
    (s.setThread n t).thread m = s.thread m :=
  Function.update_of_ne h _ _

def setLife (n : ℕ) (l : Life) : State := s.setThread n { s.thread n with life := l }

/-- `pthread_create` has got an entry, and sets it up. -/
def claim (i : ℕ) (detached : Bool) : State :=
  { s.setEntry i ((s.entry i).claim detached)
    with hint := hintAfter i, creating := insert i s.creating }

/-- `pthread_create` has failed. -/
def abandon (i : ℕ) : State :=
  { s.setEntry i (s.entry i).free with creating := s.creating.erase i }

/-- A number for a new thread. The process manager is assumed to give no number twice, also when
    its first thread is gone: a call of `pthread_join` may still wait for that thread. -/
def NewTid (tid : ℕ) : Prop := tid ≠ 0 ∧ tid ∉ s.made

instance (tid : ℕ) : Decidable (s.NewTid tid) := inferInstanceAs (Decidable (_ ∧ _))

/-- The process manager makes a thread. -/
def make (i tid : ℕ) (l : Life) : State :=
  { s.setThread tid ⟨i, l, (s.entry i).detached, false⟩ with made := insert tid s.made }

/-- `pthread_create` has the number of the new thread. -/
def publish (i tid : ℕ) : State :=
  { (s.make i tid .running).setEntry i { s.entry i with tid := tid }
    with creating := s.creating.erase i }

/-- `pthread_create` returns the handle. -/
def giveHandle (n : ℕ) : State :=
  { s.setThread n { s.thread n with returned := true }
    with issued := ⟨encodeHandle (s.thread n).entry (s.entry (s.thread n).entry).generation, n⟩ ::
      s.issued }

/-- The number by which `pthread_exit` names the thread of an entry. -/
def extTid (i : ℕ) : ℕ := if (s.entry i).data then (s.entry i).tid else 0

/-- The process manager is told that a thread exits. One that is detached is removed. -/
def hearExit (tid : ℕ) : State :=
  let t := s.thread tid
  if t.life = .running then s.setLife tid (if t.detached then .removed else .exited) else s

/-- `pthread_join` puts an entry back. -/
def recycle (i : ℕ) : State := s.setEntry i (s.entry i).recycle

/-- The process manager detaches a thread. One that has exited is removed. -/
def detachThread (n : ℕ) : State :=
  let t := s.thread n
  s.setThread n { t with
    detached := true, life := if t.life = .exited then .removed else t.life }

/-- The flag of `pthread_detach` is set. -/
def flagDetached (i : ℕ) : State := s.setEntry i { s.entry i with detached := true }

end State

/-- What becomes of a request: it is met and answered, it is met and the call is interrupted, or
    there is an error. -/
inductive Reply
  | ok
  | lost
  | error (e : ℤ)
  deriving DecidableEq

/-- What can happen. -/
inductive Input
  /-- `pthread_create` is called, and looks at an entry. -/
  | enter (detached : Bool)
  | look (scan : ℕ)
  /-- It fails when it has the entry. -/
  | fail (i : ℕ)
  /-- The process manager makes the thread with a number, and the call for it is interrupted. -/
  | lose (i tid : ℕ)
  /-- The process manager makes the thread and answers. -/
  | publish (i tid : ℕ)
  /-- `pthread_create` returns. -/
  | ret (n : ℕ)
  | exit (n : ℕ)
  /-- `pthread_join` is called, the process manager answers, and the entry is put back. -/
  | join (caller handle : ℕ)
  | joinReply (join : ℕ) (r : Reply)
  | joinFinish (n : ℕ)
  | detach (handle : ℕ) (r : Reply)

/-- What is returned. -/
inductive Event
  | create (r : ℤ)
  | join (r : ℤ)
  | detach (r : ℤ)
  deriving DecidableEq

namespace State

variable (s : State)

/-- One look at an entry. -/
def look (c : ℕ) : Option (State × List Event) := do
  let scan ← s.scans[c]?
  match scan.order with
  | [] => none
  | i :: rest =>
    if (s.entry i).state = .unused then
      some ({ s.claim i scan.detached with scans := s.scans.eraseIdx c }, [])
    else if rest = [] then some ({ s with scans := s.scans.eraseIdx c }, [.create (-11)])
    else some ({ s with scans := s.scans.set c { scan with order := rest } }, [])

/-- `pthread_join`, up to the call to the process manager. -/
def join (caller handle : ℕ) : State × List Event :=
  match s.validateHandle handle with
  | none => (s, [.join (-3)])
  | some i =>
    if s.pthreadSelf caller = handle then (s, [.join (-35)])
    else if (s.entry i).data = false then (s, [.join (-22)])
    else if (s.entry i).detached then (s, [.join (-22)])
    else if (s.entry i).tid = 0 then (s, [.join (-22)])
    else ({ s with joins := ⟨i, (s.entry i).tid⟩ :: s.joins }, [])

/-- The call to the process manager. It answers when the thread has exited. -/
def joinReply (k : ℕ) (r : Reply) : Option (State × List Event) := do
  let j ← s.joins[k]?
  let s' := { s with joins := s.joins.eraseIdx k }
  match r with
  | .error e => some (s', [.join e])
  | .ok =>
    if (s.thread j.tid).life = .exited then
      some (s'.setLife j.tid (.joining j.entry), [])
    else none
  | .lost =>
    if (s.thread j.tid).life = .exited then
      some (s'.setLife j.tid .removed, [.join tronaInterrupted])
    else none

/-- The end of `pthread_join`. -/
def joinFinish (n : ℕ) : Option (State × List Event) :=
  match (s.thread n).life with
  | .joining i => some ((s.setLife n .joined).recycle i, [.join 0])
  | _ => none

/-- `pthread_detach`. The process manager does it for a thread that is there. -/
def detach (handle : ℕ) (r : Reply) : Option (State × List Event) :=
  match s.validateHandle handle with
  | none => some (s, [.detach (-3)])
  | some i =>
    let n := (s.entry i).tid
    if (s.entry i).data = false then some (s, [.detach (-22)])
    else if (s.entry i).detached then some (s, [.detach (-22)])
    else if (s.entry i).tid = 0 then some (s, [.detach (-22)])
    else
      match r with
      | .error _ => some (s, [.detach (-22)])
      | .ok =>
        if (s.thread n).life = .running ∨ (s.thread n).life = .exited then
          some ((s.detachThread n).flagDetached i, [.detach 0])
        else none
      | .lost =>
        if (s.thread n).life = .running ∨ (s.thread n).life = .exited then
          some (s.detachThread n, [.detach (-22)])
        else none

/-- A step of the process. -/
def step : Input → Option (State × List Event)
  | .enter d => some ({ s with scans := ⟨searchOrder s.hint, d⟩ :: s.scans }, [])
  | .look c => s.look c
  | .fail i => if i ∈ s.creating then some (s.abandon i, [.create (-12)]) else none
  | .lose i tid =>
    if i ∈ s.creating ∧ s.NewTid tid then
      some ((s.make i tid .stray).abandon i, [.create (-12)])
    else none
  | .publish i tid =>
    if i ∈ s.creating ∧ s.NewTid tid then some (s.publish i tid, []) else none
  | .ret n =>
    if n ∈ s.made ∧ (s.thread n).returned = false ∧ (s.thread n).life ≠ .stray then
      some (s.giveHandle n, [.create 0])
    else none
  | .exit n =>
    if (s.thread n).life = .running then some (s.hearExit (s.extTid (s.thread n).entry), [])
    else none
  | .join caller h => some (s.join caller h)
  | .joinReply k r => s.joinReply k r
  | .joinFinish n => s.joinFinish n
  | .detach h r => s.detach h r

/-- At first there is the main thread. -/
def start : State where
  entry i := if i = 0 then { state := .running, owner := .personality, data := true } else {}
  hint := 1
  scans := []
  creating := ∅
  thread _ := ⟨0, .joined, false, true⟩
  made := ∅
  joins := []
  issued := []
  spawning := ∅

/-! ## Accounting -/

/-- An entry is that of the main thread, of a call of `pthread_create`, or of a thread that runs, or
    has exited and is not yet joined. -/
def Accounts (i : ℕ) : Prop :=
  i = 0 ∨ i ∈ s.creating ∨ ∃ n ∈ s.made, (s.thread n).entry = i ∧ (s.thread n).life.counts = true

instance (i : ℕ) : Decidable (s.Accounts i) := inferInstanceAs (Decidable (_ ∨ _ ∨ _))

/-- The entries that are not unused are exactly these. -/
def Accounted : Prop := ∀ i < maxThreads, (s.entry i).state ≠ .unused ↔ s.Accounts i

/-- All entries other than that of the main thread are in use. -/
def Full : Prop := ∀ i < maxThreads, 0 < i → (s.entry i).state ≠ .unused

instance : Decidable s.Full := inferInstanceAs (Decidable (∀ i < maxThreads, _))

/-- A step ends well: the entries are accounted for, and when `pthread_create` reports that there is
    no entry, then all others are those of threads and of calls of `pthread_create`. -/
def Fine (s' : State) (es : List Event) : Prop :=
  s'.Accounted ∧ (.create (-11) ∈ es → ∀ i < maxThreads, 0 < i → s'.Accounts i)

/-- `pthread_detach` asks the process manager. -/
def Asks (i : ℕ) : Prop :=
  (s.entry i).data = true ∧ (s.entry i).detached = false ∧ (s.entry i).tid ≠ 0

instance (i : ℕ) : Decidable (s.Asks i) := inferInstanceAs (Decidable (_ ∧ _ ∧ _))

/-- A thread that exits is not detached, one that is detached has not exited, no answer is lost to
    a request for a thread or a join, and no entry has become unused that was looked at when a
    call of `pthread_create` has found none. -/
def Settled : Input → Prop
  | .look c => ∀ scan ∈ s.scans[c]?, ∀ i ∈ scan.order, scan.order = [i] →
      (s.entry i).state ≠ .unused → s.Full
  | .lose _ _ => False
  | .exit n => (s.thread n).detached = false
  | .joinReply _ r => r ≠ .lost
  | .detach h r => r = .ok ∨ r = .lost → ∀ i ∈ s.validateHandle h, s.Asks i →
      (s.thread (s.entry i).tid).life ≠ .exited
  | .enter _ | .fail _ | .publish _ _ | .ret _ | .join _ _ | .joinFinish _ => True

instance : (i : Input) → Decidable (s.Settled i)
  | .look c => inferInstanceAs (Decidable (∀ scan ∈ s.scans[c]?, _))
  | .lose _ _ => inferInstanceAs (Decidable False)
  | .exit n => inferInstanceAs (Decidable ((s.thread n).detached = false))
  | .joinReply _ r => inferInstanceAs (Decidable (r ≠ .lost))
  | .detach h r => inferInstanceAs (Decidable (r = .ok ∨ r = .lost → ∀ i ∈ s.validateHandle h, _))
  | .enter _ | .fail _ | .publish _ _ | .ret _ | .join _ _ | .joinFinish _ =>
    inferInstanceAs (Decidable True)

end State

/-- All runs of a process in which each step is settled. -/
def lifeSystem : Lts State Event := .ofInputs .start State.step State.Settled

/-! ## What a step does -/

/-- The steps of a process. -/
inductive Move (s : State) : Input → State → List Event → Prop
  | enter {d : Bool} : Move s (.enter d) { s with scans := ⟨searchOrder s.hint, d⟩ :: s.scans } []
  | claim {c i : ℕ} {rest : List ℕ} {d : Bool} (hscan : s.scans[c]? = some ⟨i :: rest, d⟩)
      (hstate : (s.entry i).state = .unused) :
      Move s (.look c) { s.claim i d with scans := s.scans.eraseIdx c } []
  | full {c i : ℕ} {d : Bool} (hscan : s.scans[c]? = some ⟨[i], d⟩)
      (hstate : (s.entry i).state ≠ .unused) :
      Move s (.look c) { s with scans := s.scans.eraseIdx c } [.create (-11)]
  | pass {c i : ℕ} {rest : List ℕ} {d : Bool} (hscan : s.scans[c]? = some ⟨i :: rest, d⟩)
      (hstate : (s.entry i).state ≠ .unused) (hrest : rest ≠ []) :
      Move s (.look c) { s with scans := s.scans.set c ⟨rest, d⟩ } []
  | fail {i : ℕ} (hi : i ∈ s.creating) : Move s (.fail i) (s.abandon i) [.create (-12)]
  | lose {i tid : ℕ} (hi : i ∈ s.creating) (htid : s.NewTid tid) :
      Move s (.lose i tid) ((s.make i tid .stray).abandon i) [.create (-12)]
  | publish {i tid : ℕ} (hi : i ∈ s.creating) (htid : s.NewTid tid) :
      Move s (.publish i tid) (s.publish i tid) []
  | ret {n : ℕ} (hn : n ∈ s.made) (hlife : (s.thread n).life ≠ .stray)
      (hret : (s.thread n).returned = false) : Move s (.ret n) (s.giveHandle n) [.create 0]
  | exit {n : ℕ} (hlife : (s.thread n).life = .running) :
      Move s (.exit n) (s.hearExit (s.extTid (s.thread n).entry)) []
  | joinError {caller h : ℕ} {e : ℤ} : Move s (.join caller h) s [.join e]
  | joinWait {caller h i : ℕ} (htid : (s.entry i).tid ≠ 0) :
      Move s (.join caller h) { s with joins := ⟨i, (s.entry i).tid⟩ :: s.joins } []
  | replyError {k : ℕ} {e : ℤ} :
      Move s (.joinReply k (.error e)) { s with joins := s.joins.eraseIdx k } [.join e]
  | replyOk {k : ℕ} {j : Join} (hj : j ∈ s.joins)
      (hlife : (s.thread j.tid).life = .exited) :
      Move s (.joinReply k .ok)
        ({ s with joins := s.joins.eraseIdx k }.setLife j.tid (.joining j.entry)) []
  | replyLost {k : ℕ} {j : Join} (hj : j ∈ s.joins)
      (hlife : (s.thread j.tid).life = .exited) :
      Move s (.joinReply k .lost)
        ({ s with joins := s.joins.eraseIdx k }.setLife j.tid .removed)
        [.join tronaInterrupted]
  | joinFinish {n i : ℕ} (hlife : (s.thread n).life = .joining i) :
      Move s (.joinFinish n) ((s.setLife n .joined).recycle i) [.join 0]
  | detachError {h : ℕ} {r : Reply} {e : ℤ} (hr : r = .ok ∨ r = .lost → ∀ i ∈ s.validateHandle h,
      ¬s.Asks i) : Move s (.detach h r) s [.detach e]
  | detachOk {h i : ℕ} (hi : i ∈ s.validateHandle h) (hasks : s.Asks i)
      (hlife : (s.thread (s.entry i).tid).life = .running ∨
        (s.thread (s.entry i).tid).life = .exited) :
      Move s (.detach h .ok) ((s.detachThread (s.entry i).tid).flagDetached i) [.detach 0]
  | detachLost {h i : ℕ} (hi : i ∈ s.validateHandle h) (hasks : s.Asks i)
      (hlife : (s.thread (s.entry i).tid).life = .running ∨
        (s.thread (s.entry i).tid).life = .exited) :
      Move s (.detach h .lost) (s.detachThread (s.entry i).tid) [.detach (-22)]

section

variable {s s' : State} {i : Input} {es : List Event}

theorem move_of_look {c : ℕ} (h : s.look c = some (s', es)) : Move s (.look c) s' es := by
  obtain ⟨⟨order, d⟩, hscan, h⟩ := Option.bind_eq_some_iff.1 h
  cases order with
  | nil => cases h
  | cons i rest =>
    simp only at h
    split at h
    case isTrue hstate =>
      obtain ⟨rfl, rfl⟩ := step_inj h
      exact .claim hscan hstate
    case isFalse hstate =>
      split at h
      case isTrue hrest =>
        obtain ⟨rfl, rfl⟩ := step_inj h
        subst hrest
        exact .full hscan hstate
      case isFalse hrest =>
        obtain ⟨rfl, rfl⟩ := step_inj h
        exact .pass hscan hstate hrest

theorem move_of_join {caller h : ℕ} (heq : s.join caller h = (s', es)) :
    Move s (.join caller h) s' es := by
  rw [State.join] at heq
  split at heq
  case h_1 =>
    obtain ⟨rfl, rfl⟩ := Prod.mk.inj heq
    exact .joinError
  case h_2 i hi =>
    iterate 4
      rcases ite_eq_iff.1 heq with ⟨-, heq⟩ | ⟨hno, heq⟩
      · obtain ⟨rfl, rfl⟩ := Prod.mk.inj heq
        exact .joinError
    obtain ⟨rfl, rfl⟩ := Prod.mk.inj heq
    exact .joinWait hno

theorem move_of_joinReply {k : ℕ} {r : Reply} (h : s.joinReply k r = some (s', es)) :
    Move s (.joinReply k r) s' es := by
  obtain ⟨j, hj, h⟩ := Option.bind_eq_some_iff.1 h
  cases r with
  | error e =>
    obtain ⟨rfl, rfl⟩ := step_inj h
    exact .replyError
  | ok =>
    obtain ⟨hlife, rfl, rfl⟩ := guarded_inj h
    exact .replyOk (List.mem_of_getElem? hj) hlife
  | lost =>
    obtain ⟨hlife, rfl, rfl⟩ := guarded_inj h
    exact .replyLost (List.mem_of_getElem? hj) hlife

theorem move_of_detach {h : ℕ} {r : Reply} (heq : s.detach h r = some (s', es)) :
    Move s (.detach h r) s' es := by
  rw [State.detach] at heq
  split at heq
  case h_1 hnone =>
    obtain ⟨rfl, rfl⟩ := step_inj heq
    refine .detachError fun _ i hi => ?_
    rw [hnone] at hi
    cases hi
  case h_2 i hi =>
    -- What is refused before the process manager is asked.
    have hno (hasks : ¬s.Asks i) (e : ℤ) : Move s (.detach h r) s [.detach e] := by
      refine .detachError fun _ i' hi' => ?_
      obtain rfl := Option.some.inj (hi.symm.trans hi')
      exact hasks
    rcases ite_eq_iff.1 heq with ⟨hdata, heq⟩ | ⟨hdata, heq⟩
    · obtain ⟨rfl, rfl⟩ := step_inj heq
      exact hno (fun hasks => by simp [hasks.1] at hdata) _
    rcases ite_eq_iff.1 heq with ⟨hflag, heq⟩ | ⟨hflag, heq⟩
    · obtain ⟨rfl, rfl⟩ := step_inj heq
      exact hno (fun hasks => by simp [hasks.2.1] at hflag) _
    rcases ite_eq_iff.1 heq with ⟨htid, heq⟩ | ⟨htid, heq⟩
    · obtain ⟨rfl, rfl⟩ := step_inj heq
      exact hno (fun hasks => hasks.2.2 htid) _
    have hasks : s.Asks i := ⟨by simpa using hdata, by simpa using hflag, htid⟩
    cases r with
    | error e =>
      obtain ⟨rfl, rfl⟩ := step_inj heq
      exact .detachError (by simp)
    | ok =>
      obtain ⟨hlife, rfl, rfl⟩ := guarded_inj heq
      exact .detachOk hi hasks hlife
    | lost =>
      obtain ⟨hlife, rfl, rfl⟩ := guarded_inj heq
      exact .detachLost hi hasks hlife

theorem move_of_step (h : s.step i = some (s', es)) : Move s i s' es := by
  cases i with
  | enter d =>
    obtain ⟨rfl, rfl⟩ := step_inj h
    exact .enter
  | look c => exact move_of_look h
  | fail i =>
    obtain ⟨hi, rfl, rfl⟩ := guarded_inj h
    exact .fail hi
  | lose i tid =>
    obtain ⟨⟨hi, htid⟩, rfl, rfl⟩ := guarded_inj h
    exact .lose hi htid
  | publish i tid =>
    obtain ⟨⟨hi, htid⟩, rfl, rfl⟩ := guarded_inj h
    exact .publish hi htid
  | ret n =>
    obtain ⟨⟨hn, hret, hlife⟩, rfl, rfl⟩ := guarded_inj h
    exact .ret hn hlife hret
  | exit n =>
    obtain ⟨hlife, rfl, rfl⟩ := guarded_inj h
    exact .exit hlife
  | join caller h' => exact move_of_join (Option.some.inj h)
  | joinReply k r => exact move_of_joinReply h
  | joinFinish n =>
    simp only [State.step, State.joinFinish] at h
    split at h
    case h_1 i hlife =>
      obtain ⟨rfl, rfl⟩ := step_inj h
      exact .joinFinish hlife
    case h_2 => cases h
  | detach h' r => exact move_of_detach h

end

/-! ## Where the entries are -/

/-- A thread has an entry: it is not joined, and not one whose creation has failed. -/
def Thread.Has (t : Thread) (i : ℕ) : Prop := t.entry = i ∧ t.life ≠ .joined ∧ t.life ≠ .stray

def State.Occupies (s : State) (n i : ℕ) : Prop := (s.thread n).Has i

/-- A number that was given to the thread of an entry. -/
structure Names (made : Finset ℕ) (thread : ℕ → Thread) (tid i : ℕ) : Prop where
  mem_made : tid ∈ made
  entry : (thread tid).entry = i

/-- An entry is in use, and it is the POSIX layer that uses it. -/
structure Taken (e : Entry) (spawning : Finset ℕ) (i : ℕ) : Prop where
  lt_max : i < maxThreads
  used : e.state ≠ .unused
  not_spawning : i ∉ spawning
  owner : e.owner = .personality

/-- Where threads, calls of `pthread_create` and workers have their entries, in every run. -/
structure Shape (s : State) : Prop where
  handles : ∀ a ∈ s.issued, a.handle < 2 ^ 32
  scans : ∀ scan ∈ s.scans, ∀ i ∈ scan.order, i < maxThreads
  occupied : ∀ n i, s.Occupies n i → Taken (s.entry i) s.spawning i ∧ i ∉ s.creating
  unique : ∀ n m i, s.Occupies n i → s.Occupies m i → n = m
  creating : ∀ i ∈ s.creating, Taken (s.entry i) s.spawning i
  spawning : ∀ i ∈ s.spawning, (s.entry i).state ≠ .unused
  threads : ∀ n ∈ s.made, (s.thread n).entry < maxThreads
  unmade : ∀ n, n ∉ s.made → (s.thread n).life = .joined
  joining : ∀ n i, (s.thread n).life = .joining i → (s.thread n).entry = i
  tids : ∀ i, (s.entry i).tid ≠ 0 → Names s.made s.thread (s.entry i).tid i
  joins : ∀ j ∈ s.joins, Names s.made s.thread j.tid j.entry

section

variable {s s' : State} {i j n tid : ℕ} {t : Thread} {e : Entry} {l : Life} {es : List Event}

theorem State.publish_entry_self : (s.publish i tid).entry i = { s.entry i with tid := tid } :=
  (s.make i tid .running).setEntry_self i _

theorem State.publish_entry_of_ne (h : j ≠ i) : (s.publish i tid).entry j = s.entry j :=
  (s.make i tid .running).setEntry_of_ne _ h

theorem mem_searchOrder {hint k : ℕ} (h : k ∈ searchOrder hint) : k < maxThreads := by
  obtain ⟨offset, -, rfl⟩ := List.mem_map.1 h
  have hlt : (hint - 1 + offset) % (maxThreads - 1) < maxThreads - 1 := Nat.mod_lt _ (by decide)
  omega

theorem encodeHandle_lt (i generation : ℕ) : encodeHandle i generation < 2 ^ 32 := by
  rw [encodeHandle]
  omega

/-- A new thread does not change what a number stands for. -/
theorem Names.make {k : ℕ} (h : Names s.made s.thread n j) (htid : tid ∉ s.made) :
    Names (s.make k tid l).made (s.make k tid l).thread n j where
  mem_made := Finset.mem_insert_of_mem h.mem_made
  entry := by
    have hne : n ≠ tid := fun heq => htid (heq ▸ h.mem_made)
    exact (congrArg Thread.entry (s.setThread_of_ne _ hne)).trans h.entry

/-- The threads that have an entry when there is a new one. -/
theorem occupies_make {k m : ℕ} :
    (s.make k tid l).Occupies m j ↔
      m = tid ∧ j = k ∧ l ≠ .joined ∧ l ≠ .stray ∨ m ≠ tid ∧ s.Occupies m j := by
  refine State.forall_setThread (p := fun m t => t.Has j ↔
    m = tid ∧ j = k ∧ l ≠ .joined ∧ l ≠ .stray ∨ m ≠ tid ∧ s.Occupies m j) ?_ (fun m hm => ?_) m
  · simp [Thread.Has, eq_comm]
  · simp [hm, State.Occupies]

namespace Shape

theorem start : Shape .start where
  handles := by simp [State.start]
  scans := by simp [State.start]
  occupied n i h := absurd rfl h.2.1
  unique n m i h := absurd rfl h.2.1
  creating := by simp [State.start]
  spawning := by simp [State.start]
  threads := by simp [State.start]
  unmade _ _ := rfl
  joining n i h := by simp [State.start] at h
  tids i h := by
    by_cases hi : i = 0 <;> simp [State.start, hi] at h
  joins := by simp [State.start]

variable (h : Shape s)

include h

/-- Nobody has an unused entry. -/
theorem not_occupies_of_unused (hi : (s.entry i).state = .unused) :
    ¬s.Occupies n i := fun hocc => (h.occupied n i hocc).1.used hi

theorem not_occupies_of_mem_creating (hi : i ∈ s.creating) : ¬s.Occupies n i :=
  fun hocc => (h.occupied n i hocc).2 hi

/-- A thread that has an entry was made. -/
theorem mem_made (hocc : s.Occupies n i) : n ∈ s.made :=
  by_contra fun hn => hocc.2.1 (h.unmade n hn)

/-- A thread that is being joined has the entry that is put back. -/
theorem occupies_of_joining (hlife : (s.thread n).life = .joining i) : s.Occupies n i :=
  ⟨h.joining n i hlife, by simp [hlife], by simp [hlife]⟩

/-- The calls that are in progress change. -/
theorem withCalls {scans : List Scan} {joins : List Join}
    (hscans : ∀ scan ∈ scans, ∀ i ∈ scan.order, i < maxThreads)
    (hjoins : ∀ j ∈ joins, Names s.made s.thread j.tid j.entry) :
    Shape { s with scans := scans, joins := joins } :=
  { h with scans := hscans, joins := hjoins }

theorem eraseScan (c : ℕ) : Shape { s with scans := s.scans.eraseIdx c } :=
  h.withCalls (fun scan hmem => h.scans scan (List.mem_of_mem_eraseIdx hmem)) h.joins

theorem eraseJoin (k : ℕ) : Shape { s with joins := s.joins.eraseIdx k } :=
  h.withCalls h.scans fun j hj => h.joins j (List.mem_of_mem_eraseIdx hj)

/-- A thread changes. It keeps its entry or gives it up. -/
theorem setThread (hentry : t.entry = (s.thread n).entry)
    (hjoining : ∀ i, t.life = .joining i → t.entry = i)
    (hocc : t.life ≠ .joined → t.life ≠ .stray ∧ s.Occupies n t.entry) :
    Shape (s.setThread n t) := by
  have hentry' := State.forall_setThread (s := s) (p := fun m t => t.entry = (s.thread m).entry)
    hentry fun _ _ => rfl
  -- No thread gets an entry.
  have hocc' (m i : ℕ) := State.forall_setThread (s := s)
    (p := fun m t => t.Has i → s.Occupies m i) (fun hn => hn.1 ▸ (hocc hn.2.1).2)
    (fun _ _ hm => hm) m
  exact { h with
    occupied := fun m i hm => h.occupied m i (hocc' m i hm)
    unique := fun m m' i hm hm' => h.unique m m' i (hocc' m i hm) (hocc' m' i hm')
    threads := fun m hm => (hentry' m).symm ▸ h.threads m hm
    unmade := State.forall_setThread (p := fun m t => m ∉ s.made → t.life = .joined)
      (fun hn => by_contra fun hne => (hocc hne).2.2.1 (h.unmade n hn)) fun m _ => h.unmade m
    joining := State.forall_setThread (p := fun _ t => ∀ i, t.life = .joining i → t.entry = i)
      hjoining fun m _ => h.joining m
    tids := fun i hi => ⟨(h.tids i hi).mem_made, (hentry' _).trans (h.tids i hi).entry⟩
    joins := fun j hj => ⟨(h.joins j hj).mem_made, (hentry' _).trans (h.joins j hj).entry⟩ }

/-- A thread that has its entry changes and keeps it. -/
theorem keepThread (hentry : t.entry = (s.thread n).entry)
    (hold : (s.thread n).life ≠ .joined ∧ (s.thread n).life ≠ .stray)
    (hjoining : ∀ i, t.life = .joining i → t.entry = i) (hlife : t.life ≠ .stray) :
    Shape (s.setThread n t) :=
  h.setThread hentry hjoining fun _ => ⟨hlife, hentry.symm, hold⟩

/-- An entry changes. -/
theorem setEntry {k : ℕ} {c w : Finset ℕ}
    (hocc : ∀ n, s.Occupies n i → Taken e w i ∧ i ∉ c)
    (hcreating : ∀ j ∈ c, j ≠ i → j ∈ s.creating) (hcreating_self : i ∈ c → Taken e w i)
    (hspawning : ∀ j ∈ w, j ≠ i → j ∈ s.spawning) (hspawning_self : i ∈ w → e.state ≠ .unused)
    (htid : e.tid ≠ 0 → Names s.made s.thread e.tid i) :
    Shape { s.setEntry i e with hint := k, creating := c, spawning := w } := by
  have htaken (j : ℕ) (hj : j ≠ i) (h : Taken (s.entry j) s.spawning j) : Taken (s.entry j) w j :=
    { h with not_spawning := fun hmem => h.not_spawning (hspawning j hmem hj) }
  exact { h with
    occupied := fun n => State.forall_setEntry
      (p := fun j e => s.Occupies n j → Taken e w j ∧ j ∉ c) (hocc n) fun j hj hn =>
        ⟨htaken j hj (h.occupied n j hn).1, fun hmem =>
          (h.occupied n j hn).2 (hcreating j hmem hj)⟩
    creating := State.forall_setEntry (p := fun j e => j ∈ c → Taken e w j) hcreating_self
      fun j hj hmem => htaken j hj (h.creating j (hcreating j hmem hj))
    spawning := State.forall_setEntry (p := fun j e => j ∈ w → e.state ≠ .unused) hspawning_self
      fun j hj hmem => h.spawning j (hspawning j hmem hj)
    tids := State.forall_setEntry (p := fun j e => e.tid ≠ 0 → Names s.made s.thread e.tid j) htid
      fun j _ => h.tids j }

/-- An entry changes, but not who uses it. -/
theorem touch (hstate : e.state = (s.entry i).state) (howner : e.owner = (s.entry i).owner)
    (htid : e.tid ≠ 0 → Names s.made s.thread e.tid i) : Shape (s.setEntry i e) :=
  have htaken (h : Taken (s.entry i) s.spawning i) : Taken e s.spawning i :=
    ⟨h.lt_max, hstate ▸ h.used, h.not_spawning, howner ▸ h.owner⟩
  h.setEntry (k := s.hint) (c := s.creating) (w := s.spawning)
    (fun n hn => ⟨htaken (h.occupied n i hn).1, (h.occupied n i hn).2⟩) (fun _ hj _ => hj)
    (fun hi => htaken (h.creating i hi)) (fun _ hj _ => hj) (fun hi => hstate ▸ h.spawning i hi)
    htid

theorem claim {d : Bool} (hi : i < maxThreads) (hstate : (s.entry i).state = .unused) :
    Shape (s.claim i d) :=
  h.setEntry (fun _ hn => absurd hn (h.not_occupies_of_unused hstate))
    (fun _ hj hji => Finset.mem_of_mem_insert_of_ne hj hji)
    (fun _ => ⟨hi, by simp [Entry.claim], fun hmem => h.spawning i hmem hstate, rfl⟩)
    (fun _ hj _ => hj) (fun _ => by simp [Entry.claim]) fun hne => absurd rfl hne

theorem abandon (hi : i ∈ s.creating) : Shape (s.abandon i) :=
  h.setEntry (k := s.hint) (fun _ hn => absurd hn (h.not_occupies_of_mem_creating hi))
    (fun _ hj _ => Finset.mem_of_mem_erase hj) (fun hmem => absurd hmem (Finset.notMem_erase i _))
    (fun _ hj _ => hj) (fun hmem => absurd hmem (h.creating i hi).not_spawning) (h.tids i)

/-- A thread is made. It gets the entry, which nobody has, or its creation has failed. -/
theorem make (hi : Taken (s.entry i) s.spawning i) (htid : tid ∉ s.made) (hl : ∀ j, l ≠ .joining j)
    (hfree : l ≠ .stray → i ∉ s.creating ∧ ∀ n, ¬s.Occupies n i) : Shape (s.make i tid l) := by
  have hocc (n j : ℕ) (hocc : (s.make i tid l).Occupies n j) :
      n = tid ∧ j = i ∧ l ≠ .stray ∨ s.Occupies n j :=
    (occupies_make.1 hocc).imp (fun h => ⟨h.1, h.2.1, h.2.2.2⟩) And.right
  refine { h with
    occupied := fun n j hn => ?_
    unique := fun n m j hn hm => ?_
    threads := State.forall_setThread (p := fun n t => n ∈ insert tid s.made →
      t.entry < maxThreads) (fun _ => hi.lt_max) fun n hne hn =>
        h.threads n (Finset.mem_of_mem_insert_of_ne hn hne)
    unmade := State.forall_setThread (p := fun n t => n ∉ insert tid s.made → t.life = .joined)
      (fun hn => absurd (Finset.mem_insert_self tid _) hn) fun n _ hn =>
        h.unmade n fun hmem => hn (Finset.mem_insert_of_mem hmem)
    joining := State.forall_setThread (p := fun _ t => ∀ j, t.life = .joining j → t.entry = j)
      (fun j hj => absurd hj (hl j)) fun n _ => h.joining n
    tids := fun j hj => (h.tids j hj).make htid
    joins := fun j hj => (h.joins j hj).make htid }
  · rcases hocc n j hn with ⟨-, rfl, hstray⟩ | hn
    · exact ⟨hi, (hfree hstray).1⟩
    · exact h.occupied n j hn
  · rcases hocc n j hn with ⟨rfl, rfl, hstray⟩ | hn'
    · rcases hocc m j hm with ⟨rfl, -⟩ | hm'
      · rfl
      · exact absurd hm' ((hfree hstray).2 m)
    · rcases hocc m j hm with ⟨-, rfl, hstray⟩ | hm'
      · exact absurd hn' ((hfree hstray).2 n)
      · exact h.unique n m j hn' hm'

/-- `pthread_create` has the number of the new thread. -/
theorem publish (hi : i ∈ s.creating) (htid : tid ∉ s.made) : Shape (s.publish i tid) := by
  -- The call gives up the entry, and the thread gets it.
  have herase : Shape { s with creating := s.creating.erase i } := { h with
    occupied := fun n j hn => ⟨(h.occupied n j hn).1, fun hmem =>
      (h.occupied n j hn).2 (Finset.mem_of_mem_erase hmem)⟩
    creating := fun j hj => h.creating j (Finset.mem_of_mem_erase hj) }
  have hmake := herase.make (l := .running) (h.creating i hi) htid (by simp) fun _ =>
    ⟨Finset.notMem_erase i _, fun _ => h.not_occupies_of_mem_creating hi⟩
  exact hmake.touch rfl rfl fun _ =>
    ⟨Finset.mem_insert_self _ _, congrArg Thread.entry (s.setThread_self tid _)⟩

theorem hearExit (tid : ℕ) : Shape (s.hearExit tid) := by
  rw [State.hearExit]
  split
  case isTrue hrunning =>
    have hold : (s.thread tid).life ≠ .joined ∧ (s.thread tid).life ≠ .stray := by simp [hrunning]
    split
    · exact h.keepThread rfl hold (by simp) (by simp)
    · exact h.keepThread rfl hold (by simp) (by simp)
  case isFalse => exact h

theorem detachThread (hlife : (s.thread n).life = .running ∨ (s.thread n).life = .exited) :
    Shape (s.detachThread n) := by
  rw [State.detachThread]
  rcases hlife with hlife | hlife
  · rw [if_neg (by simp [hlife])]
    exact h.keepThread rfl (by simp [hlife]) (by simp [hlife]) (by simp [hlife])
  · rw [if_pos hlife]
    exact h.keepThread rfl (by simp [hlife]) (by simp) (by simp)

/-- `pthread_join` puts the entry of its thread back. -/
theorem joinFinish (hlife : (s.thread n).life = .joining i) :
    Shape ((s.setLife n .joined).recycle i) ∧ ∀ m, ¬(s.setLife n .joined).Occupies m i := by
  have hn := h.occupies_of_joining hlife
  obtain ⟨htaken, hcreating⟩ := h.occupied n i hn
  have hshape : Shape (s.setLife n .joined) :=
    h.setThread rfl (by simp) fun hne => absurd rfl hne
  have hfree : ∀ m, ¬(s.setLife n .joined).Occupies m i :=
    State.forall_setThread (p := fun _ t => ¬t.Has i) (fun hjoined => hjoined.2.1 rfl)
      fun m hmn hm => hmn (h.unique m n i hm hn)
  exact ⟨hshape.setEntry (k := s.hint) (c := s.creating) (w := s.spawning)
    (fun m hm => absurd hm (hfree m)) (fun _ hj _ => hj)
    (fun hmem => absurd hmem hcreating) (fun _ hj _ => hj)
    (fun hmem => absurd hmem htaken.not_spawning) (hshape.tids i), hfree⟩

theorem giveHandle (hlife : (s.thread n).life ≠ .stray) : Shape (s.giveHandle n) :=
  have hshape : Shape (s.setThread n { s.thread n with returned := true }) :=
    h.setThread rfl (h.joining n) fun hne => ⟨hlife, rfl, hne, hlife⟩
  { hshape with handles := List.forall_mem_cons.2 ⟨encodeHandle_lt _ _, h.handles⟩ }

theorem move {input : Input} (hmove : Move s input s' es) : Shape s' := by
  cases hmove with
  | enter =>
    exact h.withCalls (List.forall_mem_cons.2 ⟨fun k hk => mem_searchOrder hk, h.scans⟩) h.joins
  | claim hscan hstate =>
    have hi := h.scans _ (List.mem_of_getElem? hscan) _ List.mem_cons_self
    exact (h.claim hi hstate).eraseScan _
  | full => exact h.eraseScan _
  | pass hscan =>
    refine h.withCalls (fun scan hmem k hk => ?_) h.joins
    rcases List.mem_or_eq_of_mem_set hmem with hmem | rfl
    · exact h.scans scan hmem k hk
    · exact h.scans _ (List.mem_of_getElem? hscan) k (List.mem_cons_of_mem _ hk)
  | fail hi => exact h.abandon hi
  | lose hi htid =>
    exact (h.make (h.creating _ hi) htid.2 (by simp) fun hne => absurd rfl hne).abandon hi
  | publish hi htid => exact h.publish hi htid.2
  | ret _ hlife => exact h.giveHandle hlife
  | exit => exact h.hearExit _
  | joinError | detachError => exact h
  | joinWait htid => exact h.withCalls h.scans (List.forall_mem_cons.2 ⟨h.tids _ htid, h.joins⟩)
  | replyError => exact h.eraseJoin _
  | replyOk hj hlife =>
    -- The call has kept the entry of the thread that it has asked for.
    refine (h.eraseJoin _).keepThread rfl (by simp [hlife]) (fun i hi => ?_) (by simp)
    exact (h.joins _ hj).entry.trans (Life.joining.inj hi)
  | replyLost hj hlife => exact (h.eraseJoin _).keepThread rfl (by simp [hlife]) (by simp) (by simp)
  | joinFinish hlife => exact (h.joinFinish hlife).1
  | detachOk hi hasks hlife =>
    have hdetach := h.detachThread hlife
    exact hdetach.touch rfl rfl (hdetach.tids _)
  | detachLost hi hasks hlife => exact h.detachThread hlife

end Shape

/-! ## The invariant -/

/-- What holds in every run whose steps are settled. -/
structure Inv (s : State) : Prop where
  shape : Shape s
  used : ∀ i < maxThreads, (s.entry i).state ≠ .unused →
    i = 0 ∨ i ∈ s.creating ∨ ∃ n, s.Occupies n i
  main : (s.entry 0).state ≠ .unused ∧ 0 ∉ s.creating ∧ ∀ n, ¬s.Occupies n 0
  kept : ∀ n, (s.thread n).life ≠ .removed ∧ (s.thread n).life ≠ .stray
  creating : ∀ i ∈ s.creating, (s.entry i).data = true
  named : ∀ n i, s.Occupies n i → (s.entry i).data = true ∧ (s.entry i).tid = n

theorem State.accounted_flagDetached : (s.flagDetached i).Accounted ↔ s.Accounted := by
  refine forall₂_congr fun j _ => iff_congr ?_ Iff.rfl
  exact State.forall_setEntry (e := { s.entry i with detached := true })
    (p := fun j e => e.state ≠ .unused ↔ (s.entry j).state ≠ .unused) Iff.rfl (fun _ _ => Iff.rfl) j

namespace Inv

theorem start : Inv .start where
  shape := .start
  used i _ h := by
    by_cases hi : i = 0
    · exact .inl hi
    · simp [State.start, hi] at h
  main := ⟨by simp [State.start], by simp [State.start], fun n h => h.2.1 rfl⟩
  kept n := by simp [State.start]
  creating := by simp [State.start]
  named n i h := absurd rfl h.2.1

section

variable (h : Inv s)

include h

theorem occupies_iff :
    (s.thread n).entry = i ∧ (s.thread n).life.counts = true ↔ s.Occupies n i := by
  obtain ⟨hremoved, hstray⟩ := h.kept n
  rw [State.Occupies, Thread.Has]
  cases hlife : (s.thread n).life <;> simp_all [Life.counts]

theorem accounts_iff : s.Accounts i ↔ i = 0 ∨ i ∈ s.creating ∨ ∃ n, s.Occupies n i := by
  refine or_congr Iff.rfl (or_congr Iff.rfl (exists_congr fun n => ?_))
  rw [h.occupies_iff]
  exact and_iff_right_of_imp h.shape.mem_made

theorem accounted : s.Accounted := by
  intro i hi
  rw [h.accounts_iff]
  refine ⟨h.used i hi, ?_⟩
  rintro (rfl | hmem | ⟨n, hn⟩)
  exacts [h.main.1, (h.shape.creating i hmem).used, (h.shape.occupied n i hn).1.used]

theorem eraseJoin (k : ℕ) : Inv { s with joins := s.joins.eraseIdx k } :=
  { h with shape := h.shape.eraseJoin k }

/-- A thread changes, and keeps its entry if it has one. -/
theorem setThread (hshape : Shape (s.setThread n t)) (hentry : t.entry = (s.thread n).entry)
    (hlife : t.life ≠ .removed ∧ t.life ≠ .stray)
    (hjoined : t.life = .joined ↔ (s.thread n).life = .joined) : Inv (s.setThread n t) := by
  have hocc (m j : ℕ) : (s.setThread n t).Occupies m j ↔ s.Occupies m j := by
    refine State.forall_setThread (p := fun m t => t.Has j ↔ s.Occupies m j) ?_
      (fun _ _ => Iff.rfl) m
    simp [State.Occupies, Thread.Has, hentry, hjoined, hlife.2, (h.kept n).2]
  refine ⟨hshape, ?_, ⟨h.main.1, h.main.2.1, ?_⟩, State.forall_setThread
    (p := fun _ t => t.life ≠ .removed ∧ t.life ≠ .stray) hlife fun m _ => h.kept m, h.creating,
    fun m j hm => h.named m j ((hocc m j).1 hm)⟩
  · simp only [hocc]
    exact h.used
  · simp only [hocc]
    exact h.main.2.2

/-- An entry changes, and stays that of the thread that has it. It is in use if a thread or a call
    of `pthread_create` has it. -/
theorem setEntry {k : ℕ} {c : Finset ℕ}
    (hshape : Shape { s.setEntry i e with hint := k, creating := c })
    (hmain : i = 0 → e.state ≠ .unused ∧ 0 ∉ c) (hcreating : ∀ j, j ≠ i → (j ∈ c ↔ j ∈ s.creating))
    (hused : i < maxThreads → e.state ≠ .unused → i = 0 ∨ i ∈ c ∨ ∃ n, s.Occupies n i)
    (hdata : i ∈ c → e.data = true) (hnamed : ∀ n, s.Occupies n i → e.data = true ∧ e.tid = n) :
    Inv { s.setEntry i e with hint := k, creating := c } where
  shape := hshape
  used := State.forall_setEntry (p := fun j e => j < maxThreads → e.state ≠ .unused →
    j = 0 ∨ j ∈ c ∨ ∃ n, s.Occupies n j) hused fun j hji hj hused =>
      (h.used j hj hused).imp_right (Or.imp_left (hcreating j hji).2)
  main := by
    obtain ⟨hstate, hno⟩ := State.forall_setEntry (s := s)
      (p := fun j e => j = 0 → e.state ≠ .unused ∧ 0 ∉ c) hmain
      (fun j hji hj => ⟨hj ▸ h.main.1, fun hmem =>
        h.main.2.1 ((hcreating 0 (hj ▸ hji)).1 hmem)⟩) 0 rfl
    exact ⟨hstate, hno, h.main.2.2⟩
  kept := h.kept
  creating := State.forall_setEntry (p := fun j e => j ∈ c → e.data = true) hdata
    fun j hji hj => h.creating j ((hcreating j hji).1 hj)
  named n := State.forall_setEntry (p := fun j e => s.Occupies n j → e.data = true ∧ e.tid = n)
    (hnamed n) fun j _ => h.named n j

/-- `pthread_create` gets an entry. -/
theorem claim {d : Bool} (hi : i < maxThreads) (hstate : (s.entry i).state = .unused) :
    Inv (s.claim i d) := by
  refine h.setEntry (h.shape.claim hi hstate) (fun hzero => absurd (hzero ▸ hstate) h.main.1)
    (fun j hj => ?_) (fun _ _ => .inr (.inl (Finset.mem_insert_self _ _))) (fun _ => rfl)
    fun n hn => absurd hn (h.shape.not_occupies_of_unused hstate)
  rw [Finset.mem_insert, or_iff_right hj]

/-- `pthread_create` fails. -/
theorem abandon (hi : i ∈ s.creating) : Inv (s.abandon i) := by
  refine h.setEntry (k := s.hint) (h.shape.abandon hi) (fun hzero => absurd (hzero ▸ hi) h.main.2.1)
    (fun j hj => ?_) (fun _ hused => absurd rfl hused)
    (fun hmem => absurd hmem (Finset.notMem_erase i _))
    fun n hn => absurd hn (h.shape.not_occupies_of_mem_creating hi)
  rw [Finset.mem_erase, and_iff_right hj]

/-- `pthread_create` has the number of the new thread. -/
theorem publish (hi : i ∈ s.creating) (htid : tid ∉ s.made) : Inv (s.publish i tid) := by
  have hzero : i ≠ 0 := fun hzero => h.main.2.1 (hzero ▸ hi)
  have hocc (n j : ℕ) : (s.publish i tid).Occupies n j ↔
      n = tid ∧ j = i ∧ _ ∨ n ≠ tid ∧ s.Occupies n j := occupies_make (l := .running)
  have hnew : (s.publish i tid).Occupies tid i := (hocc tid i).2 (.inl ⟨rfl, rfl, by simp, by simp⟩)
  refine ⟨h.shape.publish hi htid, fun j hj hused => ?_, ⟨?_, ?_, fun n hn => ?_⟩,
    State.forall_setThread (p := fun _ t => t.life ≠ .removed ∧ t.life ≠ .stray) (by simp)
      fun n _ => h.kept n, fun j hj => ?_, fun n j hn => ?_⟩
  · rcases eq_or_ne j i with rfl | hji
    · exact .inr (.inr ⟨tid, hnew⟩)
    · rw [State.publish_entry_of_ne hji] at hused
      refine (h.used j hj hused).imp_right (Or.imp (Finset.mem_erase_of_ne_of_mem hji) ?_)
      rintro ⟨n, hn⟩
      exact ⟨n, (hocc n j).2 (.inr ⟨fun heq => htid (heq ▸ h.shape.mem_made hn), hn⟩)⟩
  · rw [State.publish_entry_of_ne hzero.symm]
    exact h.main.1
  · exact fun hmem => h.main.2.1 (Finset.mem_of_mem_erase hmem)
  · rcases (hocc n 0).1 hn with ⟨-, hzero', -⟩ | ⟨-, hn⟩
    · exact hzero hzero'.symm
    · exact h.main.2.2 n hn
  · obtain ⟨hji, hj⟩ := Finset.mem_erase.1 hj
    rw [State.publish_entry_of_ne hji]
    exact h.creating j hj
  · rcases (hocc n j).1 hn with ⟨rfl, rfl, -⟩ | ⟨-, hn⟩
    · rw [State.publish_entry_self]
      exact ⟨h.creating j hi, rfl⟩
    · rw [State.publish_entry_of_ne fun heq => h.shape.not_occupies_of_mem_creating hi (heq ▸ hn)]
      exact h.named n j hn

/-- `pthread_join` puts the entry of its thread back. -/
theorem joinFinish (hlife : (s.thread n).life = .joining i) :
    Inv ((s.setLife n .joined).recycle i) := by
  have hn := h.shape.occupies_of_joining hlife
  obtain ⟨hshape, hfree⟩ := h.shape.joinFinish hlife
  have hzero : i ≠ 0 := fun hzero => h.main.2.2 n (hzero ▸ hn)
  have hentry (j : ℕ) (hj : j ≠ i) : ((s.setLife n .joined).recycle i).entry j = s.entry j :=
    (s.setLife n .joined).setEntry_of_ne _ hj
  -- the other threads keep their entries, and this one has none any more
  have hocc (m j : ℕ) :
      ((s.setLife n .joined).recycle i).Occupies m j ↔ m ≠ n ∧ s.Occupies m j := by
    refine State.forall_setThread (p := fun m t => t.Has j ↔ m ≠ n ∧ s.Occupies m j) ?_
      (fun m hm => ?_) m
    · simp [Thread.Has]
    · simp [hm, State.Occupies]
  refine ⟨hshape, fun j hj hused => ?_, ⟨?_, h.main.2.1, fun m hm => ?_⟩,
    State.forall_setThread (p := fun _ t => t.life ≠ .removed ∧ t.life ≠ .stray) (by simp)
      fun m _ => h.kept m, fun j hj => ?_, fun m j hm => ?_⟩
  · rcases eq_or_ne j i with rfl | hji
    · refine absurd ?_ hused
      rw [State.recycle, State.setEntry_self]
      rfl
    · rw [hentry j hji] at hused
      refine (h.used j hj hused).imp_right (Or.imp_right ?_)
      rintro ⟨m, hm⟩
      exact ⟨m, (hocc m j).2 ⟨fun heq => hji (hm.1.symm.trans (heq ▸ hn.1)), hm⟩⟩
  · rw [hentry 0 hzero.symm]
    exact h.main.1
  · exact h.main.2.2 m ((hocc m 0).1 hm).2
  · rw [hentry j fun heq => (h.shape.occupied n i hn).2 (heq ▸ hj)]
    exact h.creating j hj
  · rw [hentry j fun heq => hfree m (heq ▸ hm)]
    exact h.named m j ((hocc m j).1 hm).2

theorem flagDetached (hshape : Shape (s.flagDetached i)) : Inv (s.flagDetached i) :=
  h.setEntry (k := s.hint) (c := s.creating) hshape (fun hi => ⟨hi ▸ h.main.1, h.main.2.1⟩)
    (fun _ _ => Iff.rfl) (h.used i) (h.creating i) fun n => h.named n i

/-- A thread that the process manager has detached while it runs stays where it is. -/
theorem detachThread (hlife : (s.thread n).life = .running) : Inv (s.detachThread n) := by
  have hshape := h.shape.detachThread (.inl hlife)
  rw [State.detachThread, if_neg (by simp [hlife])] at hshape ⊢
  exact h.setThread hshape rfl (h.kept n) Iff.rfl

/-- A thread that runs is the one that its entry names. -/
theorem hearExit_eq (hlife : (s.thread n).life = .running) :
    s.hearExit (s.extTid (s.thread n).entry) =
      s.setLife n (if (s.thread n).detached then .removed else .exited) := by
  have hocc : s.Occupies n (s.thread n).entry := ⟨rfl, by simp [hlife], by simp [hlife]⟩
  obtain ⟨hdata, htid⟩ := h.named n _ hocc
  rw [State.hearExit, State.extTid, if_pos hdata, htid, if_pos hlife]

/-- A settled step keeps the invariant. -/
theorem move {input : Input} (hmove : Move s input s' es) (hsettled : s.Settled input) :
    Inv s' := by
  have hshape := h.shape.move hmove
  cases hmove with
  | claim hscan hstate =>
    have hi := h.shape.scans _ (List.mem_of_getElem? hscan) _ List.mem_cons_self
    exact { h.claim hi hstate with shape := hshape }
  | fail hi => exact h.abandon hi
  | lose hi => exact hsettled.elim
  | publish hi htid => exact h.publish hi htid.2
  | @ret n hn hlife =>
    have hset : Inv (s.setThread n { s.thread n with returned := true }) :=
      h.setThread { hshape with handles := h.shape.handles } rfl (h.kept n) Iff.rfl
    exact { hset with shape := hshape }
  | @exit n hlife =>
    have hdetached : (s.thread n).detached = false := hsettled
    rw [h.hearExit_eq hlife, hdetached] at hshape ⊢
    exact h.setThread hshape rfl ⟨by simp, by simp⟩ (by simp [hlife])
  | replyOk hj hlife =>
    exact (h.eraseJoin _).setThread hshape rfl ⟨by simp, by simp⟩ (by simp [hlife])
  | replyLost hj hlife => exact absurd rfl hsettled
  | joinFinish hlife => exact h.joinFinish hlife
  | detachOk hi hasks hlife =>
    have hrunning := hlife.resolve_right (hsettled (.inl rfl) _ hi hasks)
    exact (h.detachThread hrunning).flagDetached hshape
  | detachLost hi hasks hlife =>
    exact h.detachThread (hlife.resolve_right (hsettled (.inr rfl) _ hi hasks))
  | enter | full | pass | joinError | joinWait | replyError | detachError =>
    exact { h with shape := hshape }

end

end Inv

/-! ## Steps and runs -/

section

variable (h : Inv s)

include h

/-- If the process manager has removed a thread, its entry is nobody's, and is not unused. -/
theorem Inv.not_accounted_setThread (hn : s.Occupies n i) (ht : t.life = .removed) :
    ¬(s.setThread n t).Accounted := by
  intro hacc
  obtain ⟨htaken, hcreating⟩ := h.shape.occupied n i hn
  rcases (hacc i htaken.lt_max).1 htaken.used with rfl | hmem | ⟨m, -, hm⟩
  · exact h.main.2.2 n hn
  · exact hcreating hmem
  · rcases eq_or_ne m n with rfl | hmn
    · simp [State.setThread, ht, Life.counts] at hm
    · rw [s.setThread_of_ne t hmn, h.occupies_iff] at hm
      exact hmn (h.shape.unique m n i hm hn)

/-- Without an answer there is a thread, and its entry is unused. -/
theorem Inv.not_accounted_lose (hi : i ∈ s.creating) :
    ¬((s.make i tid .stray).abandon i).Accounted := by
  intro hacc
  have hthread : ((s.make i tid .stray).abandon i).thread tid =
      ⟨i, .stray, (s.entry i).detached, false⟩ := s.setThread_self tid _
  have hused := (hacc i (h.shape.creating i hi).lt_max).2
    (.inr (.inr ⟨tid, Finset.mem_insert_self _ _, by rw [hthread], by rw [hthread]; rfl⟩))
  exact hused (by simp [State.abandon, State.setEntry, Entry.free])

theorem Inv.not_accounted_detachThread (hlife : (s.thread n).life = .exited) :
    ¬(s.detachThread n).Accounted := by
  rw [State.detachThread, if_pos hlife]
  exact h.not_accounted_setThread ⟨rfl, by simp [hlife], by simp [hlife]⟩ rfl

/-- If a step is not settled, it does not end well. -/
theorem Inv.settled_of_fine {input : Input} (hmove : Move s input s' es)
    (hfine : State.Fine s' es) : s.Settled input := by
  cases hmove with
  | claim hscan hstate =>
    intro scan hmem k hk horder hused
    obtain rfl := Option.some.inj (hscan.symm.trans hmem)
    obtain ⟨rfl, -⟩ := List.cons.inj horder
    exact absurd hstate hused
  | full hscan hstate =>
    -- All entries are used when those that are accounted for are all of them.
    intro scan hmem k hk horder hused j hj hpos
    exact (h.accounted j hj).2 (hfine.2 List.mem_cons_self j hj hpos)
  | pass hscan hstate hrest =>
    intro scan hmem k hk horder hused
    obtain rfl := Option.some.inj (hscan.symm.trans hmem)
    exact absurd (List.cons.inj horder).2 hrest
  | lose hi => exact absurd hfine.1 (h.not_accounted_lose hi)
  | @exit n hlife =>
    refine Bool.eq_false_iff.2 fun hdetached => ?_
    rw [h.hearExit_eq hlife, if_pos hdetached, State.setLife] at hfine
    exact h.not_accounted_setThread ⟨rfl, by simp [hlife], by simp [hlife]⟩ rfl hfine.1
  | replyLost hj hlife =>
    -- The thread is removed and nobody puts its entry back.
    exact absurd hfine.1
      ((h.eraseJoin _).not_accounted_setThread ⟨rfl, by simp [hlife], by simp [hlife]⟩ rfl)
  | replyError | replyOk =>
    intro heq
    cases heq
  | detachError hr =>
    exact fun hok i hi hasks => absurd hasks (hr hok i hi)
  | detachOk hi hasks hlife =>
    rintro - j hj - hexited
    obtain rfl := Option.some.inj (hi.symm.trans hj)
    exact h.not_accounted_detachThread hexited (State.accounted_flagDetached.1 hfine.1)
  | detachLost hi hasks hlife =>
    rintro - j hj - hexited
    obtain rfl := Option.some.inj (hi.symm.trans hj)
    exact h.not_accounted_detachThread hexited hfine.1
  | enter | fail | publish | ret | joinError | joinWait | joinFinish => trivial

end

theorem Inv.of_reaches {hist : List Event} (hr : lifeSystem.Reaches s hist) : Inv s := by
  refine hr.invariant (P := fun s _ => Inv s) ?_ ?_
  · rintro s rfl
    exact .start
  · rintro s - es s' h ⟨i, hsettled, hstep⟩
    exact h.move (move_of_step hstep) hsettled

end

/-- In every run whose steps are settled, the entries that are not unused are exactly those of the
    main thread, of the threads that run or have exited and are not yet joined, and of calls of
    `pthread_create`. The next step ends well if and only if it is settled. -/
theorem entries_accounted_iff {s s' : State} {i : Input} {hist es : List Event}
    (hr : lifeSystem.Reaches s hist) (hstep : s.step i = some (s', es)) :
    s.Accounted ∧ (State.Fine s' es ↔ s.Settled i) := by
  have h := Inv.of_reaches hr
  have hmove := move_of_step hstep
  refine ⟨h.accounted, h.settled_of_fine hmove, fun hsettled => ?_⟩
  have h' := h.move hmove hsettled
  refine ⟨h'.accounted, fun hmem k hk hpos => (h'.accounted k hk).1 ?_⟩
  -- only a call that has looked at all entries reports that there is none
  cases hmove with
  | full hscan hstate =>
    exact hsettled _ hscan _ List.mem_cons_self rfl hstate k hk hpos
  | _ => simp at hmem

/-- A thread is created, exits and is joined, and another one is created. -/
def joinedOnce : State × List Event :=
  (Lts.feed State.step State.Settled [.enter false, .look 0, .publish 1 1, .ret 1, .exit 1,
    .join 0 (encodeHandle 1 0), .joinReply 0 .ok, .joinFinish 1, .enter true, .look 0,
    .publish 2 2] (.start, [])).get (by decide +kernel)

/-- The second thread, which is detached, runs. -/
theorem entries_accounted_joinedOnce : joinedOnce.1.Accounted ∧
    (State.Fine (joinedOnce.1.giveHandle 2) [.create 0] ↔ joinedOnce.1.Settled (.ret 2)) := by
  have hret : 2 ∈ joinedOnce.1.made ∧ (joinedOnce.1.thread 2).returned = false ∧
      (joinedOnce.1.thread 2).life ≠ .stray := by decide +kernel
  have hstep : joinedOnce.1.step (.ret 2) = some (joinedOnce.1.giveHandle 2, [.create 0]) := by
    rw [State.step, if_pos hret]
  exact entries_accounted_iff (Lts.reaches_feed (.init rfl) (Option.some_get _).symm) hstep

/-- 63 threads are created with the attribute that they are detached, and exit at once. Another one
    is to be created. -/
def detachedThreads : State × List Event :=
  (Lts.feed State.step (fun _ _ => True)
    (((List.range 63).map (· + 1)).flatMap
      (fun n => [.enter true, .look 0, .publish n n, .ret n, .exit n]) ++
      .enter false :: List.replicate 63 (.look 0)) (.start, [])).get (by decide +kernel)

/-- There is no thread but the main thread and no call of `pthread_create`, but no entry is left. -/
theorem entries_exhausted :
    (Lts.ofInputs State.start State.step fun _ _ => True).Reaches detachedThreads.1
        detachedThreads.2 ∧
      .create (-11) ∈ detachedThreads.2 ∧ detachedThreads.1.creating = ∅ ∧
      (∀ n ∈ detachedThreads.1.made, (detachedThreads.1.thread n).life = .removed) ∧
      ¬detachedThreads.1.Accounts 1 ∧ ¬detachedThreads.1.Accounted := by
  have hrun : .create (-11) ∈ detachedThreads.2 ∧ detachedThreads.1.creating = ∅ ∧
      (∀ n ∈ detachedThreads.1.made, (detachedThreads.1.thread n).life = .removed) ∧
      ¬detachedThreads.1.Accounts 1 ∧ (detachedThreads.1.entry 1).state ≠ .unused := by
    decide +kernel
  obtain ⟨hagain, hcreating, hremoved, hno, hused⟩ := hrun
  exact ⟨Lts.reaches_feed (.init rfl) (Option.some_get _).symm, hagain, hcreating, hremoved, hno,
    fun hacc => hno ((hacc 1 (by decide)).1 hused)⟩

end ThreadLife

end Posix

end Trona
