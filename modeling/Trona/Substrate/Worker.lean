import Mathlib.Data.Int.Notation
import Trona.Lib.Run
import Trona.Uapi.Status

/-!
# The loop of a worker

`worker_ipc_loop` (`substrate/worker.rs`): a worker of a server receives a message, calls the
handler with it, sends the reply and receives the next message, both in one system call. A
receive may be limited in time, and it may be cancelled.

The first receive is made again when its time is up. In the loop itself this is not so: the
handler is called once more with the message that it has handled before, and its reply is sent
(`worker_handledTwice`). As long as no receive there is cancelled or runs out of time, every
message is handled once and replied to at most once (`worker_oncePerMessage`).
-/

namespace Trona

namespace Worker

variable {M : Type}

/-! ## The loop -/

/-- A message that the kernel delivers, with the badge of the sender and the number of the
    endpoint. -/
structure Delivery (M : Type) where
  msg : M
  badge : ℕ
  source : ℕ
  deriving DecidableEq

/-- What becomes of a receive: a message is delivered, or there is an error. -/
inductive Received (M : Type)
  | delivered (d : Delivery M)
  | failed (err : ℤ) (ne_zero : err ≠ 0)

/-- `WorkerLoopControl`. -/
inductive LoopControl
  | reply
  | skipReply
  | exit
  deriving DecidableEq

/-- What of `WorkerConfig` the loop depends on: the number of the worker, and if there are a
    handler and a function to call after a timeout. -/
structure WorkerConfig where
  workerIdx : ℕ
  handler : Bool
  onTimeout : Bool

/-- The places of a worker. -/
inductive WorkerPc
  /-- At the receive before the loop. -/
  | first
  /-- At the call of the handler. -/
  | handle
  /-- At the receive of the loop. The reply is sent before. -/
  | replyReceive
  /-- At the receive of the loop, with no reply. -/
  | receive
  /-- At the receive that is made after one has failed. -/
  | recover
  /-- The worker has left the loop, or has no handler. -/
  | stopped
  deriving DecidableEq

/-- The variables of the loop. -/
structure WorkerState (M : Type) where
  pc : WorkerPc
  msg : M
  badge : ℕ
  source : ℕ
  reply : M

/-- What the environment does: the handler returns, after it may have changed the message and
    the reply; a receive returns. When a reply comes first, it may be that it is not sent, since
    the call has failed before. -/
inductive WorkerInput (M : Type)
  | handlerReturns (control : LoopControl) (msg reply : M)
  | receiveReturns (sent : Bool) (r : Received M)

/-- What can be seen of a worker. -/
inductive WorkerEvent (M : Type)
  | delivered (d : Delivery M)
  | handled (d : Delivery M)
  | replied (reply : M)
  | timeoutHook
  | reaped
  deriving DecidableEq

/-- The errors after which the function for timeouts is called. -/
def isTimeout (err : ℤ) : Prop := err = tronaCancelled ∨ err = tronaTimedOut

instance (err : ℤ) : Decidable (isTimeout err) := inferInstanceAs (Decidable (_ ∨ _))

/-- The message is in the variables. -/
def WorkerState.deliver (s : WorkerState M) (d : Delivery M) : WorkerState M :=
  { s with pc := .handle, msg := d.msg, badge := d.badge, source := d.source }

section

variable (cfg : WorkerConfig)

/-- The end of a round of the loop: the first worker looks after the ones that have exited. -/
def reapEvents : List (WorkerEvent M) :=
  if cfg.workerIdx = 0 then [.reaped] else []

def timeoutEvents : List (WorkerEvent M) :=
  if cfg.onTimeout then [.timeoutHook] else []

/-- The receive of the loop, and what follows: after a timeout the next round begins. -/
def loopReceive (s : WorkerState M) : Received M → WorkerState M × List (WorkerEvent M)
  | .delivered d => (s.deliver d, .delivered d :: reapEvents cfg)
  | .failed err _ =>
    if isTimeout err then ({ s with pc := .handle }, timeoutEvents cfg)
    else ({ s with pc := .recover }, [])

/-- A step of a worker, with what can be seen of it. -/
def workerStep (s : WorkerState M) :
    WorkerInput M → Option (WorkerState M × List (WorkerEvent M))
  | .handlerReturns control msg reply =>
    if s.pc = .handle then
      let pc := match control with
        | .reply => .replyReceive
        | .skipReply => .receive
        | .exit => .stopped
      some (⟨pc, msg, s.badge, s.source, reply⟩, [.handled ⟨s.msg, s.badge, s.source⟩])
    else none
  | .receiveReturns sent r =>
    match s.pc with
    | .first =>
      match r with
      | .delivered d => some (s.deliver d, [.delivered d])
      | .failed err _ =>
        if isTimeout err then some (s, timeoutEvents cfg) else some ({ s with pc := .stopped }, [])
    | .replyReceive =>
      let p := loopReceive cfg s r
      some (p.1, if sent then .replied s.reply :: p.2 else p.2)
    | .receive => some (loopReceive cfg s r)
    | .recover =>
      match r with
      | .delivered d => some (s.deliver d, .delivered d :: reapEvents cfg)
      | .failed _ _ => some ({ s with pc := .stopped }, [])
    | .handle | .stopped => none

/-- A worker at the start. The variables are zero. -/
def workerStart (zeroed : M) : WorkerState M :=
  ⟨if cfg.handler then .first else .stopped, zeroed, 0, 0, zeroed⟩

/-- The runs of a worker in which all steps meet a condition. -/
def workerSystem (zeroed : M) (C : WorkerState M → WorkerInput M → Prop) :
    Lts (WorkerState M) (WorkerEvent M) :=
  .ofInputs (workerStart cfg zeroed) (workerStep cfg) C

end

/-! ## The messages -/

/-- What has become of the last message. -/
inductive Slot (M : Type)
  /-- There is none, or it is done with. -/
  | done
  /-- It is not handled yet. -/
  | fresh (d : Delivery M)
  /-- It is handled and there is no reply yet. -/
  | handled

/-- The last message after an event. -/
def Slot.next (slot : Slot M) : WorkerEvent M → Slot M
  | .delivered d => .fresh d
  | .handled _ => .handled
  | .replied _ => .done
  | .timeoutHook | .reaped => slot

/-- An event is right: a message comes when the one before is handled, the handler is called with
    a message that is not handled yet, and a reply is sent to one that is handled and has none. -/
def Slot.Allows : Slot M → WorkerEvent M → Prop
  | slot, .delivered _ => ∀ d, slot ≠ .fresh d
  | slot, .handled d => slot = .fresh d
  | slot, .replied _ => slot = .handled
  | _, .timeoutHook | _, .reaped => True

/-- The handler is called exactly once for each message that is delivered, and there is one
    reply to it at most. -/
def OncePerMessage (h : List (WorkerEvent M)) : Prop := Holds Slot.next Slot.Allows .done h

/-- No receive of the loop is cancelled or runs out of time. -/
def NoTimeout (s : WorkerState M) : WorkerInput M → Prop
  | .receiveReturns _ (.failed err _) => s.pc = .replyReceive ∨ s.pc = .receive → ¬isTimeout err
  | _ => True

instance (s : WorkerState M) : (i : WorkerInput M) → Decidable (NoTimeout s i)
  | .receiveReturns _ (.failed err _) =>
    inferInstanceAs (Decidable (s.pc = .replyReceive ∨ s.pc = .receive → ¬isTimeout err))
  | .receiveReturns _ (.delivered _) | .handlerReturns _ _ _ => inferInstanceAs (Decidable True)

/-! ## Steps and runs -/

/-- The last message, as the place of a worker has it: at the call of the handler it is in the
    variables and is not handled yet, and elsewhere it is handled. -/
def WorkerState.Ok (slot : Slot M) (s : WorkerState M) : Prop :=
  match s.pc with
  | .handle => slot = .fresh ⟨s.msg, s.badge, s.source⟩
  | .replyReceive => slot = .handled
  | .first | .receive | .recover | .stopped => ∀ d, slot ≠ .fresh d

/-- What a part of a run does: its events are right, and the last message is where the worker
    is then. -/
structure Serves (slot : Slot M) (es : List (WorkerEvent M)) (s : WorkerState M) : Prop where
  holds : Holds Slot.next Slot.Allows slot es
  ok : s.Ok (replay Slot.next slot es)

section

variable {cfg : WorkerConfig} {slot : Slot M} {s s' : WorkerState M} {i : WorkerInput M}
  {es : List (WorkerEvent M)} {d : Delivery M}

/-- The calls that have nothing to do with messages. -/
theorem serves_timeoutEvents (h : s.Ok slot) : Serves slot (timeoutEvents cfg) s := by
  rw [timeoutEvents]
  split
  · exact ⟨⟨True.intro, True.intro⟩, h⟩
  · exact ⟨True.intro, h⟩

theorem serves_reapEvents (h : s.Ok slot) : Serves slot (reapEvents cfg) s := by
  rw [reapEvents]
  split
  · exact ⟨⟨True.intro, True.intro⟩, h⟩
  · exact ⟨True.intro, h⟩

/-- A message is delivered. -/
theorem serves_deliver (h : ∀ d, slot ≠ .fresh d)
    (hes : Serves (.fresh d) es (s.deliver d)) : Serves slot (.delivered d :: es) (s.deliver d) :=
  ⟨⟨h, hes.holds⟩, hes.ok⟩

/-- The receive of the loop, when its time is not up. -/
theorem serves_loopReceive {r : Received M} (h : ∀ d, slot ≠ .fresh d)
    (hr : ∀ err hne, r = .failed err hne → ¬isTimeout err) :
    Serves slot (loopReceive cfg s r).2 (loopReceive cfg s r).1 := by
  cases r with
  | delivered d => exact serves_deliver h (serves_reapEvents rfl)
  | failed err hne =>
    rw [loopReceive, if_neg (hr err hne rfl)]
    exact ⟨True.intro, h⟩

/-- A step of a worker. -/
theorem workerStep_serves (h : s.Ok slot) (hno : NoTimeout s i)
    (hstep : workerStep cfg s i = some (s', es)) : Serves slot es s' := by
  cases i with
  | handlerReturns control msg reply =>
    obtain ⟨hpc, rfl, rfl⟩ := guarded_inj hstep
    rw [WorkerState.Ok, hpc] at h
    refine ⟨⟨h, True.intro⟩, ?_⟩
    cases control with
    | reply => exact rfl
    | skipReply | exit => exact nofun
  | receiveReturns sent r =>
    have htime : s.pc = .replyReceive ∨ s.pc = .receive →
        ∀ err hne, r = .failed err hne → ¬isTimeout err := by
      rintro hpc err hne rfl
      exact hno hpc
    cases hpc : s.pc <;> simp only [workerStep, hpc] at hstep <;> rw [WorkerState.Ok, hpc] at h
    case first =>
      cases r with
      | delivered d =>
        obtain ⟨rfl, rfl⟩ := step_inj hstep
        exact serves_deliver h ⟨True.intro, rfl⟩
      | failed err hne =>
        simp only at hstep
        split at hstep <;> obtain ⟨rfl, rfl⟩ := step_inj hstep
        · refine serves_timeoutEvents ?_
          rw [WorkerState.Ok, hpc]
          exact h
        · exact ⟨True.intro, h⟩
    case replyReceive =>
      obtain ⟨rfl, rfl⟩ := step_inj hstep
      subst h
      split
      · have hdone : Serves (.done : Slot M) (loopReceive cfg s r).2 (loopReceive cfg s r).1 :=
          serves_loopReceive nofun (htime (.inl hpc))
        exact ⟨⟨rfl, hdone.holds⟩, hdone.ok⟩
      · exact serves_loopReceive nofun (htime (.inl hpc))
    case receive =>
      have hserves : Serves slot (loopReceive cfg s r).2 (loopReceive cfg s r).1 :=
        serves_loopReceive h (htime (.inr hpc))
      rwa [Option.some.inj hstep] at hserves
    case recover =>
      cases r with
      | delivered d =>
        obtain ⟨rfl, rfl⟩ := step_inj hstep
        exact serves_deliver h (serves_reapEvents rfl)
      | failed err hne =>
        obtain ⟨rfl, rfl⟩ := step_inj hstep
        exact ⟨True.intro, h⟩
    all_goals cases hstep

/-- In every run of a worker in which no receive of the loop is cancelled or runs out of time,
    the handler is called exactly once for each message that is delivered, and there is one reply
    to it at most. A message that is not handled yet is the one that the worker is about to
    call the handler with. -/
theorem worker_oncePerMessage {zeroed : M} {h : List (WorkerEvent M)}
    (hr : (workerSystem cfg zeroed NoTimeout).Reaches s h) :
    OncePerMessage h ∧ ∀ d, replay Slot.next .done h = .fresh d →
      s.pc = .handle ∧ d = ⟨s.msg, s.badge, s.source⟩ := by
  have hserves : Serves .done h s := by
    refine hr.invariant (P := fun s h => Serves .done h s) ?_ ?_
    · rintro s rfl
      refine ⟨True.intro, ?_⟩
      rw [WorkerState.Ok, workerStart]
      cases cfg.handler <;> exact nofun
    · rintro s h es s' ⟨hholds, hok⟩ ⟨i, hno, hstep⟩
      obtain ⟨hes, hok'⟩ := workerStep_serves hok hno hstep
      exact ⟨(holds_append _ _).2 ⟨hholds, hes⟩, (replay_append h es).symm ▸ hok'⟩
  refine ⟨hserves.holds, fun d hd => ?_⟩
  have hok := hserves.ok
  rw [hd] at hok
  cases hpc : s.pc <;> rw [WorkerState.Ok, hpc] at hok
  case handle => exact ⟨rfl, Slot.fresh.inj hok⟩
  case replyReceive => cases hok
  all_goals exact absurd rfl (hok d)

end

/-- A message is handled and replied to, and the next one is there. -/
theorem worker_oncePerMessage_twoMessages :
    OncePerMessage ([.delivered ⟨7, 1, 0⟩, .handled ⟨7, 1, 0⟩, .replied 9, .delivered ⟨8, 1, 0⟩] :
        List (WorkerEvent ℕ)) ∧
      ∀ d, replay Slot.next .done [.delivered ⟨7, 1, 0⟩, .handled ⟨7, 1, 0⟩, .replied 9,
        .delivered ⟨8, 1, 0⟩] = .fresh d → WorkerPc.handle = .handle ∧ d = ⟨8, 1, 0⟩ := by
  have hfeed : Lts.feed (workerStep ⟨1, true, true⟩) NoTimeout
      [.receiveReturns false (.delivered ⟨7, 1, 0⟩), .handlerReturns .reply 7 9,
        .receiveReturns true (.delivered ⟨8, 1, 0⟩)] (workerStart ⟨1, true, true⟩ 0, []) =
      some (⟨.handle, 8, 1, 0, 9⟩, [.delivered ⟨7, 1, 0⟩, .handled ⟨7, 1, 0⟩, .replied 9,
        .delivered ⟨8, 1, 0⟩]) := rfl
  exact worker_oncePerMessage (Lts.reaches_feed (.init rfl) hfeed)

/-- A message is handled and replied to, and the time for the next one is up. -/
def handledTwice : List (WorkerEvent ℕ) :=
  [.delivered ⟨7, 1, 0⟩, .handled ⟨7, 1, 0⟩, .replied 9, .timeoutHook, .handled ⟨7, 1, 0⟩,
    .replied 9, .delivered ⟨8, 1, 0⟩]

/-- Then the message is handled again and there is another reply to it. -/
theorem worker_handledTwice :
    (workerSystem ⟨1, true, true⟩ 0 fun _ _ => True).Reaches ⟨.handle, 8, 1, 0, 9⟩ handledTwice ∧
      ¬OncePerMessage handledTwice := by
  refine ⟨?_, ?_⟩
  · have hfeed : Lts.feed (workerStep ⟨1, true, true⟩) (fun _ _ => True)
        [.receiveReturns false (.delivered ⟨7, 1, 0⟩), .handlerReturns .reply 7 9,
          .receiveReturns true (.failed tronaTimedOut (by decide)), .handlerReturns .reply 7 9,
          .receiveReturns true (.delivered ⟨8, 1, 0⟩)] (workerStart ⟨1, true, true⟩ 0, []) =
        some (⟨.handle, 8, 1, 0, 9⟩, handledTwice) := rfl
    exact Lts.reaches_feed (.init rfl) hfeed
  · rintro ⟨-, -, -, -, hagain, -⟩
    cases hagain

end Worker

end Trona
