import Trona.Lib.File
import Trona.Lib.Wp
import Trona.Uapi.Status

/-!
# Calls to servers

How the POSIX layer calls a server (`posix/lib.rs`). A signal interrupts a call in one of
two ways: before the server has received the request, which the kernel reports as
`RESTART`, or after it, while the reply is awaited, which is `INTERRUPTED`. In the second
case the server has done what it was asked for and the reply is lost.

A server is a function of the request and of its state, and of a choice that it is free to
make (`Server`). What becomes of a call is given by its attempts: a run of a function is
determined by the lists of attempts of its calls, and waits where they end.
-/

namespace Trona

namespace Posix

/-! ## Error numbers -/

/-- The arms of `trona_err_to_posix`, in their order. -/
def errnos : List (ℕ × ℤ) :=
  [(tronaOk, 0), (tronaNotFound, -2), (tronaAlreadyExists, -17), (tronaSlotOccupied, -17),
    (tronaAlreadyMapped, -17), (tronaInvalidArgument, -22), (tronaOutOfMemory, -12),
    (tronaBusy, -16), (tronaAlreadyBound, -16), (tronaWouldBlock, -11), (tronaInProgress, -115),
    (tronaBadAddress, -14), (tronaInsufficientRights, -13), (tronaInvalidCapability, -9),
    (tronaInterrupted, -4), (tronaDeadlock, -35), (tronaInvalidOperation, -1),
    (tronaOutOfRange, -34), (tronaCancelled, -125), (tronaConnRefused, -111),
    (tronaTimedOut, -110), (tronaProtoNotSupported, -93), (tronaHostUnreachable, -113),
    (tronaNetUnreachable, -101), (tronaNoBufs, -105), (tronaConnReset, -104),
    (tronaNotConnected, -107), (tronaIsConnected, -106), (tronaAddrInUse, -98),
    (tronaDnsNxdomain, -2), (tronaDnsServerFail, -5)]

/-- The error number for the label of a reply. The first arm with the label counts. -/
def tronaErrToPosix (label : ℕ) : ℤ := (errnos.lookup label).getD (-5)

/-- The error number for the error of a call. -/
def callErrToPosix (err : ℤ) : ℤ := tronaErrToPosix (err % 2 ^ 64).toNat

theorem tronaErrToPosix_neg {label : ℕ} (h : label ≠ tronaOk) : tronaErrToPosix label < 0 := by
  have harms : ∀ arm ∈ errnos, arm.1 ≠ tronaOk → arm.2 < 0 := by decide
  rw [tronaErrToPosix]
  cases hlookup : errnos.lookup label with
  | none => decide
  | some errno =>
    rw [List.lookup_eq_some_iff] at hlookup
    obtain ⟨l₁, l₂, heq, -⟩ := hlookup
    exact harms (label, errno) (by rw [heq]; simp) h

/-- The errors that a call returns: a 32-bit number. -/
theorem callErrToPosix_neg {err : ℤ} (h : err ≠ 0) (hlo : -2 ^ 31 ≤ err) (hhi : err < 2 ^ 31) :
    callErrToPosix err < 0 := by
  refine tronaErrToPosix_neg ?_
  simp only [tronaOk]
  omega

/-! ## Messages and servers -/

/-- A message, `TronaMsg`. Bytes may be packed into the registers that follow the ones in
    `regs`. -/
structure Msg where
  label : ℕ := 0
  length : ℕ := 0
  regs : List ℕ := []
  data : List UInt8 := []
  deriving DecidableEq

/-- The register with a number. -/
def Msg.reg (m : Msg) (i : ℕ) : ℕ := m.regs.getD i 0

/-- A descriptor in a register. -/
def fdReg (fd : ℤ) : ℕ := (fd % 2 ^ 64).toNat

/-- What a server does with a request, by a choice of its own: its reply, and its state
    after that. -/
abbrev Server (κ S : Type) := κ → Msg → S → Msg × S

/-- An error of a call other than the two interruptions. -/
structure CallError where
  err : ℤ
  ne_zero : err ≠ 0
  ne_restart : err ≠ tronaRestart
  ne_interrupted : err ≠ tronaInterrupted
  le : -2 ^ 31 ≤ err
  lt : err < 2 ^ 31
  deriving DecidableEq

/-- The endpoint of the server is not there. -/
def CallError.invalidCapability : CallError :=
  ⟨tronaInvalidCapability, by decide, by decide, by decide, by decide, by decide⟩

/-- What becomes of one attempt to call a server. An interruption after the delivery comes
    with what `__sig_last_restart` is then: all signals had `SA_RESTART`. -/
inductive Attempt (κ : Type)
  | restart
  | interrupted (choice : κ) (lastRestart : Bool)
  | failed (e : CallError)
  | answered (choice : κ)
  deriving DecidableEq

/-- What a call leaves for its caller: the error, the reply, and `__sig_last_restart`. -/
structure CallResult where
  err : ℤ
  reply : Msg := {}
  lastRestart : Bool := false
  deriving DecidableEq

/-- A function that calls servers waits when its next call does not return. -/
inductive Waiting
  | waiting
  deriving DecidableEq

abbrev CallM (S : Type) := EStateM Waiting S

section

variable {κ S : Type} (srv : Server κ S) (msg : Msg)

/-- The system call, for one attempt. -/
def callCtx : Attempt κ → CallM S CallResult
  | .restart => return { err := tronaRestart }
  | .interrupted c lastRestart => do
    modify fun s => (srv c msg s).2
    return { err := tronaInterrupted, lastRestart }
  | .failed e => return { err := e.err }
  | .answered c => do
    let s ← get
    modify fun s => (srv c msg s).2
    return { err := 0, reply := (srv c msg s).1 }

section Wp

variable {srv msg} {Q : CallResult → S → Prop} {E : Waiting → S → Prop} {s : S} {c : κ}

@[simp] theorem wp_callCtx_restart :
    wp (callCtx srv msg .restart) Q E s ↔ Q { err := tronaRestart } s := by
  simp only [callCtx, wp_pure]

@[simp] theorem wp_callCtx_interrupted {lastRestart : Bool} :
    wp (callCtx srv msg (.interrupted c lastRestart)) Q E s ↔
      Q { err := tronaInterrupted, lastRestart } (srv c msg s).2 := by
  simp only [callCtx, wp_bind, wp_modify, wp_pure]

@[simp] theorem wp_callCtx_failed {e : CallError} :
    wp (callCtx srv msg (.failed e)) Q E s ↔ Q { err := e.err } s := by
  simp only [callCtx, wp_pure]

@[simp] theorem wp_callCtx_answered :
    wp (callCtx srv msg (.answered c)) Q E s ↔
      Q { err := 0, reply := (srv c msg s).1 } (srv c msg s).2 := by
  simp only [callCtx, wp_bind, wp_get, wp_modify, wp_pure]

end Wp

/-- The attempts of a call that is repeated while the server has not received it: some that
    it has not, and the last one. -/
structure Retried (κ : Type) where
  restarts : ℕ
  last : Attempt κ
  last_ne : last ≠ .restart
  deriving DecidableEq

/-- The loop of `ipc_call_retry`. -/
def retryLoop (last : Attempt κ) : (restarts : ℕ) → CallM S CallResult
  | 0 => callCtx srv msg last
  | n + 1 => do
    let r ← callCtx srv msg .restart
    if r.err = tronaRestart then retryLoop last n else return r

/-- Call a server, and again as long as it has not received the request. -/
def ipcCallRetry (o : Retried κ) : CallM S CallResult := retryLoop srv msg o.last o.restarts

theorem ipcCallRetry_eq (o : Retried κ) : ipcCallRetry srv msg o = callCtx srv msg o.last := by
  rw [ipcCallRetry]
  induction o.restarts with
  | zero => rfl
  | succ n ih =>
    rw [← ih]
    rfl

/-- An interruption of a call that is repeated after all of them: before the delivery, or
    after it. -/
inductive Interruption (κ : Type)
  | restart
  | interrupted (choice : κ)
  deriving DecidableEq

/-- The attempts of a call that is repeated after every interruption. The last one is not an
    interruption. -/
structure Repeated (κ : Type) where
  interruptions : List (Interruption κ)
  last : CallError ⊕ κ
  deriving DecidableEq

/-- The attempt that is interrupted. -/
def Interruption.attempt : Interruption κ → Attempt κ
  | .restart => .restart
  | .interrupted c => .interrupted c false

/-- The last attempt. -/
def Repeated.lastAttempt (o : Repeated κ) : Attempt κ := o.last.elim .failed .answered

/-- The loop of `ipc_call_retry_idempotent`. -/
def repeatLoop (last : Attempt κ) : List (Interruption κ) → CallM S CallResult
  | [] => callCtx srv msg last
  | i :: is => do
    let r ← callCtx srv msg i.attempt
    if r.err = tronaRestart ∨ r.err = tronaInterrupted then repeatLoop last is else return r

/-- Call a server, and again after every interruption. -/
def ipcCallRetryIdempotent (o : Repeated κ) : CallM S CallResult :=
  repeatLoop srv msg o.lastAttempt o.interruptions

end

end Posix

end Trona
