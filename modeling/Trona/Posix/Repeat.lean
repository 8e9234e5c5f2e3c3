import Trona.Posix.Transfer

/-!
# Calls that are made again

`posix_lseek`, `posix_readdir` (`posix/file.rs`) and `posix_fcntl` (`posix/misc.rs`) send
their request again after every interruption. A server that had received it serves it twice.

The server is no part of this repository, so it is any function of a request and a state. The
interruptions go unnoticed exactly when serving the request once more, in the state that the
first delivery leaves, changes neither this state nor the result: `transparent_iff`, and
`posixRetry_iff` for the three functions.
-/

namespace Trona

namespace Posix

/-! ## Repeated calls to any server -/

section

variable {S ρ : Type} (srv : Server Unit S) (msg : Msg)

/-- The state that a delivered request leaves. -/
def Server.after (s : S) : S := (srv () msg s).2

/-- The attempts of a call with some interruptions, answered in the end. -/
def answeredAfter (is : List (Interruption Unit)) : Repeated Unit := ⟨is, .inr ()⟩

/-- Whatever interruptions there are, a function that makes the call ends in the same state
    and with the same result as without them. -/
def Transparent (f : Repeated Unit → CallM S ρ) (s : S) : Prop :=
  ∀ is, (f (answeredAfter is)).run s = (f (answeredAfter [])).run s

/-- The server can serve the request again: a second delivery, in the state that the first one
    leaves, changes neither this state nor what the caller makes of the reply. -/
def Repeatable (f : CallResult → ρ) (s : S) : Prop :=
  srv.after msg (srv.after msg s) = srv.after msg s ∧
    f { err := 0, reply := (srv () msg (srv.after msg s)).1 } =
      f { err := 0, reply := (srv () msg s).1 }

variable {srv msg} {s : S}

/-- How many of the interrupted requests were delivered. -/
def delivered (is : List (Interruption Unit)) : ℕ := is.count (.interrupted ())

/-- After some deliveries the call returns the reply to the next one. -/
theorem ipcCallRetryIdempotent_run (is : List (Interruption Unit)) :
    (ipcCallRetryIdempotent srv msg (answeredAfter is)).run s =
      .ok { err := 0, reply := (srv () msg ((srv.after msg)^[delivered is] s)).1 }
        ((srv.after msg)^[delivered is + 1] s) := by
  change (repeatLoop srv msg (.answered ()) is).run s = _
  induction is generalizing s with
  | nil => rfl
  | cons i is ih =>
    cases i with
    | restart => exact ih
    | interrupted c =>
      rw [delivered, List.count_cons_self, Function.iterate_succ, Function.iterate_succ,
        Function.comp_apply, Function.comp_apply]
      exact ih

variable {f : CallResult → ρ}

/-- Interruptions are not noticed if and only if one more delivery is not. -/
theorem transparent_iff :
    Transparent (fun o => do let r ← ipcCallRetryIdempotent srv msg o; return f r) s ↔
      Repeatable srv msg f s := by
  have hrun : ∀ is,
      (ipcCallRetryIdempotent srv msg (answeredAfter is) >>= fun r => pure (f r)).run s =
      .ok (f { err := 0, reply := (srv () msg ((srv.after msg)^[delivered is] s)).1 })
        ((srv.after msg)^[delivered is + 1] s) := by
    intro is
    rw [EStateM.run_bind, ipcCallRetryIdempotent_run]
    rfl
  constructor
  · intro h
    have h₁ := h [.interrupted ()]
    rw [hrun, hrun] at h₁
    obtain ⟨hreply, hstate⟩ := EStateM.Result.ok.inj h₁
    exact ⟨hstate, hreply⟩
  · rintro ⟨hstate, hreply⟩ is
    rw [hrun, hrun]
    cases hn : delivered is with
    | zero => rfl
    | succ n =>
      -- from the first delivery on the state stays the same
      have hfix : (srv.after msg)^[n] (srv.after msg s) = srv.after msg s :=
        Function.iterate_fixed hstate n
      rw [Function.iterate_succ_apply' _ (n + 1), Function.iterate_succ_apply, hfix, hstate, hreply]
      rfl

end

/-! ## The functions -/

/-- `VFS_LSEEK`. -/
def vfsLseekLabel : ℕ := 6

/-- `VFS_POSIX_READDIR`. -/
def vfsPosixReaddirLabel : ℕ := 14

/-- `VFS_POSIX_FCNTL`. -/
def vfsPosixFcntlLabel : ℕ := 35

/-- A signed number in a register. -/
def signedReg (x : ℤ) : ℕ := (x % 2 ^ 64).toNat

/-- The low half of a register as a signed number. -/
def toI32 (n : ℕ) : ℤ := if n % 2 ^ 32 < 2 ^ 31 then (n % 2 ^ 32 : ℕ) else (n % 2 ^ 32 : ℕ) - 2 ^ 32

section

variable {κ S : Type} (srv : Server κ S)

def lseekMsg (fd offset whence : ℤ) : Msg where
  label := vfsLseekLabel
  length := 3
  regs := [fdReg fd, signedReg offset, signedReg whence]

/-- What `posix_lseek` and `posix_fcntl` return: an error, or a number made from the first
    register of the reply. -/
def regOrError (conv : ℕ → ℤ) (r : CallResult) : ℤ :=
  if r.err ≠ 0 then callErrToPosix r.err
  else if r.reply.label ≠ tronaOk then tronaErrToPosix r.reply.label
  else conv (r.reply.reg 0)

def posixLseek (fd offset whence : ℤ) (call : Repeated κ) : CallM S ℤ := do
  let r ← ipcCallRetryIdempotent srv (lseekMsg fd offset whence) call
  return regOrError toI64 r

def fcntlMsg (fd cmd arg : ℤ) : Msg where
  label := vfsPosixFcntlLabel
  length := 3
  regs := [fdReg fd, signedReg cmd, signedReg arg]

def posixFcntl (fd cmd arg : ℤ) (call : Repeated κ) : CallM S ℤ := do
  let r ← ipcCallRetryIdempotent srv (fcntlMsg fd cmd arg) call
  return regOrError toI32 r

/-- A directory entry, `TronaDirent`. -/
structure TronaDirent where
  ino : ℕ
  type : ℕ
  namlen : ℕ
  name : List UInt8
  deriving DecidableEq

/-- The name of an entry is copied over the first bytes of the one that is there, with a
    zero after it. -/
def copyName (nameLen : ℕ) (src old : List UInt8) : List UInt8 :=
  let maxCopy := if nameLen < 127 then nameLen else 127
  (List.range maxCopy).map (fun i => src.getD i 0) ++ 0 :: old.drop (maxCopy + 1)

def readdirMsg (dirFd : ℤ) : Msg where
  label := vfsPosixReaddirLabel
  length := 1
  regs := [fdReg dirFd]

/-- What `posix_readdir` returns, and the entry, which may be missing. -/
def readdirResult (entry : Option TronaDirent) (r : CallResult) : ℤ × Option TronaDirent :=
  if r.err ≠ 0 ∨ r.reply.label ≠ tronaOk then (0, entry)
  else
    let nameLen := r.reply.reg 0 % 2 ^ 8
    if nameLen = 0 then (0, entry)
    else (1, entry.map fun e =>
      { namlen := nameLen
        ino := r.reply.reg 2
        type := r.reply.reg 3 % 2 ^ 8
        name := copyName nameLen r.reply.data e.name })

def posixReaddir (dirFd : ℤ) (entry : Option TronaDirent) (call : Repeated κ) :
    CallM S (ℤ × Option TronaDirent) := do
  let r ← ipcCallRetryIdempotent srv (readdirMsg dirFd) call
  return readdirResult entry r

end

/-! ## Which requests can be repeated -/

section

variable {S : Type} (srv : Server Unit S) (s : S) (fd offset whence cmd arg : ℤ)
  (entry : Option TronaDirent)

/-- For every server, in every state of it, and for every call: whatever interruptions there
    are, the function ends with the result and in the state of an uninterrupted call, if and
    only if the server can serve its request again. -/
theorem posixRetry_iff :
    (Transparent (posixLseek srv fd offset whence) s ↔
        Repeatable srv (lseekMsg fd offset whence) (regOrError toI64) s) ∧
      (Transparent (posixReaddir srv fd entry) s ↔
        Repeatable srv (readdirMsg fd) (readdirResult entry) s) ∧
      (Transparent (posixFcntl srv fd cmd arg) s ↔
        Repeatable srv (fcntlMsg fd cmd arg) (regOrError toI32) s) :=
  ⟨transparent_iff, transparent_iff, transparent_iff⟩

end

/-- A process at its server: the place in its file, how many entries of its directory are not
    read yet, and the lowest descriptor that is free. -/
structure OpenFiles where
  cursor : ℤ
  entriesLeft : ℕ
  freeFd : ℕ

/-- A server that seeks from the cursor, reads the next entry and copies a descriptor. -/
def openFilesServer : Server Unit OpenFiles := fun _ msg s =>
  if msg.label = vfsLseekLabel then
    let target := s.cursor + toI64 (msg.reg 1)
    ({ label := tronaOk, regs := [signedReg target] }, { s with cursor := target })
  else if msg.label = vfsPosixReaddirLabel then
    if s.entriesLeft = 0 then ({ label := tronaOk, regs := [0] }, s)
    else ({ label := tronaOk, regs := [1, 0, 5, 8], data := [97] },
      { s with entriesLeft := s.entriesLeft - 1 })
  else ({ label := tronaOk, regs := [s.freeFd] }, { s with freeFd := s.freeFd + 1 })

/-- After one lost reply the cursor has moved twice, the only entry of the directory is
    skipped, and a copy of the descriptor is left over. -/
theorem posixRetry_noticed :
    ¬Transparent (posixLseek openFilesServer 0 3 1) ⟨0, 1, 1⟩ ∧
      ¬Transparent (posixReaddir openFilesServer 0 none) ⟨0, 1, 1⟩ ∧
      ¬Transparent (posixFcntl openFilesServer 0 0 0) ⟨0, 1, 1⟩ := by
  refine ⟨fun h => ?_, fun h => ?_, fun h => ?_⟩
  · have hret : (6 : ℤ) = 3 := (EStateM.Result.ok.inj (h [.interrupted ()])).1
    cases hret
  · have hret : ((0 : ℤ), (none : Option TronaDirent)) = (1, none) :=
      (EStateM.Result.ok.inj (h [.interrupted ()])).1
    cases hret
  · have hret : (2 : ℤ) = 1 := (EStateM.Result.ok.inj (h [.interrupted ()])).1
    cases hret

end Posix

end Trona
