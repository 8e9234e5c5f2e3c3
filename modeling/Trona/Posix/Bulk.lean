import Trona.Lib.Threads
import Trona.Posix.Pwrite
import Trona.Posix.Read

/-!
# Bulk transfers of several threads

`bulk_read` and `bulk_pwrite` (`posix/bulk.rs`) move data through memory that a process shares
with VFS. The first call sets it up; threads that come meanwhile sleep until this is done. After
that every thread uses the one memory: a read lets VFS put the data there and copies it out, a
write copies the data in and lets VFS fetch it.

Only the set-up keeps the threads apart. When a thread writes to the memory while another one is
between the two halves of a transfer, the data of the two are mixed up (`bulk_mixedUp`). When
this does not happen, each thread gets what VFS has read for it, and VFS writes what the thread
has in its buffer (`bulk_isolated`).
-/

namespace Trona

namespace Posix

/-! ## The servers -/

/-- `MM_SHM_CREATE`. -/
def mmShmCreateLabel : ℕ := 0x8A

/-- `MM_SHM_MAP`. -/
def mmShmMapLabel : ℕ := 0x8B

/-- `VFS_BULK_SETUP`. -/
def vfsBulkSetupLabel : ℕ := 64

/-- What the servers work on: the memory, where it is mapped for the process, and the data that
    VFS has moved for a request. -/
structure ShmWorld where
  shm : Bytes
  mapped : List ℕ
  moved : List UInt8

/-- A server refuses, or it does as it is asked. Then it is free to choose the number, which is
    an address or says how many bytes it takes, and the bytes that it has for a read. -/
inductive Served
  | refused (label : ℕ)
  | served (n : ℕ) (bytes : List UInt8)
  deriving DecidableEq

/-- The requests for the memory, to the server for memory and to VFS. -/
def serveShm : Server Served ShmWorld := fun c msg w =>
  match c with
  | .refused label => ({ label }, w)
  | .served n bytes =>
    if msg.label = mmShmCreateLabel then ({ label := tronaOk }, { w with shm := fun _ => 0 })
    else if msg.label = mmShmMapLabel then
      ({ label := tronaOk, regs := [n] }, { w with mapped := n :: w.mapped })
    else if msg.label = vfsBulkReadLabel then
      let data := bytes.take (msg.reg 1)
      ({ label := tronaOk, regs := [data.length] },
        { w with shm := w.shm.put (msg.reg 2) data, moved := data })
    else if msg.label = vfsBulkPwriteLabel then
      let data := (w.shm.slice (msg.reg 3) (msg.reg 1)).take n
      ({ label := tronaOk, regs := [data.length] }, { w with moved := data })
    else ({ label := tronaOk }, w)

/-! ## The threads -/

/-- `BULK_SHM_STATE`. -/
inductive ShmState
  | uninit
  | initing
  | ready
  deriving DecidableEq

/-- What the threads share: `BULK_SHM_STATE`, `BULK_SHM_ADDR` and the memory, which is mapped at
    some addresses. -/
structure BulkShared where
  state : ShmState
  addr : ℕ
  shm : Bytes
  mapped : List ℕ

inductive BulkOp
  | read
  | pwrite (offset : ℕ)
  deriving DecidableEq

/-- A call of `bulk_read` or of `bulk_pwrite`. -/
structure BulkCall where
  op : BulkOp
  fd : ℤ
  count : ℕ
  count_lt : count < 2 ^ 64

/-- The places of a thread. -/
inductive BulkPc
  /-- Not in a call, with what the last one has returned. -/
  | idle (ret : Option (Option ℕ))
  /-- `ensure_bulk_shm`: at the load of the state. -/
  | load
  | wait
  | asleep
  /-- `ensure_bulk_shm`: at the exchange of the state. -/
  | cas
  /-- `ensure_bulk_shm`: at the load of the address. -/
  | checkAddr
  | create
  | map
  | storeAddr (addr : ℕ)
  | setup
  /-- `finish_bulk_shm_setup`: at the store of the state. -/
  | finish (success : Bool)
  /-- `finish_bulk_shm_setup`: at the futex wake. -/
  | wake (success : Bool)
  /-- The memory is ready. -/
  | loadAddr
  /-- `bulk_pwrite`: at the copy to the memory. -/
  | copyIn
  /-- At the call to VFS for a chunk. -/
  | request
  /-- `bulk_read`: at the copy from the memory. -/
  | copyOut (got : ℕ)
  deriving DecidableEq

/-- A thread: where it is in which call, the variables of the functions, and its buffer. Not
    variables of the program are `answer`, what VFS has moved for the last request, and `moved`:
    of a read, what VFS has read for the chunks that are copied out; of a write, what VFS has
    written. -/
structure BulkLoc where
  pc : BulkPc
  call : BulkCall
  shmAddr : ℕ
  total : ℕ
  buf : Bytes
  answer : List UInt8
  moved : List UInt8

inductive BulkChoice
  | call (call : BulkCall) (buf : Bytes)
  | op
  | ipc (o : Retried Served)

namespace BulkLoc

variable (l : BulkLoc)

def goto (pc : BulkPc) : BulkLoc := { l with pc }

/-- The function returns. -/
def ret (r : Option ℕ) : BulkLoc := { l with pc := .idle (some r) }

/-- The size of the next chunk. -/
def chunk : ℕ := min (l.call.count - l.total) bulkShmSize

/-- The head of the loop. -/
def head : BulkLoc :=
  if l.total < l.call.count then
    match l.call.op with
    | .read => l.goto .request
    | .pwrite _ => l.goto .copyIn
  else l.ret (some l.total)

/-- The end of the loop, when `n` bytes of the chunk are moved. -/
def advance (n : ℕ) : BulkLoc :=
  let l' := { l with total := (l.total + n) % 2 ^ 64 }
  if n < l.chunk then l'.ret (some l'.total) else l'.head

/-- The request for the next chunk. -/
def msg : Msg :=
  match l.call.op with
  | .read => bulkReadMsg l.call.fd l.chunk
  | .pwrite offset => bulkPwriteMsg l.call.fd (offset + l.total) l.chunk

/-- What is returned when a chunk cannot be moved. -/
def partialRet : Option ℕ := if l.total > 0 then some l.total else none

/-- After the call to VFS. -/
def replied (r : CallResult) : BulkLoc :=
  if r.err = tronaInterrupted then l.ret none
  else if r.Failed then l.ret l.partialRet
  else
    let got := r.reply.reg 0
    if got = 0 then l.ret (some l.total)
    else
      match l.call.op with
      | .read => l.goto (.copyOut got)
      | .pwrite _ => l.advance got

/-- The bytes that VFS has moved for a request are noted. -/
def note (moved : List UInt8) : BulkLoc :=
  match l.call.op with
  | .read => { l with answer := moved }
  | .pwrite _ => { l with answer := moved, moved := l.moved ++ moved }

end BulkLoc

/-- A call to a server. -/
def BulkShared.call (s : BulkShared) (msg : Msg) (o : Retried Served) :
    Option (CallResult × ShmWorld) :=
  match ipcCallRetry serveShm msg o ⟨s.shm, s.mapped, []⟩ with
  | .ok r w => some (r, w)
  | .error _ _ => none

/-- The request to create the memory. -/
def shmCreateMsg (shmId : ℕ) : Msg where
  label := mmShmCreateLabel
  length := 2
  regs := [shmId, bulkShmPages]

/-- The request to map the memory for the process, at any address. -/
def shmMapMsg (shmId : ℕ) : Msg where
  label := mmShmMapLabel
  length := 4
  regs := [shmId, 0, 0, 0x3]

/-- The request to VFS to map the memory. -/
def bulkSetupMsg (shmId : ℕ) : Msg where
  label := vfsBulkSetupLabel
  length := 2
  regs := [shmId, bulkShmPages]

/-- A step of the set-up that is a call to a server. The error of the call is not looked at: the
    reply is zero then, and zero is the label for success. -/
def setupCall (s : BulkShared) (l : BulkLoc) (msg : Msg) (o : Retried Served)
    (next : Msg → BulkPc) : Option (BulkShared × BulkLoc) :=
  (s.call msg o).map fun p =>
    ({ s with shm := p.2.shm, mapped := p.2.mapped }, l.goto (next p.1.reply))

/-- A step of a thread. The process may have no endpoints of the servers (`caps`); `shmId` is
    the number of its memory. A copy from or to an address that is not mapped is a fault. -/
def BulkLoc.step (caps : Bool) (shmId : ℕ) (c : BulkChoice) (s : BulkShared) (l : BulkLoc) :
    Option (BulkShared × BulkLoc) :=
  match l.pc, c with
  | .idle _, .call call buf => some (s, ⟨.load, call, 0, 0, buf, [], []⟩)
  | .load, .op =>
    match s.state with
    | .ready => some (s, l.goto .loadAddr)
    | .initing => some (s, l.goto .wait)
    | .uninit => some (s, l.goto .cas)
  | .wait, .op => some (s, l.goto (if s.state = .initing then .asleep else .load))
  | .asleep, .op => some (s, l.goto .load)
  | .cas, .op =>
    if s.state = .uninit then
      some ({ s with state := .initing }, l.goto (if caps then .checkAddr else .finish false))
    else some (s, l.goto .load)
  | .checkAddr, .op => some (s, l.goto (if s.addr = 0 then .create else .setup))
  | .create, .ipc o => setupCall s l (shmCreateMsg shmId) o fun reply =>
      if reply.label ≠ tronaOk ∧ reply.label ≠ tronaAlreadyExists then .finish false else .map
  | .map, .ipc o => setupCall s l (shmMapMsg shmId) o fun reply =>
      if reply.label ≠ tronaOk then .finish false else .storeAddr (reply.reg 0)
  | .storeAddr addr, .op => some ({ s with addr }, l.goto .setup)
  | .setup, .ipc o => setupCall s l (bulkSetupMsg shmId) o fun reply =>
      if reply.label ≠ tronaOk then .finish false else .finish true
  | .finish success, .op =>
    some ({ s with state := if success then .ready else .uninit }, l.goto (.wake success))
  | .loadAddr, .op => some (s, { l with shmAddr := s.addr }.head)
  | .copyIn, .op =>
    match l.call.op with
    | .pwrite offset =>
      if l.shmAddr ∈ s.mapped then
        some ({ s with shm := s.shm.put 0 (l.buf.slice l.total l.chunk) },
          if offset + l.total < 2 ^ 64 then l.goto .request else l.ret l.partialRet)
      else none
    | .read => none
  | .request, .ipc o => (s.call l.msg o).map fun p =>
      ({ s with shm := p.2.shm, mapped := p.2.mapped }, (l.note p.2.moved).replied p.1)
  | .copyOut got, .op =>
    if l.shmAddr ∈ s.mapped then
      some (s, { l with
        buf := l.buf.put l.total (s.shm.slice 0 got), moved := l.moved ++ l.answer }.advance got)
    else none
  | _, _ => none

/-- The threads of a process. -/
def bulkMachine (τ : Type) (caps : Bool) (shmId : ℕ) :
    Machine τ BulkShared BulkLoc BulkChoice Unit where
  next _ c s l := l.step caps shmId c s
  sleeping l := if l.pc = .asleep then some () else none
  roused l := if l.pc = .asleep then l.goto .load else l
  waking l :=
    match l.pc with
    | .wake _ => some ((), .all)
    | _ => none
  resumed l :=
    match l.pc with
    | .wake true => l.goto .loadAddr
    | .wake false => l.ret none
    | _ => l

/-- At these places a thread may be between the halves of a transfer, or in no call. -/
def BulkPc.isBetween : BulkPc → Bool
  | idle _ | request | copyOut _ => true
  | _ => false

/-- The thread sets up the memory. -/
def BulkPc.isSetup : BulkPc → Bool
  | checkAddr | create | map | storeAddr _ | setup | finish _ => true
  | _ => false

/-- The thread has found that the memory is set up. -/
def BulkPc.isTransfer : BulkPc → Bool
  | wake true | loadAddr | copyIn | request | copyOut _ => true
  | _ => false

theorem BulkPc.not_isTransfer {pc : BulkPc} (h : pc.isSetup) : ¬pc.isTransfer := by
  cases pc <;> simp_all [isSetup, isTransfer]

/-- What a step of a thread is for the set-up: nothing; its start, which only one thread can
    make; its end. -/
inductive SetupMove (state : ShmState) (pc : BulkPc) : ShmState → BulkPc → Prop
  | stay {pc' : BulkPc} (hsetup : pc'.isSetup → pc.isSetup)
    (htransfer : pc'.isTransfer → pc.isTransfer ∨ state = .ready) : SetupMove state pc state pc'
  | enter {pc' : BulkPc} (hstate : state = .uninit) (hsetup : pc'.isSetup) :
    SetupMove state pc .initing pc'
  | leave (success : Bool) (hsetup : pc.isSetup) :
    SetupMove state pc (if success then .ready else .uninit) (.wake success)

/-- The thread does not begin to set up the memory or to use it. -/
def BulkPc.Keeps (pc pc' : BulkPc) : Prop :=
  (pc'.isSetup → pc.isSetup) ∧ (pc'.isTransfer → pc.isTransfer)

/-- At first there is no memory and no thread is in a call. -/
def bulkInit (τ : Type) : Config τ BulkShared BulkLoc :=
  ⟨⟨.uninit, 0, fun _ => 0, []⟩, fun _ =>
    ⟨.idle none, ⟨.read, 0, 0, by decide⟩, 0, 0, fun _ => 0, [], []⟩⟩

/-- The thread is between the two halves of a transfer: VFS has put data for it into the memory,
    or it has put data there for VFS. -/
def BulkLoc.usesShm (l : BulkLoc) : Bool :=
  match l.pc, l.call.op with
  | .copyOut _, _ | .request, .pwrite _ => true
  | _, _ => false

/-- The next step of a transfer changes the memory. -/
def BulkLoc.writesShm (l : BulkLoc) : Bool :=
  match l.pc, l.call.op with
  | .copyIn, _ | .request, .read => true
  | _, _ => false

/-- No transfer changes the memory while another thread is between the two halves of one. -/
def WritesAlone {τ : Type} (g : Config τ BulkShared BulkLoc) : Act τ BulkChoice → Prop
  | .run t _ => (g.loc t).writesShm → ∀ u, u ≠ t → ¬(g.loc u).usesShm
  | .wake _ _ => True

instance {τ : Type} [Fintype τ] [DecidableEq τ] (g : Config τ BulkShared BulkLoc) :
    (a : Act τ BulkChoice) → Decidable (WritesAlone g a)
  | .run t _ => inferInstanceAs
    (Decidable ((g.loc t).writesShm → ∀ u, u ≠ t → ¬(g.loc u).usesShm))
  | .wake _ _ => inferInstanceAs (Decidable True)

/-- What VFS has moved for the thread is what is in its buffer, and a read returns how much
    this is. -/
structure BulkLoc.Isolated (l : BulkLoc) : Prop where
  bytes : l.buf.slice 0 l.moved.length = l.moved
  returned : ∀ n, l.pc = .idle (some (some n)) → l.call.op = .read → n = l.moved.length

/-! ## Steps -/

section

variable {s s' : BulkShared} {msg : Msg} {o : Retried Served} {r : CallResult} {w : ShmWorld}

/-- A call does what the server chooses. If it has not failed, the reply is there. -/
theorem BulkShared.call_cases (h : s.call msg o = some (r, w)) :
    ∃ c, w = (serveShm c msg ⟨s.shm, s.mapped, []⟩).2 ∧
      (r.Failed ∨ r.reply = (serveShm c msg ⟨s.shm, s.mapped, []⟩).1) := by
  rw [call, ipcCallRetry_eq] at h
  cases hlast : o.last with
  | restart => exact absurd hlast o.last_ne
  | interrupted c restart =>
    rw [hlast] at h
    obtain ⟨rfl, rfl⟩ := step_inj h
    exact ⟨c, rfl, .inl (.inl (by simp [tronaInterrupted]))⟩
  | failed e =>
    rw [hlast] at h
    obtain ⟨rfl, rfl⟩ := step_inj h
    exact ⟨.refused 0, rfl, .inl (.inl e.ne_zero)⟩
  | answered c =>
    rw [hlast] at h
    obtain ⟨rfl, rfl⟩ := step_inj h
    exact ⟨c, rfl, .inr rfl⟩

/-- VFS puts what it has read at the start of the memory, and says how much this is. -/
theorem BulkShared.call_read {fd : ℤ} {chunk : ℕ}
    (h : s.call (bulkReadMsg fd chunk) o = some (r, w))
    (hfailed : ¬r.Failed) (hgot : r.reply.reg 0 ≠ 0) :
    r.reply.reg 0 = w.moved.length ∧ w.moved.length ≤ chunk ∧
      w.shm.slice 0 w.moved.length = w.moved := by
  obtain ⟨c, rfl, hreply⟩ := call_cases h
  have hreply := hreply.resolve_left hfailed
  rw [hreply] at hgot ⊢
  cases c with
  | refused label => exact absurd rfl hgot
  | served n bytes => exact ⟨rfl, List.length_take_le _ _, Bytes.slice_put⟩

/-- VFS takes a part of the chunk in the memory, and says how much this is. -/
theorem BulkShared.call_pwrite {fd : ℤ} {place chunk : ℕ}
    (h : s.call (bulkPwriteMsg fd place chunk) o = some (r, w)) :
    w.shm = s.shm ∧ (∃ k ≤ chunk, w.moved = s.shm.slice 0 k) ∧
      (r.Failed ∨ r.reply.reg 0 = w.moved.length) := by
  obtain ⟨c, rfl, hreply⟩ := call_cases h
  cases c with
  | refused label =>
    exact ⟨rfl, ⟨0, Nat.zero_le _, rfl⟩, hreply.imp_right fun heq => by rw [heq]; rfl⟩
  | served n bytes =>
    exact ⟨rfl, ⟨min n chunk, min_le_right _ _, Bytes.take_slice⟩,
      hreply.imp_right fun heq => by rw [heq]; rfl⟩

end

namespace BulkLoc

/-- The first `total` bytes of the buffer are those that VFS has moved. -/
structure Filled (l : BulkLoc) : Prop where
  bytes : l.buf.slice 0 l.moved.length = l.moved
  length : l.moved.length = l.total
  le : l.total ≤ l.call.count

/-- The memory has the data for the second half of a transfer. -/
def Sees (shm : Bytes) (l : BulkLoc) : Prop :=
  match l.pc, l.call.op with
  | .copyOut got, _ => got = l.answer.length ∧ got ≤ l.chunk ∧ shm.slice 0 got = l.answer
  | .request, .pwrite _ => shm.slice 0 l.chunk = l.buf.slice l.total l.chunk
  | _, _ => True

/-- How the place of a thread and its variables fit together. -/
structure Ok (shm : Bytes) (l : BulkLoc) : Prop where
  isolated : l.Isolated
  filled : (∀ r, l.pc ≠ .idle r) → l.Filled
  sees : l.Sees shm

variable {l l' : BulkLoc} {shm : Bytes}

theorem Filled.ret {ret : Option ℕ} (h : l.Filled) (hret : ∀ n ∈ ret, n = l.total) :
    (l.ret ret).Ok shm := by
  refine ⟨⟨h.bytes, fun n hn _ => ?_⟩, fun hne => absurd rfl (hne _), True.intro⟩
  obtain rfl := Option.some.inj (BulkPc.idle.inj hn)
  rw [hret n rfl]
  exact h.length.symm

variable {n offset : ℕ} {o : Retried Served} {r : CallResult} {pc : BulkPc} {w : ShmWorld}
  {shm' : Bytes}

theorem Filled.goto (h : l.Filled) (hpc : ∀ r, pc ≠ .idle r) (hsees : (l.goto pc).Sees shm) :
    (l.goto pc).Ok shm :=
  ⟨⟨h.bytes, fun _ hn => absurd hn (hpc _)⟩, fun _ => ⟨h.bytes, h.length, h.le⟩, hsees⟩

theorem Filled.head (h : l.Filled) : l.head.Ok shm := by
  rw [BulkLoc.head]
  split
  · split
    · exact h.goto nofun (by simp [Sees, BulkLoc.goto, *])
    · exact h.goto nofun True.intro
  · exact h.ret (by simp)

/-- The loop goes on when the bytes of a chunk are in place. -/
theorem Filled.advance (h : { l with total := l.total + n }.Filled) : (l.advance n).Ok shm := by
  have hlt : l.total + n < 2 ^ 64 := h.le.trans_lt l.call.count_lt
  simp only [BulkLoc.advance, Nat.mod_eq_of_lt hlt]
  split
  · exact h.ret (by simp)
  · exact h.head

theorem mem_partialRet (h : n ∈ l.partialRet) : n = l.total := by
  rw [partialRet] at h
  split at h
  · exact (Option.some.inj h).symm
  · cases h

variable {caps : Bool} {shmId : ℕ} {c : BulkChoice} {s s' : BulkShared}

/-- The copy from the memory brings the bytes that VFS has put there. -/
theorem Filled.copyOut {got : ℕ} (h : l.Filled) (hpc : l.pc = .copyOut got) (hsees : l.Sees shm) :
    { l with
      buf := l.buf.put l.total (shm.slice 0 got), moved := l.moved ++ l.answer
      total := l.total + got }.Filled := by
  simp only [Sees, hpc] at hsees
  obtain ⟨hgot, hle, hshm⟩ := hsees
  have hchunk : l.chunk ≤ l.call.count - l.total := min_le_left _ _
  refine ⟨?_, ?_, ?_⟩
  · simp only [List.length_append, Bytes.slice_add, Nat.zero_add]
    rw [Bytes.slice_put_before (by rw [h.length, Nat.zero_add]), h.bytes, h.length, hshm,
      Bytes.slice_put]
  · simp only [List.length_append, h.length, hgot]
  · have := h.le
    change l.total + got ≤ l.call.count
    omega

/-- VFS has taken bytes of the buffer. -/
theorem Filled.pwrite {k : ℕ} (h : l.Filled) (hk : k ≤ l.chunk) :
    { l with moved := l.moved ++ l.buf.slice l.total k, total := l.total + k }.Filled := by
  have hchunk : l.chunk ≤ l.call.count - l.total := min_le_left _ _
  refine ⟨?_, ?_, ?_⟩
  · simp only [List.length_append, Bytes.length_slice, Bytes.slice_add, Nat.zero_add]
    rw [h.bytes, h.length]
  · simp only [List.length_append, Bytes.length_slice, h.length]
  · have := h.le
    change l.total + k ≤ l.call.count
    omega

theorem ret_pwrite {ret : Option ℕ} (hop : l.call.op = .pwrite offset)
    (hbytes : l.buf.slice 0 l.moved.length = l.moved) : (l.ret ret).Ok shm := by
  refine ⟨⟨hbytes, fun n _ hread => ?_⟩, fun hne => absurd rfl (hne _), True.intro⟩
  change l.call.op = .read at hread
  rw [hop] at hread
  cases hread

/-- A call to VFS for a chunk of a read. -/
theorem Ok.requestRead (h : l.Ok s.shm) (hpc : l.pc = .request) (hop : l.call.op = .read)
    (hcall : s.call l.msg o = some (r, w)) : ((l.note w.moved).replied r).Ok w.shm := by
  have hfilled := h.filled (by simp [hpc])
  rw [msg, hop] at hcall
  rw [note, hop]
  have hnote : { l with answer := w.moved }.Filled := ⟨hfilled.bytes, hfilled.length, hfilled.le⟩
  rw [replied]
  split
  · exact hnote.ret (by simp)
  split
  · exact hnote.ret fun n hn => mem_partialRet hn
  rename_i hfailed
  simp only [hop]
  split
  · exact hnote.ret (by simp)
  · obtain ⟨hgot, hle, hshm⟩ := BulkShared.call_read hcall hfailed ‹_›
    refine hnote.goto nofun ⟨hgot, hgot ▸ hle, ?_⟩
    rw [hgot]
    exact hshm

/-- A call to VFS for a chunk of a write. -/
theorem Ok.requestPwrite (h : l.Ok s.shm) (hpc : l.pc = .request) (hop : l.call.op = .pwrite offset)
    (hcall : s.call l.msg o = some (r, w)) : ((l.note w.moved).replied r).Ok w.shm := by
  have hfilled := h.filled (by simp [hpc])
  have hsees := h.sees
  simp only [Sees, hpc, hop] at hsees
  rw [msg, hop] at hcall
  obtain ⟨-, ⟨k, hk, hmoved⟩, hgot⟩ := BulkShared.call_pwrite hcall
  -- what VFS has taken from the memory is in the buffer
  have hbuf : w.moved = l.buf.slice l.total k := by
    have htake := congrArg (List.take k) hsees
    rwa [Bytes.take_slice, Bytes.take_slice, min_eq_left hk, ← hmoved] at htake
  have hmore := hfilled.pwrite hk
  rw [← hbuf] at hmore
  rw [note, hop]
  have hret : ∀ ret, ({ l with answer := w.moved, moved := l.moved ++ w.moved }.ret ret).Ok w.shm :=
    fun ret => ret_pwrite hop hmore.bytes
  rw [replied]
  split
  · exact hret _
  split
  · exact hret _
  rename_i hfailed
  simp only [hop]
  split
  · exact hret _
  · refine Filled.advance ⟨hmore.bytes, ?_, ?_⟩
    all_goals rw [hgot.resolve_left hfailed, hbuf, Bytes.length_slice]
    · exact hbuf ▸ hmore.length
    · exact hmore.le

/-- A thread goes to a place that is not between the halves of a transfer. -/
theorem Ok.goto (h : l.Ok shm) (hbusy : ∀ r, l.pc ≠ .idle r) (hpc : pc.isBetween = false) :
    (l.goto pc).Ok shm' := by
  refine (h.filled hbusy).goto ?_ ?_
  · rintro r rfl
    cases hpc
  · cases pc <;> first | exact True.intro | cases hpc

theorem setupCall_eq {msg : Msg} {next : Msg → BulkPc}
    (h : setupCall s l msg o next = some (s', l')) :
    ∃ r w, s.call msg o = some (r, w) ∧ s' = { s with shm := w.shm, mapped := w.mapped } ∧
      l' = l.goto (next r.reply) := by
  obtain ⟨⟨r, w⟩, hcall, rfl, rfl⟩ := mapped_inj h
  exact ⟨r, w, hcall, rfl, rfl⟩

/-- A step of a thread leaves it as it should be. -/
theorem step_ok (h : l.Ok s.shm) (hstep : l.step caps shmId c s = some (s', l')) :
    l'.Ok s'.shm := by
  cases hpc : l.pc <;> cases c <;> simp only [step, hpc, reduceCtorEq] at hstep
  case idle.call ret call buf =>
    obtain ⟨rfl, rfl⟩ := step_inj hstep
    exact ⟨⟨rfl, nofun⟩, fun _ => ⟨rfl, rfl, Nat.zero_le _⟩, True.intro⟩
  case load.op =>
    split at hstep <;> obtain ⟨rfl, rfl⟩ := step_inj hstep <;>
      exact h.goto (by simp [hpc]) rfl
  case cas.op =>
    split at hstep <;> obtain ⟨rfl, rfl⟩ := step_inj hstep
    · exact h.goto (by simp [hpc]) (by split <;> rfl)
    · exact h.goto (by simp [hpc]) rfl
  case wait.op | checkAddr.op =>
    obtain ⟨rfl, rfl⟩ := step_inj hstep
    exact h.goto (by simp [hpc]) (by split <;> rfl)
  case asleep.op | storeAddr.op | finish.op =>
    obtain ⟨rfl, rfl⟩ := step_inj hstep
    exact h.goto (by simp [hpc]) rfl
  case create.ipc | map.ipc | setup.ipc =>
    obtain ⟨r, w, -, rfl, rfl⟩ := setupCall_eq hstep
    exact h.goto (by simp [hpc]) (by split <;> rfl)
  case loadAddr.op =>
    obtain ⟨rfl, rfl⟩ := step_inj hstep
    obtain ⟨hbytes, hlength, hle⟩ := h.filled (by simp [hpc])
    exact Filled.head ⟨hbytes, hlength, hle⟩
  case copyIn.op =>
    have hfilled := h.filled (by simp [hpc])
    split at hstep
    · rename_i offset hop
      obtain ⟨-, rfl, rfl⟩ := guarded_inj hstep
      split
      · refine hfilled.goto nofun ?_
        have hput : (s.shm.put 0 (l.buf.slice l.total l.chunk)).slice 0
          (l.buf.slice l.total l.chunk).length = _ := Bytes.slice_put
        rw [Bytes.length_slice] at hput
        simp only [Sees, BulkLoc.goto, hop]
        exact hput
      · exact hfilled.ret fun n hn => mem_partialRet hn
    · cases hstep
  case request.ipc o =>
    obtain ⟨⟨r, w⟩, hcall, rfl, rfl⟩ := mapped_inj hstep
    cases hop : l.call.op with
    | read => exact h.requestRead hpc hop hcall
    | pwrite offset => exact h.requestPwrite hpc hop hcall
  case copyOut.op got =>
    obtain ⟨-, rfl, rfl⟩ := guarded_inj hstep
    obtain ⟨hbytes, hlength, hle⟩ := (h.filled (by simp [hpc])).copyOut hpc h.sees
    exact Filled.advance ⟨hbytes, hlength, hle⟩

/-- What a step does to the memory: nothing, unless it is one that writes there, or one of the
    set-up. -/
theorem step_shm (hstep : l.step caps shmId c s = some (s', l')) :
    s'.shm = s.shm ∨ l.writesShm ∨ l.pc.isSetup := by
  cases hpc : l.pc <;> cases c <;> simp only [step, hpc, reduceCtorEq] at hstep
  case load.op | cas.op =>
    split at hstep <;> obtain ⟨rfl, rfl⟩ := step_inj hstep <;> exact .inl rfl
  case idle.call | wait.op | asleep.op | loadAddr.op =>
    obtain ⟨rfl, rfl⟩ := step_inj hstep
    exact .inl rfl
  case copyIn.op => exact .inr (.inl (by simp [writesShm, hpc]))
  case request.ipc o =>
    obtain ⟨⟨r, w⟩, hcall, rfl, rfl⟩ := mapped_inj hstep
    cases hop : l.call.op with
    | read => exact .inr (.inl (by simp [writesShm, hpc, hop]))
    | pwrite offset =>
      rw [msg, hop] at hcall
      exact .inl (BulkShared.call_pwrite hcall).1
  case copyOut.op got =>
    obtain ⟨-, rfl, rfl⟩ := guarded_inj hstep
    exact .inl rfl
  all_goals exact .inr (.inr rfl)

/-- A thread that is not between the halves of a transfer does not care for the memory. -/
theorem Ok.congr (h : l.Ok shm) (hshm : shm' = shm ∨ ¬l.usesShm) : l.Ok shm' := by
  rcases hshm with rfl | huses
  · exact h
  refine ⟨h.isolated, h.filled, ?_⟩
  simp only [usesShm] at huses
  simp only [Sees]
  split at huses <;> simp_all

theorem isTransfer_of_usesShm (h : l.usesShm) : l.pc.isTransfer := by
  cases hpc : l.pc <;> simp_all [usesShm, BulkPc.isTransfer]

/-! ### The set-up -/

theorem head_pc : l.head.pc.isSetup = false ∧ l.head.pc ≠ .asleep := by
  rw [head]
  split
  · split <;> exact ⟨rfl, nofun⟩
  · exact ⟨rfl, nofun⟩

theorem advance_pc : (l.advance n).pc.isSetup = false ∧ (l.advance n).pc ≠ .asleep := by
  simp only [advance]
  split
  · exact ⟨rfl, nofun⟩
  · exact head_pc

theorem replied_pc : (l.replied r).pc.isSetup = false ∧ (l.replied r).pc ≠ .asleep := by
  simp only [replied]
  split_ifs
  · exact ⟨rfl, nofun⟩
  · exact ⟨rfl, nofun⟩
  · exact ⟨rfl, nofun⟩
  · split
    · exact ⟨rfl, nofun⟩
    · exact advance_pc

/-- A step sets up the memory as one of the three moves. -/
theorem step_setup (hstep : l.step caps shmId c s = some (s', l')) :
    SetupMove s.state l.pc s'.state l'.pc := by
  cases hpc : l.pc <;> cases c <;> simp only [step, hpc, reduceCtorEq] at hstep
  case load.op =>
    split at hstep <;> obtain ⟨rfl, rfl⟩ := step_inj hstep
    · exact .stay nofun fun _ => .inr ‹_›
    · exact .stay nofun nofun
    · exact .stay nofun nofun
  case cas.op =>
    split at hstep <;> obtain ⟨rfl, rfl⟩ := step_inj hstep
    · refine .enter ‹_› ?_
      split <;> rfl
    · exact .stay nofun nofun
  case idle.call | asleep.op | storeAddr.op =>
    obtain ⟨rfl, rfl⟩ := step_inj hstep
    exact .stay (by simp [goto, BulkPc.isSetup]) nofun
  case wait.op | checkAddr.op =>
    obtain ⟨rfl, rfl⟩ := step_inj hstep
    simp only [goto]
    split <;> exact .stay (by simp [BulkPc.isSetup]) nofun
  case create.ipc | map.ipc | setup.ipc =>
    obtain ⟨r, w, -, rfl, rfl⟩ := setupCall_eq hstep
    split <;> exact .stay (by simp [BulkPc.isSetup]) nofun
  case finish.op success =>
    obtain ⟨rfl, rfl⟩ := step_inj hstep
    exact .leave success rfl
  case loadAddr.op =>
    obtain ⟨rfl, rfl⟩ := step_inj hstep
    exact .stay (by simp [head_pc]) fun _ => .inl rfl
  case copyIn.op =>
    split at hstep
    · obtain ⟨-, rfl, rfl⟩ := guarded_inj hstep
      refine .stay ?_ fun _ => .inl rfl
      split <;> nofun
    · cases hstep
  case request.ipc o =>
    obtain ⟨⟨r, w⟩, hcall, rfl, rfl⟩ := mapped_inj hstep
    exact .stay (by simp [replied_pc]) fun _ => .inl rfl
  case copyOut.op got =>
    obtain ⟨-, rfl, rfl⟩ := guarded_inj hstep
    exact .stay (by simp [advance_pc]) fun _ => .inl rfl

end BulkLoc

/-! ## Runs -/

/-- One thread at a time sets up the memory, and the others use it after that. -/
structure SetupInv {τ : Type} (state : ShmState) (pc : τ → BulkPc) : Prop where
  initing : ∀ t, (pc t).isSetup → state = .initing
  unique : ∀ t u, (pc t).isSetup → (pc u).isSetup → t = u
  ready : ∀ t, (pc t).isTransfer → state = .ready

/-- What is kept by every step: the threads are as they should be, and so is the set-up. -/
structure BulkInv {τ : Type} (g : Config τ BulkShared BulkLoc) : Prop where
  ok : ∀ t, (g.loc t).Ok g.shared.shm
  setup : SetupInv g.shared.state fun t => (g.loc t).pc

section

variable {τ : Type} {state state' : ShmState} {pc pc' : τ → BulkPc} {t : τ}

/-- No thread begins to set up the memory or to use it. -/
theorem SetupInv.mono (h : SetupInv state pc) (hkeeps : ∀ t, (pc t).Keeps (pc' t)) :
    SetupInv state pc' :=
  ⟨fun t ht => h.initing t ((hkeeps t).1 ht),
    fun t u ht hu => h.unique t u ((hkeeps t).1 ht) ((hkeeps u).1 hu),
    fun t ht => h.ready t ((hkeeps t).2 ht)⟩

/-- A step of a thread keeps the set-up as it should be. -/
theorem SetupInv.move (h : SetupInv state pc) (hmove : SetupMove state (pc t) state' (pc' t))
    (hothers : ∀ u, u ≠ t → pc' u = pc u) : SetupInv state' pc' := by
  generalize hpc : pc' t = p at hmove
  cases hmove with
  | stay hsetup htransfer =>
    have hback : ∀ u, (pc' u).isSetup → (pc u).isSetup := by
      intro u hu
      by_cases hut : u = t
      · rw [hut, hpc] at hu
        rw [hut]
        exact hsetup hu
      · rwa [← hothers u hut]
    refine ⟨fun u hu => h.initing u (hback u hu),
      fun u v hu hv => h.unique u v (hback u hu) (hback v hv), fun u hu => ?_⟩
    by_cases hut : u = t
    · rw [hut, hpc] at hu
      exact (htransfer hu).elim (h.ready t) id
    · rw [hothers u hut] at hu
      exact h.ready u hu
  | enter hstate hsetup =>
    -- nobody else sets up the memory or uses it
    have honly : ∀ u, (pc' u).isSetup ∨ (pc' u).isTransfer → u = t := by
      intro u hu
      by_contra hut
      rw [hothers u hut] at hu
      rcases hu with hu | hu
      · cases hstate.symm.trans (h.initing u hu)
      · cases hstate.symm.trans (h.ready u hu)
    refine ⟨fun u hu => rfl, fun u v hu hv => (honly u (.inl hu)).trans (honly v (.inl hv)).symm,
      fun u hu => ?_⟩
    rw [honly u (.inr hu), hpc] at hu
    exact absurd hu (BulkPc.not_isTransfer hsetup)
  | leave success hsetup =>
    have hstate := h.initing t hsetup
    have honly : ∀ u, (pc' u).isSetup ∨ (pc' u).isTransfer → u = t := by
      intro u hu
      by_contra hut
      rw [hothers u hut] at hu
      rcases hu with hu | hu
      · exact hut (h.unique u t hu hsetup)
      · cases hstate.symm.trans (h.ready u hu)
    have hnot : ∀ u, ¬(pc' u).isSetup := by
      intro u hu
      rw [honly u (.inl hu), hpc] at hu
      cases hu
    refine ⟨fun u hu => absurd hu (hnot u), fun u v hu => absurd hu (hnot u), fun u hu => ?_⟩
    rw [honly u (.inr hu), hpc] at hu
    cases success with
    | true => rfl
    | false => cases hu

variable [DecidableEq τ] {g : Config τ BulkShared BulkLoc} {c : BulkChoice} {s : BulkShared}
  {l : BulkLoc} {caps : Bool} {shmId : ℕ}

omit [DecidableEq τ] in
theorem BulkInv.init : BulkInv (bulkInit τ) where
  ok _ := ⟨⟨rfl, nofun⟩, fun h => absurd rfl (h none), True.intro⟩
  setup := ⟨nofun, nofun, nofun⟩

/-- The steps of the threads keep the invariant. -/
theorem BulkInv.set (h : BulkInv g) (halone : WritesAlone g (.run t c))
    (hnext : (bulkMachine τ caps shmId).next t c g.shared (g.loc t) = some (s, l)) :
    BulkInv (g.set t s l) := by
  refine ⟨fun u => ?_, h.setup.move (t := t) ?_ fun u hut => ?_⟩
  · rcases eq_or_ne u t with rfl | hut
    · rw [Config.set_loc_self]
      exact BulkLoc.step_ok (h.ok u) hnext
    rw [Config.set_loc_of_ne g hut]
    refine (h.ok u).congr ?_
    rcases BulkLoc.step_shm hnext with hshm | hwrites | hsetup
    · exact .inl hshm
    · exact .inr (halone hwrites u hut)
    · -- while the memory is set up nobody uses it
      refine .inr fun huses => ?_
      have hready := h.setup.ready u (BulkLoc.isTransfer_of_usesShm huses)
      cases (h.setup.initing t hsetup).symm.trans hready
  · rw [Config.set_loc_self]
    exact BulkLoc.step_setup hnext
  · rw [Config.set_loc_of_ne g hut]

omit [DecidableEq τ] in
/-- A thread has been woken. -/
theorem roused_ok {shm : Bytes} (h : l.Ok shm) :
    ((bulkMachine τ caps shmId).roused l).Ok shm ∧
      l.pc.Keeps ((bulkMachine τ caps shmId).roused l).pc := by
  by_cases hpc : l.pc = .asleep
  · simp only [bulkMachine, if_pos hpc]
    exact ⟨h.goto (by simp [hpc]) rfl, nofun, nofun⟩
  · simp only [bulkMachine, if_neg hpc]
    exact ⟨h, id, id⟩

omit [DecidableEq τ] in
/-- A thread has made its wake-up call. -/
theorem resumed_ok {shm : Bytes} (h : l.Ok shm) :
    ((bulkMachine τ caps shmId).resumed l).Ok shm ∧
      l.pc.Keeps ((bulkMachine τ caps shmId).resumed l).pc := by
  simp only [bulkMachine]
  split
  · exact ⟨h.goto (by simp [*]) rfl, nofun, fun _ => by rw [‹l.pc = _›]; rfl⟩
  · exact ⟨(h.filled (by simp [*])).ret nofun, nofun, nofun⟩
  · exact ⟨h, id, id⟩

/-- The wake-up calls keep the invariant. -/
theorem BulkInv.wakeUp {us : Finset τ} (h : BulkInv g) :
    BulkInv ((bulkMachine τ caps shmId).wakeUp g t us) := by
  have hloc (u : τ) := Machine.rel_wakeUp (m := bulkMachine τ caps shmId) (t := t)
    (r := fun l l' => l.Ok g.shared.shm → l'.Ok g.shared.shm ∧ l.pc.Keeps l'.pc)
    (fun _ hl => ⟨hl, id, id⟩) resumed_ok (fun v (_ : v ∈ us) => roused_ok) u (h.ok u)
  exact ⟨fun u => (hloc u).1, h.setup.mono fun u => (hloc u).2⟩

variable [Fintype τ]

/-- In every run of any number of threads in which no transfer changes the memory while another
    thread is between the two halves of one, each thread has read what VFS has read for it, and
    VFS has written what the thread has in its buffer. -/
theorem bulk_isolated (h : (bulkMachine τ caps shmId).Steps WritesAlone (bulkInit τ) g) (t : τ) :
    (g.loc t).Isolated := by
  have hinv : BulkInv g := h.invariant (I := BulkInv)
    (fun _ _ _ _ _ hinv halone hnext => hinv.set halone hnext)
    (fun _ _ _ _ _ hinv _ _ _ => hinv.wakeUp) .init
  exact (hinv.ok t).isolated

end

/-- A call that a server answers. -/
def answered (c : Served) : Retried Served := ⟨0, .answered c, nofun⟩

/-- A thread calls `bulk_read` first and sets up the memory. It is at its request then. -/
def setupRun : List (Act Trio BulkChoice) :=
  [.run .a (.call ⟨.read, 3, 4097, by decide⟩ fun _ => 0), .run .a .op, .run .a .op, .run .a .op,
    .run .a (.ipc (answered (.served 0 []))), .run .a (.ipc (answered (.served 0x7000 []))),
    .run .a .op, .run .a (.ipc (answered (.served 0 []))), .run .a .op, .wake .a ∅, .run .a .op]

/-- The thread reads a byte. After that another thread writes one. -/
def readThenWritten : Config Trio BulkShared BulkLoc :=
  ((bulkMachine Trio true 7).replay WritesAlone (bulkInit Trio)
    (List.flatten [setupRun, [.run .a (.ipc (answered (.served 0 [1]))), .run .a .op],
      [.run .b (.call ⟨.pwrite 0, 4, 1, by decide⟩ fun _ => 2), .run .b .op, .run .b .op,
        .run .b .op, .run .b (.ipc (answered (.served 1 [])))]])).get (by decide +kernel)

theorem bulk_isolated_readThenWritten :
    ((readThenWritten.loc .a).moved = [1] ∧ (readThenWritten.loc .b).moved = [2]) ∧
      ∀ t, (readThenWritten.loc t).Isolated :=
  ⟨by decide +kernel, bulk_isolated (Machine.steps_replay_get _)⟩

/-- Two threads read. VFS serves the request of the second one before the first one has copied
    its data. -/
def mixedUp : Config Trio BulkShared BulkLoc :=
  ((bulkMachine Trio true 7).replay (fun _ _ => True) (bulkInit Trio)
    (List.flatten [setupRun,
      [.run .b (.call ⟨.read, 4, 4097, by decide⟩ fun _ => 0), .run .b .op, .run .b .op],
      [.run .a (.ipc (answered (.served 0 [1]))), .run .b (.ipc (answered (.served 0 [2]))),
        .run .a .op]])).get (by decide +kernel)

/-- The first thread returns with the data that VFS has read for the second one. -/
theorem bulk_mixedUp :
    (bulkMachine Trio true 7).Steps (fun _ _ => True) (bulkInit Trio) mixedUp ∧
      (mixedUp.loc .a).pc = .idle (some (some 1)) ∧ (mixedUp.loc .a).moved = [1] ∧
      (mixedUp.loc .b).answer = [2] ∧ (mixedUp.loc .a).buf.slice 0 1 = [2] :=
  ⟨Machine.steps_replay_get _, by decide +kernel⟩

end Posix

end Trona
