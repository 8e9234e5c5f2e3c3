import Mathlib.Algebra.Group.Nat.Defs
import Mathlib.Data.Finset.Basic
import Mathlib.Data.Finset.Image
import Trona.Lib.Run
import Trona.Lib.Wp
import Trona.Uapi.Status

/-!
# The pool of threads

The descriptors of the threads of a process are in one pool. Workers take them from there
(`spawn_worker`, `substrate/worker.rs`), and so do the threads of the POSIX layer
(`pthread_create`, `posix/pthread.rs`). A descriptor says what its thread has: slots with
capabilities, and pages. When a worker cannot be started, `rollback_worker` gives back what the
descriptor says; so does `cleanup_thread` (`substrate/tls.rs`) for a worker that has exited.

A descriptor that is given back to the pool keeps most of its fields. `rollback_worker` clears none
of them, `cleanup_thread` some and `pthread_join` others, and `pthread_create` leaves the address of
a stack that is unmapped. A worker that fails early has only the first fields of its own; what the
others say is from threads of the past. The roll-back gives back exactly what the attempt has got if
and only if what the fields say is not in use (`Failed.released_iff`).
-/

namespace Trona

namespace ThreadPool

/-! ## Resources -/

/-- What a process has: the slots that the allocator has handed out, those with a capability, and
    the pages that are mapped. -/
@[ext]
structure Resources where
  slots : Finset ℕ
  caps : Finset ℕ
  pages : Finset ℕ

-- A derived instance would not compute: sets can be equal and built in different orders.
instance : DecidableEq Resources := fun _ _ => decidable_of_iff' _ Resources.ext_iff

/-- Consecutive slots. -/
def slotRange (base count : ℕ) : Finset ℕ := (Finset.range count).image (base + ·)

/-- Consecutive pages. -/
def pageRange (base count : ℕ) : Finset ℕ := (Finset.range count).image (base + 4096 * ·)

/-- Numbers are taken out one by one. -/
def eraseEach (s : Finset ℕ) (f : ℕ → ℕ) (count : ℕ) : Finset ℕ :=
  (List.range count).foldl (fun s p => s.erase (f p)) s

namespace Resources

variable (w : Resources)

/-- `vspace_unmap`. A page that is not mapped is left alone. -/
def unmap (page : ℕ) : Resources := { w with pages := w.pages.erase page }

/-- `cnode_delete`. -/
def delete (slot : ℕ) : Resources := { w with caps := w.caps.erase slot }

/-- `slot_free`. A slot that is free is left alone. -/
def free (slot : ℕ) : Resources := { w with slots := w.slots.erase slot }

/-- Pages are unmapped one by one. -/
def unmapRange (base count : ℕ) : Resources :=
  { w with pages := eraseEach w.pages (base + 4096 * ·) count }

/-- Capabilities are deleted one by one. -/
def deleteRange (base count : ℕ) : Resources := { w with caps := eraseEach w.caps (base + ·) count }

/-- `slot_free_range`. -/
def freeRange (base count : ℕ) : Resources := { w with slots := eraseEach w.slots (base + ·) count }

/-- What the allocator answers: consecutive slots that are free, or that there are none. The slot
    zero is not one of its slots. -/
def offer (count : ℕ) (answer : Option ℕ) : Option ℕ :=
  answer.filter fun base => 0 < base ∧ Disjoint (slotRange base count) w.slots

/-- Without some slots, some capabilities and some pages. -/
def without (slots caps pages : Finset ℕ) : Resources :=
  ⟨w.slots \ slots, w.caps \ caps, w.pages \ pages⟩

/-- What is in one of two, and not in the other. -/
def minus (v : Resources) : Resources := w.without v.slots v.caps v.pages

end Resources

/-- What a process can have: there is a capability only in a slot that is handed out. -/
structure Holdings extends Resources where
  caps_subset : caps ⊆ slots

/-! ## Descriptors -/

inductive ThreadState
  | unused
  | running
  | exited
  | reaping
  deriving DecidableEq

inductive ThreadOwner
  | main
  | worker
  | personality
  deriving DecidableEq

/-- The fields of a `ThreadDesc` and of its `PosixThreadExt` that say whose it is: `data` says that
    `personality_data` is not null, `tid` is `procmgr_tid`. -/
structure Entry where
  state : ThreadState := .unused
  generation : ℕ := 0
  owner : ThreadOwner := .main
  data : Bool := false
  tid : ℕ := 0
  detached : Bool := false
  deriving DecidableEq

namespace Entry

variable (e : Entry)

/-- `alloc_thread_desc` has got an entry. -/
def alloc : Entry :=
  { e with state := .running, generation := (e.generation + 1) % 2 ^ 32 }

/-- `pthread_create` has got an entry, and sets it up. -/
def claim (detached : Bool) : Entry :=
  { e with
    state := .running, owner := .personality, data := true, tid := 0, detached := detached }

/-- An entry goes back to the pool. -/
def free : Entry := { e with state := .unused, data := false }

/-- `pthread_join` puts an entry back. -/
def recycle : Entry := { e.free with generation := (e.generation + 1) % 2 ^ 32 }

end Entry

/-- A `ThreadDesc`, with the fields that say what a thread has, and those of the extension of the
    POSIX layer. -/
structure ThreadDesc extends Entry where
  tcbCap : ℕ := 0
  scCap : ℕ := 0
  ipcFrameCap : ℕ := 0
  stackBase : ℕ := 0
  stackSize : ℕ := 0
  tlsRegion : ℕ := 0
  tlsRegionSize : ℕ := 0
  ipcBufVaddr : ℕ := 0
  stackFrameBase : ℕ := 0
  stackFrameCount : ℕ := 0
  tlsFrameBase : ℕ := 0
  tlsFrameCount : ℕ := 0
  extTcbCap : ℕ := 0
  extStackBase : ℕ := 0
  extStackSize : ℕ := 0
  deriving DecidableEq

namespace ThreadDesc

variable (d : ThreadDesc)

/-- The slots of the kernel objects are written into a descriptor. -/
def withObjects (base : ℕ) : ThreadDesc :=
  { d with tcbCap := base, scCap := base + 1, ipcFrameCap := base + 2 }

/-- The slots of the frames of the stack are written into a descriptor. -/
def withStack (count base : ℕ) : ThreadDesc :=
  { d with stackFrameBase := base, stackFrameCount := count }

/-- The slots of the frames of the variables are written into a descriptor. -/
def withTls (count base : ℕ) : ThreadDesc :=
  { d with tlsFrameBase := base, tlsFrameCount := count }

/-- Give back what a descriptor says, as `rollback_worker` and `cleanup_thread` do. -/
def release (w : Resources) : Resources :=
  let w :=
    if d.stackBase ≠ 0 ∧ d.stackSize ≠ 0 then w.unmapRange d.stackBase (d.stackSize / 4096) else w
  let w := if d.ipcBufVaddr ≠ 0 then w.unmap d.ipcBufVaddr else w
  let w :=
    if d.tlsRegion ≠ 0 ∧ d.tlsRegionSize ≠ 0 then
      w.unmapRange d.tlsRegion (d.tlsRegionSize / 4096)
    else w
  let w := if d.tcbCap ≠ 0 then w.delete d.tcbCap else w
  let w := if d.scCap ≠ 0 then w.delete d.scCap else w
  let w := if d.ipcFrameCap ≠ 0 then w.delete d.ipcFrameCap else w
  let w := if d.tcbCap ≠ 0 then w.freeRange d.tcbCap 3 else w
  let w :=
    if d.stackFrameBase ≠ 0 then
      let w := w.deleteRange d.stackFrameBase d.stackFrameCount
      w.freeRange d.stackFrameBase d.stackFrameCount
    else w
  if d.tlsFrameBase ≠ 0 then
    let w := w.deleteRange d.tlsFrameBase d.tlsFrameCount
    w.freeRange d.tlsFrameBase d.tlsFrameCount
  else w

end ThreadDesc

/-! ## Workers -/

/-- The calls of `spawn_worker` that can fail. -/
inductive SpawnCall
  | pool
  | objectSlots
  | retypeTcb
  | retypeSc
  | retypeIpcFrame
  | stackSlots
  | retypeStack (p : ℕ)
  | tlsSlots
  | retypeTls (p : ℕ)
  | mapStack (p : ℕ)
  | mapIpc
  | mapTls (p : ℕ)
  | setSpace
  | setIpcBuffer
  | setTlsBase
  | configure
  | scConfigure
  | scBind
  | resume
  deriving DecidableEq

/-- The call that has failed, and the error that `spawn_worker` returns. -/
structure SpawnFailure where
  call : SpawnCall
  err : ℤ
  deriving DecidableEq

/-- The arguments of `spawn_worker`, the size of the region for the variables of a thread, and what
    the allocator and the kernel answer. An answer of the kernel is zero if it is willing. -/
structure SpawnInput where
  stackPages : ℕ
  tlsSize : ℕ
  slots : SpawnCall → Option ℕ
  err : SpawnCall → ℤ

def SpawnInput.tlsPages (i : SpawnInput) : ℕ := if i.tlsSize > 0 then i.tlsSize / 0x1000 else 1

/-- What `spawn_worker` works on: its descriptor, what the process has, and `WORKER_VA_NEXT`. -/
structure Spawning where
  desc : ThreadDesc
  res : Resources
  vaNext : ℕ

abbrev SpawnM := EStateM SpawnFailure Spawning

/-- `WORKER_REGION_STRIDE`. -/
def workerRegionStride : ℕ := 256 * 1024

section

variable (i : SpawnInput)

/-- A call to the kernel. -/
def check (c : SpawnCall) : SpawnM PUnit := if i.err c ≠ 0 then throw ⟨c, i.err c⟩ else pure ⟨⟩

/-- `slot_alloc_consecutive`. -/
def takeSlots (c : SpawnCall) (count : ℕ) : SpawnM ℕ := do
  match (← get).res.offer count (i.slots c) with
  | none => throw ⟨c, -1⟩
  | some base =>
    modify fun s => { s with res.slots := s.res.slots ∪ slotRange base count }
    return base

/-- `untyped_retype`. The kernel does not put a capability where there is one. -/
def retype (c : SpawnCall) (slot : ℕ) : SpawnM PUnit := do
  check i c
  if slot ∈ (← get).res.caps then throw ⟨c, tronaSlotOccupied⟩
  else modify fun s => { s with res.caps := insert slot s.res.caps }

/-- `vspace_map`. The kernel does not map a page twice. -/
def mapPage (c : SpawnCall) (page : ℕ) : SpawnM PUnit := do
  check i c
  if page ∈ (← get).res.pages then throw ⟨c, tronaAlreadyMapped⟩
  else modify fun s => { s with res.pages := insert page s.res.pages }

/-- The kernel objects of a worker. -/
def acquireObjects : SpawnM PUnit := do
  let base ← takeSlots i .objectSlots 3
  modify fun s => { s with desc := s.desc.withObjects base }
  retype i .retypeTcb base
  retype i .retypeSc (base + 1)
  retype i .retypeIpcFrame (base + 2)

/-- The frames of its stack. -/
def acquireStack : SpawnM PUnit := do
  let base ← takeSlots i .stackSlots i.stackPages
  modify fun s => { s with desc := s.desc.withStack i.stackPages base }
  (List.range i.stackPages).forM fun p => retype i (.retypeStack p) (base + p)

/-- The frames of the region for its variables. -/
def acquireTls : SpawnM PUnit := do
  let base ← takeSlots i .tlsSlots i.tlsPages
  modify fun s => { s with desc := s.desc.withTls i.tlsPages base }
  (List.range i.tlsPages).forM fun p => retype i (.retypeTls p) (base + p)

/-- What a worker gets from the allocator. -/
def acquireSlots : SpawnM PUnit := do
  acquireObjects i
  acquireStack i
  acquireTls i

/-- The addresses of a worker, from the next region on: a guard page, the stack, the IPC buffer and
    the region for its variables. -/
def Spawning.takeRegion (s : Spawning) : Spawning :=
  let stackVa := s.vaNext + 0x1000
  let ipcVa := stackVa + i.stackPages * 0x1000
  { s with
    desc := { s.desc with
      stackBase := stackVa, stackSize := i.stackPages * 0x1000, ipcBufVaddr := ipcVa
      tlsRegion := ipcVa + 0x1000, tlsRegionSize := i.tlsPages * 0x1000 }
    vaNext := s.vaNext + workerRegionStride }

/-- The pages of a worker. -/
def mapRegion : SpawnM PUnit := do
  modify (·.takeRegion i)
  let d := (← get).desc
  (List.range i.stackPages).forM fun p => mapPage i (.mapStack p) (d.stackBase + 4096 * p)
  mapPage i .mapIpc d.ipcBufVaddr
  (List.range i.tlsPages).forM fun p => mapPage i (.mapTls p) (d.tlsRegion + 4096 * p)

/-- The calls that make a thread of what a worker has got. -/
def startCalls : List SpawnCall :=
  [.setSpace, .setIpcBuffer, .setTlsBase, .configure, .scConfigure, .scBind, .resume]

/-- `spawn_worker`, from the allocation of slots on. -/
def spawnBody : SpawnM PUnit := do
  acquireSlots i
  mapRegion i
  startCalls.forM (check i)

/-- The end of an attempt that has failed. Without any slots it is not rolled back. -/
def rollback (e : SpawnFailure) (s : Spawning) : Spawning :=
  { s with
    desc := { s.desc with state := .unused }
    res := if e.call = .objectSlots then s.res else s.desc.release s.res }

end

/-! ## The pool -/

/-- `MAX_THREADS`. -/
def maxThreads : ℕ := 64

/-- The order in which `pthread_create` looks at the entries. -/
def searchOrder (hint : ℕ) : List ℕ :=
  (List.range (maxThreads - 1)).map fun offset => (hint - 1 + offset) % (maxThreads - 1) + 1

/-- `NEXT_FREE_HINT`, when `pthread_create` has got an entry. -/
def hintAfter (k : ℕ) : ℕ := k % (maxThreads - 1) + 1

/-- `THREAD_POOL`, what the process has, `WORKER_VA_NEXT`, `IPC_BUF_NEXT` and `NEXT_FREE_HINT`. -/
structure Pool where
  descs : ℕ → ThreadDesc
  res : Resources
  vaNext : ℕ
  ipcNext : ℕ
  hint : ℕ

namespace Pool

variable (p : Pool)

/-- `alloc_thread_desc`. -/
def firstUnused : Option ℕ :=
  (List.range maxThreads).find? fun k => (p.descs k).state = .unused

/-- The search of `pthread_create`, from the hint on. -/
def nextUnused : Option ℕ :=
  (searchOrder p.hint).find? fun k => (p.descs k).state = .unused

def setDesc (k : ℕ) (d : ThreadDesc) : Pool := { p with descs := Function.update p.descs k d }

/-- The beginning of an attempt to start a worker with a descriptor. -/
def attempt (k : ℕ) : Spawning :=
  ⟨{ p.descs k with toEntry := { (p.descs k).alloc with owner := .worker } }, p.res, p.vaNext⟩

/-- Its end. -/
def conclude (k : ℕ) (s : Spawning) : Pool :=
  { p.setDesc k s.desc with res := s.res, vaNext := s.vaNext }

/-- `spawn_worker`. If it has failed: the failure, and what the process had then. -/
def spawnWorker (i : SpawnInput) : Pool × Option (SpawnFailure × Resources) :=
  match p.firstUnused with
  | none => (p, some (⟨.pool, -1⟩, p.res))
  | some k =>
    match (spawnBody i).run (p.attempt k) with
    | .ok _ s => (p.conclude k s, none)
    | .error e s => (p.conclude k (rollback e s), some (e, s.res))

/-- `cleanup_thread`, for a worker that has exited. -/
def cleanupThread (k : ℕ) : Pool :=
  let d := p.descs k
  { p.setDesc k { d with
      toEntry := d.free, stackFrameBase := 0, stackFrameCount := 0, tlsFrameBase := 0
      tlsFrameCount := 0 }
    with res := d.release p.res }

end Pool

/-! ## Threads of the POSIX layer -/

/-- `DEFAULT_STACK_SIZE`. -/
def defaultStackSize : ℕ := 2 * 1024 * 1024

namespace Pool

variable (p : Pool)

/-- A descriptor goes back to the pool. -/
def abandon (k : ℕ) : Pool := p.setDesc k { p.descs k with toEntry := (p.descs k).free }

/-- `posix_munmap`, for a stack. -/
def munmapStack (base size : ℕ) : Pool := { p with res := p.res.unmapRange base (size / 4096) }

/-- A descriptor is taken for a thread, and the extension is set up. -/
def takeDesc (k : ℕ) (detached : Bool) : Pool :=
  { p.setDesc k { p.descs k with
      toEntry := (p.descs k).claim detached, extTcbCap := 0, extStackBase := 0, extStackSize := 0 }
    with hint := hintAfter k }

/-- A thread gets a stack. -/
def giveStack (k base size : ℕ) : Pool :=
  { p.setDesc k { p.descs k with
      extStackBase := base, extStackSize := size, stackBase := base, stackSize := size }
    with res.pages := p.res.pages ∪ pageRange base (size / 4096) }

/-- A thread gets the address of its IPC buffer. -/
def giveIpcBuffer (k : ℕ) : Pool :=
  { p.setDesc k { p.descs k with ipcBufVaddr := p.ipcNext } with ipcNext := p.ipcNext + 4096 }

/-- `slot_alloc`. -/
def takeSlot (slot : ℕ) : Pool := { p with res.slots := p.res.slots ∪ slotRange slot 1 }

/-- procmgr has put a capability into the slot and mapped the IPC buffer. -/
def publish (k slot tid : ℕ) : Pool :=
  { p.setDesc k { p.descs k with tid := tid, extTcbCap := slot } with
    res := { p.res with
      caps := insert slot p.res.caps, pages := insert (p.descs k).ipcBufVaddr p.res.pages } }

/-- A slot is given back, empty. -/
def dropSlot (slot : ℕ) : Pool := { p with res := (p.res.delete slot).free slot }

/-- `pthread_join`, of a thread that has exited. procmgr has unmapped its IPC buffer. -/
def pthreadJoin (k : ℕ) : Pool :=
  let d := p.descs k
  let p := { p with res := p.res.unmap d.ipcBufVaddr }
  let p := if d.extTcbCap ≠ 0 then p.dropSlot d.extTcbCap else p
  let p :=
    if d.extStackBase ≠ 0 ∧ d.extStackSize ≠ 0 then
      p.munmapStack d.extStackBase d.extStackSize
    else p
  p.setDesc k { d with
    toEntry := d.recycle, extTcbCap := 0, extStackBase := 0, extStackSize := 0, stackBase := 0
    stackSize := 0, ipcBufVaddr := 0 }

end Pool

/-- `WORKER_REGION_BASE`. -/
def workerRegionBase : ℕ := 0x6000000000

/-- `IPC_BUF_REGION_BASE`. -/
def ipcBufRegionBase : ℕ := 0x7F0000000000

/-- At first there is the main thread, and the process has something. -/
def Pool.start (res : Holdings) : Pool where
  descs k := if k = 0 then { state := .running } else {}
  res := res.toResources
  vaNext := workerRegionBase
  ipcNext := ipcBufRegionBase
  hint := 1

/-- A process that starts with nothing. -/
def noHoldings : Holdings := ⟨⟨∅, ∅, ∅⟩, subset_rfl⟩

/-! ## Attempts that fail -/

/-- An attempt to start a worker that has failed: the pool before it, the arguments and the answers,
    the failure, and what the process has then and in the end. -/
structure FailedSpawn where
  before : Pool
  input : SpawnInput
  failure : SpawnFailure
  held : Resources
  after : Resources

/-- What the attempt has got: slots, capabilities and pages. -/
def FailedSpawn.acquired (e : FailedSpawn) : Resources := e.held.minus e.before.res

/-- What the attempt has given back: slots are freed, capabilities deleted and pages unmapped. -/
def FailedSpawn.released (e : FailedSpawn) : Resources := e.held.minus e.after

/-! ## What a descriptor says -/

namespace ThreadDesc

variable (d : ThreadDesc)

/-- The frames that are said to be in consecutive slots. -/
def frames (base count : ℕ) : Finset ℕ := if base ≠ 0 then slotRange base count else ∅

/-- The slots that a descriptor says its thread has. -/
def namedSlots : Finset ℕ :=
  (if d.tcbCap ≠ 0 then slotRange d.tcbCap 3 else ∅) ∪ frames d.stackFrameBase d.stackFrameCount ∪
    frames d.tlsFrameBase d.tlsFrameCount

/-- The pages of an area that is said to be mapped. -/
def area (base size : ℕ) : Finset ℕ :=
  if base ≠ 0 ∧ size ≠ 0 then pageRange base (size / 4096) else ∅

/-- The pages that a descriptor says its thread has. -/
def namedPages : Finset ℕ :=
  area d.stackBase d.stackSize ∪ (if d.ipcBufVaddr ≠ 0 then {d.ipcBufVaddr} else ∅) ∪
    area d.tlsRegion d.tlsRegionSize

/-- The kernel objects of a thread are in three consecutive slots, if there are any. -/
def Consecutive : Prop :=
  d.tcbCap = 0 ∧ d.scCap = 0 ∧ d.ipcFrameCap = 0 ∨
    d.tcbCap ≠ 0 ∧ d.scCap = d.tcbCap + 1 ∧ d.ipcFrameCap = d.tcbCap + 2

end ThreadDesc

/-- How many parts of its descriptor an attempt has set when it fails at a call: the kernel objects,
    the frames of the stack, the frames of the variables, the addresses. -/
def SpawnCall.stage : SpawnCall → ℕ
  | .pool | .objectSlots => 0
  | .retypeTcb | .retypeSc | .retypeIpcFrame | .stackSlots => 1
  | .retypeStack _ | .tlsSlots => 2
  | .retypeTls _ => 3
  | .mapStack _ | .mapIpc | .mapTls _ | .setSpace | .setIpcBuffer | .setTlsBase | .configure
  | .scConfigure | .scBind | .resume => 4

/-- What the roll-back takes on trust: what is in the descriptor, but the slots that the attempt has
    got from the allocator. In the parts that the attempt has not set, that is what a thread of the
    past has left there. -/
def Spawning.trusted (s : Spawning) (i : SpawnInput) : ℕ → ThreadDesc
  | 0 => {}
  | 1 => { s.desc with tcbCap := 0 }
  | 2 => { s.desc with tcbCap := 0, stackFrameBase := 0 }
  | 3 => { s.desc with tcbCap := 0, stackFrameBase := 0, tlsFrameBase := 0 }
  | _ => { (s.takeRegion i).desc with tcbCap := 0, stackFrameBase := 0, tlsFrameBase := 0 }

/-- What the roll-back of an attempt takes on trust. -/
def FailedSpawn.trusted (e : FailedSpawn) : ThreadDesc :=
  match e.before.firstUnused with
  | none => {}
  | some k => (e.before.attempt k).trusted e.input e.failure.call.stage

/-- Nothing that the roll-back of an attempt takes on trust was in use before it. -/
def FailedSpawn.Clean (e : FailedSpawn) : Prop :=
  Disjoint e.trusted.namedSlots e.before.res.slots ∧
    Disjoint e.trusted.namedPages e.before.res.pages

instance (e : FailedSpawn) : Decidable e.Clean := inferInstanceAs (Decidable (_ ∧ _))

theorem eraseEach_eq (s : Finset ℕ) (f : ℕ → ℕ) (count : ℕ) :
    eraseEach s f count = s \ (Finset.range count).image f := by
  rw [eraseEach]
  induction count with
  | zero => simp
  | succ count ih =>
    rw [List.range_succ, List.foldl_append, ih, Finset.range_add_one, Finset.image_insert,
      Finset.sdiff_insert]
    rfl

namespace Resources

variable (w : Resources)

theorem without_without (s s' c c' g g' : Finset ℕ) :
    (w.without s c g).without s' c' g' = w.without (s ∪ s') (c ∪ c') (g ∪ g') := by
  simp only [without, sdiff_sdiff_left, Finset.sup_eq_union]

theorem ite_without (P : Prop) [Decidable P] (s c g : Finset ℕ) :
    (if P then w.without s c g else w) =
      w.without (if P then s else ∅) (if P then c else ∅) (if P then g else ∅) := by
  split
  · rfl
  · simp [without]

theorem unmapRange_eq (base count : ℕ) :
    w.unmapRange base count = w.without ∅ ∅ (pageRange base count) := by
  simp [unmapRange, without, eraseEach_eq, pageRange]

theorem freeRange_eq (base count : ℕ) :
    w.freeRange base count = w.without (slotRange base count) ∅ ∅ := by
  simp [freeRange, without, eraseEach_eq, slotRange]

theorem deleteRange_without (base count : ℕ) (s c g : Finset ℕ) :
    (w.deleteRange base count).without s c g = w.without s (slotRange base count ∪ c) g := by
  simp only [deleteRange, without, eraseEach_eq, slotRange, sdiff_sdiff_left, Finset.sup_eq_union]

theorem unmap_eq (page : ℕ) : w.unmap page = w.without ∅ ∅ {page} := by
  simp [unmap, without, Finset.sdiff_singleton_eq_erase]

theorem delete_eq (slot : ℕ) : w.delete slot = w.without ∅ {slot} ∅ := by
  simp [delete, without, Finset.sdiff_singleton_eq_erase]

theorem free_eq (slot : ℕ) : w.free slot = w.without {slot} ∅ ∅ := by
  simp [free, without, Finset.sdiff_singleton_eq_erase]

end Resources

variable {d : ThreadDesc} {i : SpawnInput} {p p' : Pool}

/-- The kernel objects of a thread, as the roll-back deletes them. -/
theorem ThreadDesc.Consecutive.caps (h : d.Consecutive) :
    (((if d.tcbCap ≠ 0 then {d.tcbCap} else ∅) ∪ if d.scCap ≠ 0 then {d.scCap} else ∅) ∪
      if d.ipcFrameCap ≠ 0 then {d.ipcFrameCap} else ∅) =
    if d.tcbCap ≠ 0 then slotRange d.tcbCap 3 else ∅ := by
  rcases h with ⟨htcb, hsc, hipc⟩ | ⟨htcb, hsc, hipc⟩
  · simp [htcb, hsc, hipc]
  · rw [hsc, hipc, if_pos htcb, if_pos htcb, if_pos (by omega), if_pos (by omega)]
    ext x
    simp [slotRange, Finset.range_add_one]
    omega

/-- The roll-back gives back what the descriptor says. -/
theorem ThreadDesc.release_eq (h : d.Consecutive) (w : Resources) :
    d.release w = w.without d.namedSlots d.namedSlots d.namedPages := by
  -- every step takes something out, or nothing where its test fails
  simp only [release, Resources.unmapRange_eq, Resources.unmap_eq, Resources.delete_eq,
    Resources.freeRange_eq, Resources.deleteRange_without, Resources.ite_without, ite_self,
    Finset.union_empty]
  simp only [Resources.without_without, Finset.empty_union, Finset.union_empty]
  rw [h.caps]
  rfl

/-! ## Attempts -/

/-- Where an attempt to start a worker stands: what is in its descriptor, the slots that it has got
    from the allocator, the addresses of the pages that it maps, and the next region. -/
structure Stage (w : Resources) (d : ThreadDesc) (own area : Finset ℕ) (vaNext : ℕ) (s : Spawning) :
    Prop where
  desc : s.desc = d
  vaNext : s.vaNext = vaNext
  fresh : Disjoint own w.slots
  slots : s.res.slots = w.slots ∪ own
  caps : w.caps ⊆ s.res.caps ∧ s.res.caps ⊆ w.caps ∪ own
  pages : w.pages ⊆ s.res.pages ∧ s.res.pages ⊆ w.pages ∪ area

namespace Stage

variable {w : Resources} {d : ThreadDesc} {own area : Finset ℕ} {va : ℕ} {s : Spawning}
  {i : SpawnInput} {c : SpawnCall} {n : ℕ} {E : SpawnFailure → Spawning → Prop}

theorem start (s : Spawning) : Stage s.res s.desc ∅ ∅ s.vaNext s where
  desc := rfl
  vaNext := rfl
  fresh := Finset.disjoint_empty_left _
  slots := (Finset.union_empty _).symm
  caps := ⟨subset_rfl, Finset.subset_union_left⟩
  pages := ⟨subset_rfl, Finset.subset_union_left⟩

theorem mono (h : Stage w d own ∅ va s) (area : Finset ℕ) : Stage w d own area va s := by
  have hpages : s.res.pages ⊆ w.pages := by simpa using h.pages.2
  exact { h with pages := ⟨h.pages.1, hpages.trans Finset.subset_union_left⟩ }

section

variable (h : Stage w d own area va s)

include h

theorem check (hc : c.stage = n) (hE : ∀ e t, e.call.stage = n → Stage w d own area va t → E e t) :
    wp (check i c) (fun _ => Stage w d own area va) E s := by
  rw [ThreadPool.check]
  exact wp_ite.2 ⟨fun _ => wp_throw.2 (hE _ s hc h), fun _ => wp_pure.2 h⟩

theorem retype (hc : c.stage = n) {slot : ℕ} (hslot : slot ∈ own)
    (hE : ∀ e t, e.call.stage = n → Stage w d own area va t → E e t) :
    wp (retype i c slot) (fun _ => Stage w d own area va) E s := by
  rw [ThreadPool.retype, wp_bind]
  refine wp_post (h.check hc hE) fun _ t ht => ?_
  rw [wp_bind, wp_get]
  refine wp_ite.2 ⟨fun _ => wp_throw.2 (hE _ t hc ht), fun _ => wp_modify.2 ?_⟩
  have hcaps : insert slot t.res.caps ⊆ w.caps ∪ own :=
    Finset.insert_subset (Finset.mem_union_right _ hslot) ht.caps.2
  exact { ht with caps := ⟨ht.caps.1.trans (Finset.subset_insert _ _), hcaps⟩ }

theorem mapPage (hc : c.stage = n) {page : ℕ} (hpage : page ∈ area)
    (hE : ∀ e t, e.call.stage = n → Stage w d own area va t → E e t) :
    wp (mapPage i c page) (fun _ => Stage w d own area va) E s := by
  rw [ThreadPool.mapPage, wp_bind]
  refine wp_post (h.check hc hE) fun _ t ht => ?_
  rw [wp_bind, wp_get]
  refine wp_ite.2 ⟨fun _ => wp_throw.2 (hE _ t hc ht), fun _ => wp_modify.2 ?_⟩
  have hpages : insert page t.res.pages ⊆ w.pages ∪ area :=
    Finset.insert_subset (Finset.mem_union_right _ hpage) ht.pages.2
  exact { ht with pages := ⟨ht.pages.1.trans (Finset.subset_insert _ _), hpages⟩ }

/-- A loop over calls keeps the stage if each of them does. -/
theorem forM {α : Type} {l : List α} {g : α → SpawnM PUnit}
    (hg : ∀ a ∈ l, ∀ t, Stage w d own area va t → wp (g a) (fun _ => Stage w d own area va) E t) :
    wp (l.forM g) (fun _ => Stage w d own area va) E s := by
  refine wp_forM (fun _ => Stage w d own area va) h fun pre a post t hl ht => ?_
  exact hg a (by simp [hl]) t ht

theorem takeSlots {count : ℕ} (hE : ∀ e t, e.call = c → Stage w d own area va t → E e t) :
    wp (takeSlots i c count)
      (fun base t => base ≠ 0 ∧ Stage w d (own ∪ slotRange base count) area va t) E s := by
  rw [ThreadPool.takeSlots, wp_bind, wp_get]
  rcases hoffer : s.res.offer count (i.slots c) with _ | base
  · exact wp_throw.2 (hE _ s rfl h)
  · rw [Resources.offer, Option.filter_eq_some_iff, decide_eq_true_iff] at hoffer
    obtain ⟨-, hpos, hfree⟩ := hoffer
    rw [h.slots, Finset.disjoint_union_right] at hfree
    rw [wp_bind, wp_modify, wp_pure]
    refine ⟨hpos.ne', { h with fresh := ?_, slots := ?_, caps := ⟨h.caps.1, ?_⟩ }⟩
    · exact Finset.disjoint_union_left.2 ⟨h.fresh, hfree.1⟩
    · rw [← Finset.union_assoc, ← h.slots]
    · rw [← Finset.union_assoc]
      exact h.caps.2.trans Finset.subset_union_left

/-- Slots are taken for frames and written into the descriptor, and then the frames are made. -/
theorem frames (hc : c.stage = n) {count : ℕ} {c' : ℕ → SpawnCall} (hc' : ∀ p, (c' p).stage = n + 1)
    {f : ℕ → ThreadDesc → ThreadDesc}
    (hE : ∀ e t, e.call.stage = n → Stage w d own area va t → E e t)
    (hE' : ∀ base, base ≠ 0 → ∀ e t, e.call.stage = n + 1 →
      Stage w (f base d) (own ∪ slotRange base count) area va t → E e t) :
    wp (do
        let base ← ThreadPool.takeSlots i c count
        modify fun s => { s with desc := f base s.desc }
        (List.range count).forM fun p => ThreadPool.retype i (c' p) (base + p))
      (fun _ t => ∃ base ≠ 0, Stage w (f base d) (own ∪ slotRange base count) area va t) E s := by
  rw [wp_bind]
  refine wp_post (h.takeSlots fun e t he => hE e t (he ▸ hc)) fun base t ht => ?_
  obtain ⟨hbase, ht⟩ := ht
  rw [wp_bind, wp_modify]
  have hwritten : Stage w (f base d) (own ∪ slotRange base count) area va
      { t with desc := f base t.desc } := { ht with desc := by rw [ht.desc] }
  refine wp_post (hwritten.forM fun p hp t ht => ?_) fun _ t ht => ⟨base, hbase, ht⟩
  refine ht.retype (hc' p) (Finset.mem_union_right _ ?_) (hE' base hbase)
  exact Finset.mem_image_of_mem _ (Finset.mem_range.2 (List.mem_range.1 hp))

theorem caps_subset (hw : w.caps ⊆ w.slots) : s.res.caps ⊆ s.res.slots := by
  rw [h.slots]
  exact h.caps.2.trans (Finset.union_subset_union_left hw)

end

/-- At first an attempt has got nothing. -/
theorem res_eq (h : Stage w d ∅ ∅ va s) : s.res = w := by
  refine Resources.ext ?_ ?_ ?_
  · rw [h.slots, Finset.union_empty]
  · exact subset_antisymm (by simpa using h.caps.2) h.caps.1
  · exact subset_antisymm (by simpa using h.pages.2) h.pages.1

end Stage

namespace ThreadDesc

variable (d : ThreadDesc)

theorem consecutive_withObjects {base : ℕ} (hbase : base ≠ 0) : (d.withObjects base).Consecutive :=
  .inr ⟨hbase, rfl, rfl⟩

theorem frames_zero (count : ℕ) : frames 0 count = ∅ := rfl

theorem frames_of_ne {base : ℕ} (hbase : base ≠ 0) (count : ℕ) :
    frames base count = slotRange base count := if_pos hbase

end ThreadDesc

section

variable (s : Spawning) (i : SpawnInput)

/-- Where an attempt stands when a call has failed and it is to be rolled back. -/
structure Midway (e : SpawnFailure) (t : Spawning) : Prop where
  notFirst : e.call ≠ .objectSlots
  consecutive : t.desc.Consecutive
  stage : ∃ own va, Stage s.res t.desc own t.desc.namedPages va t ∧
    t.desc.namedSlots = own ∪ (s.trusted i e.call.stage).namedSlots
  namedPages : t.desc.namedPages = (s.trusted i e.call.stage).namedPages

/-- Where an attempt stands when a call has failed. -/
def Failed (e : SpawnFailure) (t : Spawning) : Prop :=
  e.call = .objectSlots ∧ t.desc = s.desc ∧ t.res = s.res ∨ Midway s i e t

variable {s i} {d : ThreadDesc} {own : Finset ℕ} {va n : ℕ} {e : SpawnFailure} {t : Spawning}

theorem Stage.failed (h : Stage s.res d own d.namedPages va t) (hstage : e.call.stage = n + 1)
    (hd : d.Consecutive) (hslots : d.namedSlots = own ∪ (s.trusted i (n + 1)).namedSlots)
    (hpages : d.namedPages = (s.trusted i (n + 1)).namedPages) : Failed s i e t := by
  obtain rfl := h.desc
  rw [← hstage] at hslots hpages
  refine .inr ⟨?_, hd, ⟨own, va, h, hslots⟩, hpages⟩
  intro hcall
  rw [hcall] at hstage
  cases hstage

variable {b b' b'' : ℕ}

/-- From the first slots on a failure is rolled back, with the frames and the pages of the past. -/
theorem Stage.failed_objects (h : Stage s.res (s.desc.withObjects b) (slotRange b 3) ∅ va t)
    (hb : b ≠ 0) (hstage : e.call.stage = 1) : Failed s i e t := by
  refine (h.mono _).failed hstage (s.desc.consecutive_withObjects hb) ?_ rfl
  simp [ThreadDesc.withObjects, Spawning.trusted, ThreadDesc.namedSlots, hb]

theorem Stage.failed_stack {count : ℕ}
    (h : Stage s.res ((s.desc.withObjects b).withStack count b')
      (slotRange b 3 ∪ slotRange b' count) ∅ va t)
    (hb : b ≠ 0) (hb' : b' ≠ 0) (hstage : e.call.stage = 2) : Failed s i e t := by
  refine (h.mono _).failed hstage (s.desc.consecutive_withObjects hb) ?_ rfl
  simp [ThreadDesc.withObjects, ThreadDesc.withStack, Spawning.trusted, ThreadDesc.namedSlots,
    ThreadDesc.frames_zero, ThreadDesc.frames_of_ne hb', hb]

theorem Stage.failed_tls {count count' : ℕ}
    (h : Stage s.res (((s.desc.withObjects b).withStack count b').withTls count' b'')
      (slotRange b 3 ∪ slotRange b' count ∪ slotRange b'' count') ∅ va t)
    (hb : b ≠ 0) (hb' : b' ≠ 0) (hb'' : b'' ≠ 0) (hstage : e.call.stage = 3) : Failed s i e t := by
  refine (h.mono _).failed hstage (s.desc.consecutive_withObjects hb) ?_ rfl
  simp [ThreadDesc.withObjects, ThreadDesc.withStack, ThreadDesc.withTls, Spawning.trusted,
    ThreadDesc.namedSlots, ThreadDesc.frames_zero, ThreadDesc.frames_of_ne hb',
    ThreadDesc.frames_of_ne hb'', hb]

/-- The descriptor of an attempt that has got everything from the allocator. -/
def ThreadDesc.withSlots (d : ThreadDesc) (i : SpawnInput) (b b' b'' : ℕ) : ThreadDesc :=
  ((d.withObjects b).withStack i.stackPages b').withTls i.tlsPages b''

/-- The slots of an attempt that has got everything from the allocator. -/
def SpawnInput.ownSlots (i : SpawnInput) (b b' b'' : ℕ) : Finset ℕ :=
  slotRange b 3 ∪ slotRange b' i.stackPages ∪ slotRange b'' i.tlsPages

theorem wp_acquireObjects :
    wp (acquireObjects i)
      (fun _ t => ∃ b ≠ 0, Stage s.res (s.desc.withObjects b) (slotRange b 3) ∅ s.vaNext t)
      (Failed s i) s := by
  rw [acquireObjects, wp_bind]
  refine wp_post ((Stage.start s).takeSlots fun e t hcall ht => .inl ⟨hcall, ht.desc, ht.res_eq⟩)
    fun b t ht => ?_
  obtain ⟨hb, ht⟩ := ht
  -- from here on a failure is rolled back
  rw [wp_bind, wp_modify, wp_bind]
  have hwritten : Stage s.res (s.desc.withObjects b) (slotRange b 3) ∅ s.vaNext
      { t with desc := t.desc.withObjects b } := { ht with desc := by rw [ht.desc] }
  have hmem : ∀ p < 3, b + p ∈ slotRange b 3 := fun p hp =>
    Finset.mem_image_of_mem _ (Finset.mem_range.2 hp)
  have hE : ∀ e t, e.call.stage = 1 →
      Stage s.res (s.desc.withObjects b) (slotRange b 3) ∅ s.vaNext t → Failed s i e t :=
    fun e t hstage ht => ht.failed_objects hb hstage
  refine wp_post (hwritten.retype rfl (hmem 0 (by decide)) hE) fun _ t ht => ?_
  rw [wp_bind]
  refine wp_post (ht.retype rfl (hmem 1 (by decide)) hE) fun _ t ht => ?_
  exact wp_post (ht.retype rfl (hmem 2 (by decide)) hE) fun _ t ht => ⟨b, hb, ht⟩

theorem wp_acquireSlots :
    wp (acquireSlots i)
      (fun _ t => ∃ b b' b'', b ≠ 0 ∧ b' ≠ 0 ∧ b'' ≠ 0 ∧
        Stage s.res (s.desc.withSlots i b b' b'') (i.ownSlots b b' b'') ∅ s.vaNext t)
      (Failed s i) s := by
  rw [acquireSlots, wp_bind]
  refine wp_post wp_acquireObjects fun _ t ht => ?_
  obtain ⟨b, hb, ht⟩ := ht
  rw [wp_bind]
  refine wp_post (ht.frames (f := fun b d => d.withStack i.stackPages b) rfl (fun _ => rfl)
    (fun e t hstage ht => ht.failed_objects hb hstage)
    fun b' hb' e t hstage ht => ht.failed_stack hb hb' hstage) fun _ t ht => ?_
  obtain ⟨b', hb', ht⟩ := ht
  refine wp_post (ht.frames (f := fun b d => d.withTls i.tlsPages b) rfl (fun _ => rfl)
    (fun e t hstage ht => ht.failed_stack hb hb' hstage)
    fun b'' hb'' e t hstage ht => ht.failed_tls hb hb' hb'' hstage) fun _ t ht => ?_
  obtain ⟨b'', hb'', ht⟩ := ht
  exact ⟨b, b', b'', hb, hb', hb'', ht⟩

theorem mem_area {base count p : ℕ} (hbase : base ≠ 0) (hp : p < count) :
    base + 4096 * p ∈ ThreadDesc.area base (count * 0x1000) := by
  rw [ThreadDesc.area, if_pos ⟨hbase, by omega⟩, Nat.mul_div_cancel _ (by decide)]
  exact Finset.mem_image_of_mem _ (Finset.mem_range.2 hp)

/-- Where an attempt stands that has its addresses, as they are in `u`. -/
abbrev Addressed (w : Resources) (own : Finset ℕ) (u : Spawning) : Spawning → Prop :=
  Stage w u.desc own u.desc.namedPages u.vaNext

/-- With the addresses set, a failure is rolled back with slots of the attempt only. -/
theorem Stage.failed_region {u : Spawning} (hdesc : u.desc = s.desc.withSlots i b b' b'')
    (hva : u.vaNext = s.vaNext)
    (h : Addressed s.res (i.ownSlots b b' b'') (u.takeRegion i) t)
    (hb : b ≠ 0) (hb' : b' ≠ 0) (hb'' : b'' ≠ 0) (hstage : e.call.stage = 4) : Failed s i e t := by
  obtain ⟨ud, uw, uva⟩ := u
  obtain rfl : ud = s.desc.withSlots i b b' b'' := hdesc
  obtain rfl : uva = s.vaNext := hva
  refine Stage.failed h hstage (s.desc.consecutive_withObjects hb) ?_ rfl
  simp [ThreadDesc.withSlots, ThreadDesc.withObjects, ThreadDesc.withStack, ThreadDesc.withTls,
    Spawning.takeRegion, Spawning.trusted, ThreadDesc.namedSlots, SpawnInput.ownSlots,
    ThreadDesc.frames_zero, ThreadDesc.frames_of_ne hb', ThreadDesc.frames_of_ne hb'', hb]

/-- The pages that an attempt maps are those that its descriptor says. -/
theorem wp_mapRegion {E : SpawnFailure → Spawning → Prop} {w : Resources} {u : Spawning}
    (hu : Stage w d own ∅ va u)
    (hE : ∀ e t, e.call.stage = 4 → Addressed w own (u.takeRegion i) t → E e t) :
    wp (mapRegion i) (fun _ => Addressed w own (u.takeRegion i)) E u := by
  have htaken : Addressed w own (u.takeRegion i) (u.takeRegion i) :=
    { hu.mono _ with desc := rfl, vaNext := rfl }
  rw [mapRegion, wp_bind, wp_modify, wp_bind, wp_get, wp_bind]
  refine wp_post (htaken.forM fun p hp t ht => ht.mapPage rfl ?_ hE) fun _ t ht => ?_
  · refine Finset.mem_union_left _ (Finset.mem_union_left _ ?_)
    exact mem_area (Nat.succ_ne_zero _) (List.mem_range.1 hp)
  rw [wp_bind]
  refine wp_post (ht.mapPage rfl ?_ hE) fun _ t ht => ?_
  · refine Finset.mem_union_left _ (Finset.mem_union_right _ ?_)
    rw [if_pos (by simp [Spawning.takeRegion])]
    exact Finset.mem_singleton_self _
  refine ht.forM fun p hp t ht => ht.mapPage rfl (Finset.mem_union_right _ ?_) hE
  exact mem_area (Nat.succ_ne_zero _) (List.mem_range.1 hp)

/-- An attempt that succeeds has what its descriptor says, and one that fails stands where the call
    says that has failed. -/
theorem wp_spawnBody :
    wp (spawnBody i)
      (fun _ t => t.desc.Consecutive ∧ ∃ own area va, Stage s.res t.desc own area va t)
      (Failed s i) s := by
  rw [spawnBody, wp_bind]
  refine wp_post wp_acquireSlots fun _ u hu => ?_
  obtain ⟨b, b', b'', hb, hb', hb'', hu⟩ := hu
  have hE : ∀ e t, e.call.stage = 4 →
      Addressed s.res (i.ownSlots b b' b'') (u.takeRegion i) t → Failed s i e t :=
    fun e t hstage ht => Stage.failed_region hu.desc hu.vaNext ht hb hb' hb'' hstage
  rw [wp_bind]
  refine wp_post (wp_mapRegion hu hE) fun _ t ht => ?_
  have hstage : ∀ c ∈ startCalls, c.stage = 4 := by decide
  refine wp_post (ht.forM fun c hc t ht => ht.check (hstage c hc) hE) fun _ t ht => ?_
  have hconsecutive : u.desc.Consecutive := by
    rw [hu.desc]
    exact s.desc.consecutive_withObjects hb
  have hdesc : t.desc = (u.takeRegion i).desc := ht.desc
  exact ⟨hdesc ▸ hconsecutive, _, _, _, { ht with desc := rfl }⟩

/-! ## The roll-back -/

/-- What there is can be given back so that exactly what has been added is gone, if and only if what
    is named was not there before. -/
theorem sdiff_sdiff_eq_iff {before held named : Finset ℕ} (hsub : before ⊆ held)
    (hsup : held ⊆ before ∪ named) :
    held \ (held \ named) = held \ before ↔ Disjoint named before := by
  rw [sdiff_sdiff_right_self, Finset.inf_eq_inter]
  constructor
  · intro heq
    refine Finset.disjoint_left.2 fun x hnamed hbefore => ?_
    have hx : x ∈ held \ before := heq ▸ Finset.mem_inter.2 ⟨hsub hbefore, hnamed⟩
    exact (Finset.mem_sdiff.1 hx).2 hbefore
  · intro hdisjoint
    ext x
    rw [Finset.mem_inter, Finset.mem_sdiff]
    constructor
    · rintro ⟨hheld, hnamed⟩
      exact ⟨hheld, Finset.disjoint_left.1 hdisjoint hnamed⟩
    · rintro ⟨hheld, hbefore⟩
      exact ⟨hheld, (Finset.mem_union.1 (hsup hheld)).resolve_left hbefore⟩

/-- What is given back is what has been got, if and only if nothing that the roll-back takes on
    trust is in use. -/
theorem Failed.released_iff (h : Failed s i e t) (hs : s.res.caps ⊆ s.res.slots) :
    t.res.minus (rollback e t).res = t.res.minus s.res ↔
      Disjoint (s.trusted i e.call.stage).namedSlots s.res.slots ∧
        Disjoint (s.trusted i e.call.stage).namedPages s.res.pages := by
  rcases h with ⟨hcall, -, hres⟩ | h
  · -- without slots nothing has been got, and nothing is given back
    simp [rollback, hcall, hres, SpawnCall.stage, Spawning.trusted, ThreadDesc.namedSlots,
      ThreadDesc.namedPages, ThreadDesc.frames, ThreadDesc.area]
  obtain ⟨own, va, hstage, hnamed⟩ := h.stage
  have hslots : t.res.slots ⊆ s.res.slots ∪ t.desc.namedSlots := by
    rw [hstage.slots, hnamed]
    exact Finset.union_subset_union_right Finset.subset_union_left
  have hcaps : t.res.caps ⊆ s.res.caps ∪ t.desc.namedSlots := by
    rw [hnamed]
    exact hstage.caps.2.trans (Finset.union_subset_union_right Finset.subset_union_left)
  have hfresh : Disjoint t.desc.namedSlots s.res.slots ↔
      Disjoint (s.trusted i e.call.stage).namedSlots s.res.slots := by
    rw [hnamed, Finset.disjoint_union_left]
    exact and_iff_right hstage.fresh
  -- slots, capabilities and pages are each a case of the statement about sets
  rw [rollback, if_neg h.notFirst, ThreadDesc.release_eq h.consecutive, ← hfresh, ← h.namedPages]
  simp only [Resources.minus, Resources.without, Resources.mk.injEq]
  rw [sdiff_sdiff_eq_iff (hstage.slots ▸ Finset.subset_union_left) hslots,
    sdiff_sdiff_eq_iff hstage.caps.1 hcaps, sdiff_sdiff_eq_iff hstage.pages.1 hstage.pages.2]
  constructor
  · rintro ⟨hslots, -, hpages⟩
    exact ⟨hslots, hpages⟩
  · -- a capability is in a slot, so where no slot is in use there is none
    rintro ⟨hslots, hpages⟩
    exact ⟨hslots, hslots.mono_right hs, hpages⟩

end

/-! ## Whole runs -/

/-- What holds of the pool all the time. -/
structure Pool.Sound (p : Pool) : Prop where
  caps_subset : p.res.caps ⊆ p.res.slots
  consecutive : ∀ k, (p.descs k).Consecutive

theorem Resources.caps_subset_without {w : Resources} (h : w.caps ⊆ w.slots) (n g : Finset ℕ) :
    (w.without n n g).caps ⊆ (w.without n n g).slots := Finset.sdiff_subset_sdiff h subset_rfl

namespace Pool.Sound

variable {p : Pool} (h : p.Sound) {k : ℕ}

include h

variable {slot base size : ℕ} {d : ThreadDesc}

theorem update (hd : d.Consecutive) (j : ℕ) : (Function.update p.descs k d j).Consecutive := by
  rcases eq_or_ne j k with rfl | hne
  · rwa [Function.update_self]
  · rw [Function.update_of_ne hne]
    exact h.consecutive j

theorem setDesc (hd : d.Consecutive) : (p.setDesc k d).Sound :=
  ⟨h.caps_subset, h.update hd⟩

theorem abandon : (p.abandon k).Sound := h.setDesc (h.consecutive k)

theorem munmapStack : (p.munmapStack base size).Sound :=
  ⟨h.caps_subset, h.consecutive⟩

theorem dropSlot : (p.dropSlot slot).Sound := by
  refine ⟨?_, h.consecutive⟩
  rw [Pool.dropSlot, Resources.delete_eq, Resources.free_eq, Resources.without_without]
  simpa using Resources.caps_subset_without h.caps_subset {slot} ∅

theorem takeDesc {detached : Bool} : (p.takeDesc k detached).Sound := by
  refine ⟨h.caps_subset, h.update ?_⟩
  exact h.consecutive k

theorem giveStack : (p.giveStack k base size).Sound := by
  refine ⟨h.caps_subset, h.update ?_⟩
  exact h.consecutive k

theorem giveIpcBuffer : (p.giveIpcBuffer k).Sound := by
  refine ⟨h.caps_subset, h.update ?_⟩
  exact h.consecutive k

theorem takeSlot : (p.takeSlot slot).Sound :=
  ⟨h.caps_subset.trans Finset.subset_union_left, h.consecutive⟩

theorem publish {tid : ℕ} (hslot : slot ∈ p.res.slots) : (p.publish k slot tid).Sound := by
  refine ⟨Finset.insert_subset hslot h.caps_subset, h.update ?_⟩
  exact h.consecutive k

theorem pthreadJoin : (p.pthreadJoin k).Sound := by
  have hunmapped : Pool.Sound { p with res := p.res.unmap (p.descs k).ipcBufVaddr } :=
    ⟨h.caps_subset, h.consecutive⟩
  refine Pool.Sound.setDesc ?_ (h.consecutive k)
  split
  · split
    · exact hunmapped.dropSlot.munmapStack
    · exact hunmapped.munmapStack
  · split
    · exact hunmapped.dropSlot
    · exact hunmapped

theorem cleanupThread : (p.cleanupThread k).Sound := by
  refine ⟨?_, h.update ?_⟩
  · rw [Pool.cleanupThread, ThreadDesc.release_eq (h.consecutive k)]
    exact Resources.caps_subset_without h.caps_subset _ _
  · exact h.consecutive k

end Pool.Sound

/-- What `spawn_worker` can do. -/
inductive Spawned (p : Pool) (i : SpawnInput) : Pool × Option (SpawnFailure × Resources) → Prop
  /-- No descriptor is unused. -/
  | full (hunused : p.firstUnused = none) : Spawned p i (p, some (⟨.pool, -1⟩, p.res))
  | started {k : ℕ} {own area : Finset ℕ} {va : ℕ} {s : Spawning} (hunused : p.firstUnused = some k)
      (hconsecutive : s.desc.Consecutive) (hstage : Stage p.res s.desc own area va s) :
      Spawned p i (p.conclude k s, none)
  | failed {k : ℕ} {e : SpawnFailure} {s : Spawning} (hunused : p.firstUnused = some k)
      (hfailed : Failed (p.attempt k) i e s) :
      Spawned p i (p.conclude k (rollback e s), some (e, s.res))

theorem Pool.spawnWorker_spawned (p : Pool) (i : SpawnInput) : Spawned p i (p.spawnWorker i) := by
  rw [spawnWorker]
  rcases hunused : p.firstUnused with _ | k
  · exact .full hunused
  have hbody : wp (spawnBody i) _ _ (p.attempt k) := wp_spawnBody
  dsimp only
  cases hrun : (spawnBody i).run (p.attempt k) with
  | ok a s =>
    obtain ⟨hconsecutive, own, area, va, hstage⟩ := wp_ok hbody hrun
    exact .started hunused hconsecutive hstage
  | error e s => exact .failed hunused (wp_error hbody hrun)

theorem Failed.sound {s t : Spawning} {e : SpawnFailure} (h : Failed s i e t)
    (hs : s.res.caps ⊆ s.res.slots) (hd : s.desc.Consecutive) :
    (rollback e t).res.caps ⊆ (rollback e t).res.slots ∧ (rollback e t).desc.Consecutive := by
  rcases h with ⟨hcall, hdesc, hres⟩ | h
  · rw [rollback, if_pos hcall, hdesc, hres]
    exact ⟨hs, hd⟩
  · obtain ⟨own, va, hstage, -⟩ := h.stage
    rw [rollback, if_neg h.notFirst, ThreadDesc.release_eq h.consecutive]
    exact ⟨Resources.caps_subset_without (hstage.caps_subset hs) _ _, h.consecutive⟩

/-- `spawn_worker` keeps what holds of the pool. -/
theorem Spawned.sound {r : Pool × Option (SpawnFailure × Resources)} (h : Spawned p i r)
    (hp : p.Sound) : r.1.Sound := by
  cases h with
  | full => exact hp
  | started _ hconsecutive hstage =>
    exact ⟨hstage.caps_subset hp.caps_subset, hp.update hconsecutive⟩
  | failed _ hfailed =>
    obtain ⟨hcaps, hconsecutive⟩ := hfailed.sound hp.caps_subset (hp.consecutive _)
    exact ⟨hcaps, hp.update hconsecutive⟩

theorem Spawned.released_iff {e : FailedSpawn}
    (h : Spawned e.before e.input (p', some (e.failure, e.held))) (hafter : e.after = p'.res)
    (hp : e.before.Sound) : e.released = e.acquired ↔ e.Clean := by
  rw [FailedSpawn.released, FailedSpawn.acquired, FailedSpawn.Clean, FailedSpawn.trusted, hafter]
  generalize e.failure = failure, e.held = held at h ⊢
  cases h with
  | full hunused =>
    rw [hunused]
    exact iff_of_true rfl ⟨Finset.disjoint_empty_left _, Finset.disjoint_empty_left _⟩
  | failed hunused hfailed =>
    rw [hunused]
    exact hfailed.released_iff hp.caps_subset

end ThreadPool

end Trona
