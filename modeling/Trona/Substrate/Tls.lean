import Trona.Lib.Stores
import Trona.Rtld.Tls

/-!
# Thread-local data in libtrona

`substrate/tls.rs` reads the layout of static TLS from the variables that the linker has set,
fills the thread-local data of a thread (`initialize_static_tls_for_tp`) and finds a variable in
it (`tls_addr_from_tp`).

There are three ways to start a thread, which differ in where they put the thread pointer and
the thread control block: the main thread has a static block, a worker of the substrate
(`substrate/worker.rs`) has a region of its own, and a thread of POSIX (`posix/pthread.rs`) has
the top of its stack.
-/

namespace Trona

namespace Tls

open Rtld

/-! ## The variables -/

/-- `MAX_STATIC_TLS_MODULES`. -/
def maxStaticTlsModules : ℕ := 8

/-- `MAX_ELF_TLS_SIZE`. -/
def maxElfTlsSize : ℕ := 4096

/-- The size of the header at the thread pointer. -/
def abiTcbSize : Arch → ℕ
  | .x86_64 => 0
  | .aarch64 => 16

/-- The size and the alignment of `ThreadLocalBlock`. -/
def tcbSize : ℕ := 272

def tcbAlign : ℕ := 8

/-- The sum of two words, and the greatest word if it is not one. -/
def satAdd (a b : ℕ) : ℕ := min (a + b) (2 ^ 64 - 1)

/-- `tp_offset as u64`. -/
def tpWord (mod : TlsModule) : ℕ := (mod.tpoff % 2 ^ 64).toNat

section

variable (arch : Arch) (vars : TlsSymbols) (m : Bytes)

def staticTlsTotalMemsz : ℕ := m.word vars.memsz

def staticTlsAlign : ℕ :=
  let align := m.word vars.align
  if align < 1 then 1 else align

def staticTlsModuleCount : ℕ := min (m.word vars.moduleCount) maxStaticTlsModules

def readModule (a : ℕ) : TlsModule :=
  ⟨m.word a, m.word (a + 8), m.word (a + 16), m.word (a + 24), Int.bmod (m.word (a + 32)) (2 ^ 64)⟩

def staticTlsModule (i : ℕ) : TlsModule := readModule m (vars.modules + tlsModuleSize * i)

def defaultTlsBaseFromTp (tp : ℕ) : ℕ :=
  match arch with
  | .x86_64 => wsub tp (staticTlsTotalMemsz vars m)
  | .aarch64 => (tp + abiTcbSize .aarch64) % 2 ^ 64

/-! ## Filling and lookup -/

/-- Copy the template of one object: the body of the loop. -/
def copyModule (tp i : ℕ) : Bytes :=
  let mod := staticTlsModule vars m i
  if mod.moduleId = 0 ∨ mod.memsz = 0 then m
  else if mod.templateAddr ≠ 0 ∧ mod.filesz > 0 then
    m.copy mod.templateAddr ⟨(tp + tpWord mod) % 2 ^ 64, mod.filesz⟩
  else m

/-- Fill the thread-local data of the thread with the thread pointer `tp`. Nothing is done if
    there is more than `MAX_ELF_TLS_SIZE` of it. -/
def initializeStaticTlsForTp (tp : ℕ) : Bytes :=
  let memsz := staticTlsTotalMemsz vars m
  if memsz = 0 ∨ memsz > maxElfTlsSize then m
  else
    let base := defaultTlsBaseFromTp arch vars m tp
    let m := m.zero ⟨base, memsz⟩
    let count := staticTlsModuleCount vars m
    if count = 0 then
      let filesz := m.word vars.filesz
      let template := m.word vars.template
      if template ≠ 0 ∧ filesz > 0 then m.copy template ⟨base, filesz⟩ else m
    else (List.range count).foldl (fun m i => copyModule vars m tp i) m

/-- The address of a variable of an object. -/
def tlsAddrFromTp (tp moduleId offset : ℕ) : ℕ :=
  let count := staticTlsModuleCount vars m
  let base := defaultTlsBaseFromTp arch vars m tp
  if moduleId ≠ 0 ∧ count ≠ 0 then
    match (List.range count).find? fun i => (staticTlsModule vars m i).moduleId = moduleId with
    | some i => ((tp + tpWord (staticTlsModule vars m i)) % 2 ^ 64 + offset) % 2 ^ 64
    | none => (base + offset) % 2 ^ 64
  else (base + offset) % 2 ^ 64

/-! ## The start of a thread -/

/-- `align_down` and `align_up` of the Rust sources. -/
def alignDownTo (value align : ℕ) : ℕ := if align ≤ 1 then value else alignDown align value

def alignUpTo (value align : ℕ) : ℕ :=
  if align ≤ 1 then value else alignDown align (satAdd value (align - 1))

/-- The size of the region of a worker. -/
def threadTlsRegionSize : ℕ :=
  let memsz := staticTlsTotalMemsz vars m
  let align := max (staticTlsAlign vars m) 16
  match arch with
  | .x86_64 => alignUpTo ((memsz + tcbSize + (max align tcbAlign - 1)) % 2 ^ 64) 4096
  | .aarch64 =>
    alignUpTo ((abiTcbSize .aarch64 + memsz + (tcbAlign - 1) + tcbSize + align) % 2 ^ 64) 4096

/-- Where a thread has its data: what is filled with zero before all else, the thread pointer, and
    the thread control block. -/
structure Placement where
  zeroed : Range
  tp : ℕ
  tcb : ℕ

/-- The control block on AArch64, after the data. -/
def tcbAfter (tp : ℕ) : ℕ :=
  alignUpTo (satAdd (satAdd tp (abiTcbSize .aarch64)) (staticTlsTotalMemsz vars m)) tcbAlign

/-- The main thread, with `MAIN_TLS_BLOCK` at `block`. -/
def mainPlacement (block : ℕ) : Placement :=
  match arch with
  | .x86_64 => ⟨⟨0, 0⟩, block + maxElfTlsSize, block + maxElfTlsSize⟩
  | .aarch64 => ⟨⟨0, 0⟩, block, block + abiTcbSize .aarch64 + maxElfTlsSize⟩

/-- A worker, with its region at `tlsVa`. -/
def workerPlacement (tlsVa : ℕ) : Placement :=
  let regionSize := threadTlsRegionSize arch vars m
  let tlsPages := if regionSize > 0 then regionSize / 4096 else 1
  let size := tlsPages * 4096
  let align := max (staticTlsAlign vars m) 16
  match arch with
  | .x86_64 =>
    let tcb := alignDownTo ((tlsVa + size) % 2 ^ 64 - tcbSize) (max align tcbAlign)
    ⟨⟨tlsVa, size⟩, tcb, tcb⟩
  | .aarch64 =>
    let tp := alignDownTo tlsVa align
    ⟨⟨tlsVa, size⟩, tp, tcbAfter vars m tp⟩

/-- A thread of POSIX, with its stack at `stackBase`. -/
def pthreadPlacement (stackBase stackSize : ℕ) : Placement :=
  let stackTop := (stackBase + stackSize) % 2 ^ 64
  let memsz := staticTlsTotalMemsz vars m
  let align := max (staticTlsAlign vars m) 16
  match arch with
  | .x86_64 =>
    let tcb := alignDownTo (stackTop - tcbSize) (max align tcbAlign)
    let base := tcb - memsz
    ⟨⟨base, satAdd tcb tcbSize - base⟩, tcb, tcb⟩
  | .aarch64 =>
    let hint := satAdd (satAdd (satAdd (abiTcbSize .aarch64) memsz) (tcbAlign - 1)) tcbSize
    let tp := alignDownTo (stackTop - hint) align
    let tcb := tcbAfter vars m tp
    ⟨⟨tp, satAdd tcb tcbSize - tp⟩, tp, tcb⟩

end

/-- Set the header at the thread pointer. -/
def installRuntimeTcbAnchor (arch : Arch) (tp tcb : ℕ) (m : Bytes) : Bytes :=
  match arch with
  | .x86_64 => m
  | .aarch64 => (m.put tp (wordBytes 8 tcb)).put (tp + 8) (wordBytes 8 0)

/-- What is stored in the control block. -/
structure TcbFields where
  ipcBuffer : ℕ
  sendCapCount : ℕ
  threadId : ℕ
  desc : ℕ

/-- Store the fields of a control block: `self_ptr`, `ipc_ctx`, `thread_id` and `desc`. -/
def storeTcb (tcb : ℕ) (fields : TcbFields) (m : Bytes) : Bytes :=
  let m := m.put tcb (wordBytes 8 tcb)
  let m := m.put (tcb + 8) (wordBytes 8 fields.ipcBuffer)
  let m := m.put (tcb + 16) (wordBytes 4 fields.sendCapCount)
  let m := m.put (tcb + 24) (wordBytes 8 fields.threadId)
  m.put (tcb + 40) (wordBytes 8 fields.desc)

/-- What comes after the thread-local data: the header and the control block. -/
def Placement.finish (arch : Arch) (pl : Placement) (fields : TcbFields) (m : Bytes) : Bytes :=
  storeTcb pl.tcb fields (installRuntimeTcbAnchor arch pl.tp pl.tcb m)

/-- Set up a thread that has its place. -/
def Placement.setUp (arch : Arch) (vars : TlsSymbols) (pl : Placement) (fields : TcbFields)
    (m : Bytes) : Bytes :=
  pl.finish arch fields (initializeStaticTlsForTp arch vars (m.zero pl.zeroed) pl.tp)

/-- The ways to start a thread. -/
inductive Start
  | main (block : ℕ)
  | worker (tlsVa : ℕ)
  | pthread (stackBase stackSize : ℕ)

def Start.placement (arch : Arch) (vars : TlsSymbols) (m : Bytes) : Start → Placement
  | .main block => mainPlacement arch block
  | .worker tlsVa => workerPlacement arch vars m tlsVa
  | .pthread stackBase stackSize => pthreadPlacement arch vars m stackBase stackSize

/-- The TLS set-up of a thread: `init_main_thread_tls`, `init_worker_tls` with what is stored
    after it, and the same in `pthread_create`. -/
def Start.setUp (arch : Arch) (vars : TlsSymbols) (start : Start) (fields : TcbFields)
    (m : Bytes) : Bytes :=
  (start.placement arch vars m).setUp arch vars fields m

end Tls

end Trona
