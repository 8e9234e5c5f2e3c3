import Trona.Loader.Machine
import Trona.Rtld.Cpio
import Trona.Uapi.Elf

/-!
# The dynamic linker

The state of the ELF linker (`rtld/elf`). It runs in the address space that it loads
libraries into: what is behind a page is what was there at the start, or a frame or a page
of the initial RAM disk that the linker has mapped. The kernel answers as it likes; as for
the loaders, an answer is a function of the page of a segment that a call is made for.

What the linker asks the kernel for is in its log. `Asks P` says that a program of the
linker asks only for mappings with the property `P`, and `Grows P` that it also leaves the
list of objects alone. A property of this kind is proved of every step, and holds of whole
runs.
-/

namespace Trona

namespace Rtld

/-! ## The state -/

/-- An object in the list of the linker: `struct link_map`. A pointer is its address, and
    zero for none. All fields of an object are zero at the start. -/
structure LinkMap where
  base : ℕ := 0
  name : List UInt8 := []
  symtab : ℕ := 0
  symtabCount : ℕ := 0
  symEntSize : ℕ := 0
  strtab : ℕ := 0
  strtabSize : ℕ := 0
  gnuHash : ℕ := 0
  jmprel : ℕ := 0
  jmprelCount : ℕ := 0
  jmprelEntSize : ℕ := 0
  pltgot : ℕ := 0
  rela : ℕ := 0
  relaCount : ℕ := 0
  relaEntSize : ℕ := 0
  loadSize : ℕ := 0
  initFn : ℕ := 0
  initArray : ℕ := 0
  initArrayCount : ℕ := 0
  tlsTemplate : ℕ := 0
  tlsFilesz : ℕ := 0
  tlsMemsz : ℕ := 0
  tlsAlign : ℕ := 0
  tlsTpoff : ℤ := 0
  tlsModuleId : ℕ := 0
  dynSection : ℕ := 0
  deriving DecidableEq

/-- A page of the library that is being loaded: `struct rtld_lib_page`. -/
structure LibPage where
  vaddr : ℕ
  frameSlot : ℕ
  flags : ℕ
  isDevice : Bool
  deriving DecidableEq

/-- What is behind a page: a frame, by its slot, or a page of the initial RAM disk, by its
    offset. -/
inductive Backing
  | frame (slot : ℕ)
  | device (offset : ℕ)
  deriving DecidableEq

/-- A page that the linker has mapped. -/
structure OwnMapping where
  backing : Backing
  flags : ℕ
  deriving DecidableEq

/-- What the linker asks the kernel for: a frame in a slot, and a mapping of a page. -/
inductive RtldEvent
  | retype (untyped slot : ℕ)
  | map (vaddr : ℕ) (mapping : OwnMapping)
  deriving DecidableEq

/-- What the linker is told at its start. -/
structure Config where
  initrdBase : ℕ
  initrdSize : ℕ
  sharedLibBase : ℕ
  initrdSize_lt : initrdSize < 2 ^ 63

/-- The answers of the kernel while a library is loaded, zero for success. -/
structure Env where
  retype : Site → ℕ → ℤ
  mapScratch : Site → ℤ
  mapPage : Site → ℤ
  mapDevice : Site → ℤ
  unmapPage : Site → ℤ

/-- A library whose segments are mapped: the kernel's answers, its file in the archive, its
    program headers, and how far the segments are moved. -/
structure MappedLibrary where
  env : Env
  cpio : CpioEntry
  phs : List Elf64Phdr
  delta : ℕ

/-- The state of the linker. The pages of the library that is being loaded are a local
    array of `load_shared_library`. The libraries mapped so far are noted in `mapped`, which is
    not a variable of the program. -/
structure State where
  given : Memory
  frames : ℕ → ℕ → UInt8
  vspace : ℕ → Option OwnMapping
  pages : List LibPage
  objects : List LinkMap
  untyped : ℕ
  nextFrameSlot : ℕ
  log : List RtldEvent
  mapped : List MappedLibrary := []

abbrev M := EStateM (Stop ℤ) State

namespace State

variable (s : State)

/-- The memory that the linker reads. -/
def memory (cfg : Config) : Memory := fun a =>
  match s.vspace (a - a % pageSize) with
  | none => s.given a
  | some ⟨.frame slot, _⟩ => some (s.frames slot (a % pageSize))
  | some ⟨.device offset, _⟩ => s.given ((cfg.initrdBase + offset + a % pageSize) % 2 ^ 64)

def emit (ev : RtldEvent) : State := { s with log := s.log ++ [ev] }

def setPage (v : ℕ) (m : Option OwnMapping) : State :=
  { s with vspace := fun a => if a = v then m else s.vspace a }

def zeroFrame (slot : ℕ) : State :=
  { s with frames := fun c o => if c = slot then 0 else s.frames c o }

/-- Write bytes to a frame from the offset `dst` on. -/
def writeFrame (slot dst : ℕ) (bs : List UInt8) : State :=
  { s with frames := fun c o =>
      if c = slot ∧ dst ≤ o ∧ o < dst + bs.length then bs.getD (o - dst) 0 else s.frames c o }

/-- Write a byte to memory, unless nothing is mapped there or it is mapped for reading. -/
def storeByte (a : ℕ) (b : UInt8) : Option State :=
  match s.vspace (a - a % pageSize) with
  | none =>
    if (s.given a).isSome then some { s with given := fun x => if x = a then some b else s.given x }
    else none
  | some ⟨.frame slot, flags⟩ =>
    if flags &&& vspaceFlagWritable ≠ 0 then some (s.writeFrame slot (a % pageSize) [b]) else none
  | some ⟨.device _, _⟩ => none

/-- Write a word to memory. -/
def storeWord (a v : ℕ) : Option State :=
  (List.range 8).foldlM (fun s k => s.storeByte ((a + k) % 2 ^ 64) (wordByte v k)) s

end State

/-! ## Kernel calls -/

section Calls

variable (cfg : Config) (env : Env) (site : Site)

/-- `CAP_UNTYPED_END`. -/
def capUntypedEnd : ℕ := 24

/-- Retype a frame from the untyped capability in use, or else from the first other one
    that allows it, which is in use from then on. -/
def retypeFrameAny (frameSlot : ℕ) : M ℤ := do
  let s ← get
  let err := env.retype site s.untyped
  if err = 0 then
    modify (·.emit (.retype s.untyped frameSlot))
    return 0
  else
    let scan := (List.range' capUntypedStart (capUntypedEnd - capUntypedStart)).filter
      (· ≠ s.untyped)
    match scan.find? fun ut => env.retype site ut = 0 with
    | some ut =>
      modify fun s => { s with untyped := ut }.emit (.retype ut frameSlot)
      return 0
    | none => return scan.foldl (fun best ut => bestErr best (env.retype site ut)) err

/-- Ask for the mapping of a page, and for its answer `err` do it. -/
def vspaceMap (err : ℤ) (vaddr : ℕ) (mapping : OwnMapping) : M ℤ := do
  modify (·.emit (.map vaddr mapping))
  modify fun s => if err = 0 then s.setPage vaddr (some mapping) else s
  return err

def vspaceUnmap (err : ℤ) (vaddr : ℕ) : M PUnit :=
  modify fun s => if err = 0 then s.setPage vaddr none else s

/-- Copy bytes from memory to a frame that is mapped at the scratch address. -/
def copyToFrame (slot data dataOffset pageOffset copyLen : ℕ) : M PUnit :=
  if data ≠ 0 ∧ copyLen > 0 then do
    let s ← get
    match (s.memory cfg).read (data + dataOffset) copyLen with
    | none => throw .fault
    | some bs => modify (·.writeFrame slot pageOffset bs)
  else return ⟨⟩

/-- Map a new frame, with bytes of the library, at an address. -/
def allocMapPage (vaddr flags data dataOffset pageOffset copyLen : ℕ) : M ℤ := do
  let s ← get
  let frameSlot := s.nextFrameSlot
  modify fun s => { s with nextFrameSlot := (frameSlot + 1) % 2 ^ 64 }
  let err ← retypeFrameAny env site frameSlot
  if err ≠ 0 then return -1
  else if env.mapScratch site ≠ 0 then return -2
  else do
    modify (·.zeroFrame frameSlot)
    copyToFrame cfg frameSlot data dataOffset pageOffset copyLen
    let err ← vspaceMap (env.mapPage site) vaddr ⟨.frame frameSlot, flags⟩
    if err ≠ 0 then return -3 else return 0

/-- Add bytes of the library to a page that is mapped. -/
def patchMappedPage (frameSlot data dataOffset pageOffset copyLen : ℕ) : M ℤ :=
  if data = 0 ∨ copyLen = 0 then return 0
  else if env.mapScratch site ≠ 0 then return -1
  else do
    copyToFrame cfg frameSlot data dataOffset pageOffset copyLen
    return 0

end Calls

/-! ## What programs of the linker ask for -/

/-- From `s` to `s'`, the linker has asked only for mappings with the property `P`, and
    every page is as it was, or unmapped, or mapped like that. -/
structure Asks (P : ℕ → ℕ → Prop) (s s' : State) : Prop where
  log : ∃ evs, s'.log = s.log ++ evs ∧ ∀ v m, .map v m ∈ evs → P v m.flags
  vspace : ∀ v, s'.vspace v = s.vspace v ∨ s'.vspace v = none ∨
    ∃ m, s'.vspace v = some m ∧ P v m.flags

/-- The linker has asked for mappings with a property, and has no more objects. -/
structure Grows (P : ℕ → ℕ → Prop) (s s' : State) : Prop extends Asks P s s' where
  objects : s'.objects = s.objects

section Grows

variable {P : ℕ → ℕ → Prop} {s s' : State} {cfg : Config} {env : Env} {site : Site}
  {vaddr data dataOffset pageOffset copyLen slot frameSlot : ℕ} {err : ℤ}

section

variable {R : State → State → Prop} [IsPreorder State R]
  (hR : ∀ s slot pageOffset bs, R s (s.writeFrame slot pageOffset bs))

include hR

/-- A copy keeps what does not depend on the bytes of the frames. -/
theorem copyToFrame_within :
    Within R (copyToFrame cfg slot data dataOffset pageOffset copyLen) := by
  refine .ite (fun _ => .bind .get fun s => ?_) fun _ => .pure
  split
  · exact .throw
  · exact .modify fun s => hR s _ _ _

theorem patchMappedPage_within :
    Within R (patchMappedPage cfg env site frameSlot data dataOffset pageOffset copyLen) :=
  .ite (fun _ => .pure) fun _ => .ite (fun _ => .pure) fun _ =>
    .bind (copyToFrame_within hR) fun _ => .pure

end

/-- What changes neither the log nor the mappings asks for nothing. -/
theorem Asks.of_eq (hlog : s'.log = s.log) (hvspace : s'.vspace = s.vspace) : Asks P s s' :=
  ⟨⟨[], by rw [hlog, List.append_nil], fun _ _ h => absurd h List.not_mem_nil⟩,
    fun v => .inl (by rw [hvspace])⟩

instance : IsPreorder State (Asks P) where
  refl _ := .of_eq rfl rfl
  trans _ _ _ h h' := by
    obtain ⟨evs, hlog, hevs⟩ := h.log
    obtain ⟨evs', hlog', hevs'⟩ := h'.log
    refine ⟨⟨evs ++ evs', by rw [hlog', hlog, List.append_assoc], fun v m hm => ?_⟩, fun v => ?_⟩
    · rcases List.mem_append.1 hm with hm | hm
      · exact hevs v m hm
      · exact hevs' v m hm
    · rcases h'.vspace v with heq | hv
      · rw [heq]
        exact h.vspace v
      · exact .inr hv

theorem Asks.mono {P' : ℕ → ℕ → Prop} (h : Asks P s s') (hP : ∀ v flags, P v flags → P' v flags) :
    Asks P' s s' := by
  obtain ⟨evs, hlog, hevs⟩ := h.log
  refine ⟨⟨evs, hlog, fun v m hm => hP v m.flags (hevs v m hm)⟩, fun v => ?_⟩
  rcases h.vspace v with hv | hv | ⟨m, hv, hm⟩
  · exact .inl hv
  · exact .inr (.inl hv)
  · exact .inr (.inr ⟨m, hv, hP v m.flags hm⟩)

theorem Grows.of_eq (hlog : s'.log = s.log) (hvspace : s'.vspace = s.vspace)
    (hobjects : s'.objects = s.objects) : Grows P s s' :=
  ⟨.of_eq hlog hvspace, hobjects⟩

instance : IsPreorder State (Grows P) where
  refl _ := .of_eq rfl rfl rfl
  trans _ _ _ h h' := ⟨trans_of (Asks P) h.toAsks h'.toAsks, h'.objects.trans h.objects⟩

/-- A frame in a slot is no mapping. -/
theorem Grows.retype {untyped : ℕ} (hlog : s'.log = s.log ++ [.retype untyped slot])
    (hvspace : s'.vspace = s.vspace) (hobjects : s'.objects = s.objects) : Grows P s s' :=
  ⟨⟨⟨_, hlog, fun _ _ h => by simp at h⟩, fun v => .inl (by rw [hvspace])⟩, hobjects⟩

theorem retypeFrameAny_grows : Within (Grows P) (retypeFrameAny env site frameSlot) := by
  refine .bind .get fun s => .ite (fun _ => ?_) fun _ => ?_
  · exact .bind (.modify fun _ => .retype rfl rfl rfl) fun _ => .pure
  · dsimp only
    split
    · exact .bind (.modify fun _ => .retype rfl rfl rfl) fun _ => .pure
    · exact .pure

theorem vspaceMap_grows {mapping : OwnMapping} (hP : P vaddr mapping.flags) :
    Within (Grows P) (vspaceMap err vaddr mapping) := by
  have hevs : ∀ v m, RtldEvent.map v m ∈ [RtldEvent.map vaddr mapping] → P v m.flags := by
    intro v m hm
    obtain ⟨rfl, rfl⟩ := RtldEvent.map.inj (List.mem_singleton.1 hm)
    exact hP
  refine .bind (.modify fun s => ⟨⟨⟨_, rfl, hevs⟩, fun _ => .inl rfl⟩, rfl⟩) fun _ =>
    .bind (.modify fun s => ?_) fun _ => .pure
  split
  · refine ⟨⟨(refl_of (Asks P) s).log, fun v => ?_⟩, rfl⟩
    by_cases hv : v = vaddr
    · exact .inr (.inr ⟨mapping, if_pos hv, hv ▸ hP⟩)
    · exact .inl (if_neg hv)
  · exact .of_eq rfl rfl rfl

/-- Unmapping a page asks for no mapping. -/
theorem vspaceUnmap_grows : Within (Grows P) (vspaceUnmap err vaddr) := by
  refine .modify fun s => ?_
  split
  · refine ⟨⟨(refl_of (Asks P) s).log, fun v => ?_⟩, rfl⟩
    by_cases hv : v = vaddr
    · exact .inr (.inl (if_pos hv))
    · exact .inl (if_neg hv)
  · exact .of_eq rfl rfl rfl

/-- A new page is mapped with its flags. -/
theorem allocMapPage_grows {flags : ℕ} (hP : P vaddr flags) :
    Within (Grows P)
      (allocMapPage cfg env site vaddr flags data dataOffset pageOffset copyLen) := by
  refine .bind .get fun s => .bind (.modify fun _ => .of_eq rfl rfl rfl) fun _ =>
    .bind retypeFrameAny_grows fun err => .ite (fun _ => .pure) fun _ =>
      .ite (fun _ => .pure) fun _ => ?_
  refine .bind (.modify fun _ => .of_eq rfl rfl rfl) fun _ =>
    .bind (copyToFrame_within fun _ _ _ _ => .of_eq rfl rfl rfl) fun _ => ?_
  exact .bind (vspaceMap_grows hP) fun err => .ite (fun _ => .pure) fun _ => .pure

end Grows

end Rtld

end Trona
