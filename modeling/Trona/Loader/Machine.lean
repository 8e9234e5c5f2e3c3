import Trona.Lib.File
import Trona.Lib.Table
import Trona.Lib.Wp

/-!
# The machine of the loaders

What the ELF and the PE loader work on: physical frames, the address space of the
child, the table of the pages placed so far, and the context for the allocation of
frames. The kernel and the callbacks of the context answer as they like. An
answer is a function of the *site* of the call, the segment and page it is made
for: no loader makes the same call twice at a site, so that every sequence of
answers is one of some `Env`.

A load runs in `LoadM`, which keeps the machine when it stops early. What a load
asks of the outside, and where it copies to, is in the log of the machine.
-/

namespace Trona

/-! ## Flags of mappings -/

def vspaceFlagWritable : ℕ := 1

def vspaceFlagUser : ℕ := 2

def vspaceFlagExecutable : ℕ := 4

/-- The flags of a mapping, with W^X enforced: writable wins. -/
def permFlags (w x : Bool) : ℕ :=
  if w then vspaceFlagUser ||| vspaceFlagWritable
  else if x then vspaceFlagUser ||| vspaceFlagExecutable
  else vspaceFlagUser

/-- The flags are those of some permissions. -/
def IsPerm (flags : ℕ) : Prop :=
  flags = permFlags (flags &&& vspaceFlagWritable ≠ 0) (flags &&& vspaceFlagExecutable ≠ 0)

/-- Merge the flags of a page with those of one more segment. If the merge would
    give both W and X, X is dropped. -/
def mergeFlags (a b : ℕ) : ℕ :=
  let merged := a ||| b
  if merged &&& vspaceFlagWritable ≠ 0 ∧ merged &&& vspaceFlagExecutable ≠ 0 then
    merged &&& (2 ^ 64 - 1 - vspaceFlagExecutable)
  else merged

/-- The flags are both writable and executable. -/
def WritableExecutable (flags : ℕ) : Prop :=
  flags &&& vspaceFlagWritable ≠ 0 ∧ flags &&& vspaceFlagExecutable ≠ 0

instance (flags : ℕ) : Decidable (WritableExecutable flags) :=
  inferInstanceAs (Decidable (_ ∧ _))

theorem isPerm_permFlags (w x : Bool) : IsPerm (permFlags w x) := by
  revert w x
  unfold IsPerm
  decide

theorem mergeFlags_permFlags (w x w' x' : Bool) :
    mergeFlags (permFlags w x) (permFlags w' x') = permFlags (w || w') (x || x') := by
  revert w x w' x'
  decide

theorem not_writableExecutable_permFlags (w x : Bool) : ¬WritableExecutable (permFlags w x) := by
  revert w x
  decide

theorem not_writableExecutable_mergeFlags (a b : ℕ) : ¬WritableExecutable (mergeFlags a b) := by
  unfold mergeFlags
  dsimp only
  split
  · have hmask : (2 ^ 64 - 1 - vspaceFlagExecutable) &&& vspaceFlagExecutable = 0 := by decide
    intro h
    exact h.2 (by rw [Nat.and_assoc, hmask, Nat.and_zero])
  · assumption

theorem permFlags_writable (w x : Bool) : permFlags w x &&& vspaceFlagWritable ≠ 0 ↔ w = true := by
  revert w x
  decide

theorem permFlags_executable (w x : Bool) :
    permFlags w x &&& vspaceFlagExecutable ≠ 0 ↔ w = false ∧ x = true := by
  revert w x
  decide

/-! ## The machine -/

/-- A page placed so far: `ElfPageEntry` and `PePageEntry`. -/
structure PageEntry where
  vaddr : ℕ
  frameCap : ℕ
  flags : ℕ
  deriving DecidableEq

/-- A mapping of a page in the address space of the child. -/
structure Mapping where
  frame : ℕ
  flags : ℕ
  deriving DecidableEq

/-- Where a kernel call or a callback is made: for a page of a segment, counted in
    the table of the headers, or for a relocation. The headers of a PE image, which
    it maps like a segment, have a site of their own. -/
inductive Site
  | headers (page : ℕ)
  | segment (index page : ℕ)
  | reloc (index : ℕ)
  deriving DecidableEq

/-- What a load does to the outside: it is given a frame, asks for a mapping in the
    child, copies bytes of the file to the frame of a page, and records a page. -/
inductive LoadEvent
  | alloc (frame : ℕ)
  | map (vaddr frame flags : ℕ)
  | copy (site : Site) (page frame dst src len : ℕ)
  | record (vaddr frame flags : ℕ)
  deriving DecidableEq

/-- The machine during a load. Of a frame only the offsets below the page size
    are ever used. -/
structure World where
  frames : ℕ → ℕ → UInt8
  child : ℕ → Option Mapping
  pages : List PageEntry
  nextFrameSlot : ℕ
  untyped : ℕ
  nextUtHint : ℕ
  log : List LoadEvent

/-- The answers of the kernel and of the callbacks, zero for success. Without a
    callback to allocate frames the context's counter is used.
    `scratchEnd` says that the memory after the scratch page is mapped too, so that
    a write may run past the page. -/
structure Env where
  allocFrameSlot : Option (Site → ℕ)
  recordPage : Option (Site → ℤ)
  retype : Site → ℕ → ℤ
  numSlots : Site → Option ℕ
  mapScratch : Site → ℤ
  unmapChild : Site → ℤ
  mapChild : Site → ℤ
  scratchEnd : Bool

/-- Why a load stops early: with an error code, or because it reads or writes
    outside of the memory it may use. -/
inductive Stop (ε : Type)
  | error (e : ε)
  | fault
  deriving DecidableEq

abbrev LoadM (ε : Type) := EStateM (Stop ε) World

namespace World

variable (w : World)

/-- The entry of a page in the table. -/
def entry (v : ℕ) : Option PageEntry := lookup PageEntry.vaddr w.pages v

/-- The byte of the child at an address. -/
def childByte (a : ℕ) : Option UInt8 :=
  (w.child (a - a % pageSize)).map fun m => w.frames m.frame (a % pageSize)

@[simps frames child pages nextFrameSlot log]
def emit (ev : LoadEvent) : World := { w with log := w.log ++ [ev] }

/-- Write `len` bytes to a frame from the offset `dst` on. -/
@[simps child pages nextFrameSlot log]
def writeFrame (frame dst len : ℕ) (b : ℕ → UInt8) : World :=
  { w with frames := fun c o =>
      if c = frame ∧ dst ≤ o ∧ o < dst + len then b (o - dst) else w.frames c o }

@[simps child pages nextFrameSlot log]
def zeroFrame (frame : ℕ) : World :=
  { w with frames := fun c o => if c = frame then 0 else w.frames c o }

@[simps frames pages nextFrameSlot log]
def setChild (v : ℕ) (m : Option Mapping) : World :=
  { w with child := fun a => if a = v then m else w.child a }

end World

/-! ## Kernel calls and callbacks -/

section Calls

variable {ε : Type} (env : Env) (site : Site)

def nextFrameSlot : LoadM ε ℕ :=
  match env.allocFrameSlot with
  | some alloc => pure (alloc site)
  | none => do
    let w ← get
    set { w with nextFrameSlot := (w.nextFrameSlot + 1) % 2 ^ 64 }
    return w.nextFrameSlot

/-- `CAP_UNTYPED_START`. -/
def capUntypedStart : ℕ := 16

/-- The upper bound for the scan of untyped capabilities, given the number of slots
    when the CNode tells it. -/
def untypedScanEnd (numSlots : Option ℕ) : ℕ :=
  let fin :=
    match numSlots with
    | some n => if n > capUntypedStart ∧ n < 200 then n else 200
    | none => 200
  if fin ≤ capUntypedStart then capUntypedStart + 1 else fin

/-- The error to report after one more failed attempt: an attempt at a capability
    that is no untyped one does not count. -/
def bestErr (best err : ℤ) : ℤ := if err ≠ 1 ∧ err ≠ 2 ∧ err ≠ 6 then err else best

/-- Retype a frame from the context's untyped capability, or from any other, in the
    order of the scan, which starts at the hint. -/
def tryRetypeFrameAnyUntyped : LoadM ε ℤ := do
  let w ← get
  let err := env.retype site w.untyped
  if err = 0 then
    set { w with nextUtHint := w.untyped }
    return 0
  else
    let start := capUntypedStart
    let fin := untypedScanEnd (env.numSlots site)
    let first := if w.nextUtHint < start ∨ w.nextUtHint ≥ fin then start else w.nextUtHint
    let scan := (List.range' first (fin - first) ++ List.range' start (first - start)).filter
      (· ≠ w.untyped)
    match scan.find? fun ut => env.retype site ut = 0 with
    | some ut =>
      set { w with untyped := ut, nextUtHint := ut }
      return 0
    | none => return scan.foldl (fun best ut => bestErr best (env.retype site ut)) err

/-- Retype a frame from the context's untyped capability. -/
def tryRetypeFrame : LoadM ε ℤ := do
  let w ← get
  return env.retype site w.untyped

/-- Map a frame into the child. -/
def mapChild (frame page flags : ℕ) : LoadM ε ℤ := do
  modify (·.emit (.map page frame flags))
  modify fun w => if env.mapChild site = 0 then w.setChild page (some ⟨frame, flags⟩) else w
  return env.mapChild site

def unmapChild (page : ℕ) : LoadM ε PUnit :=
  modify fun w => if env.unmapChild site = 0 then w.setChild page none else w

def recordPageMap (vaddr frame flags : ℕ) : LoadM ε ℤ :=
  match env.recordPage with
  | some record => do
    modify (·.emit (.record vaddr frame flags))
    return record site
  | none => return 0

end Calls

/-- Write a word to a frame through the scratch mapping, computed from the one there. Of a
    word that crosses the end of the page, only the part before the end is read from the
    frame and written to it: the rest is in the memory after the scratch page. -/
def updateWord {ε : Type} (env : Env) (site : Site) (frame pageOffset : ℕ) (g : ℕ → ℕ) :
    LoadM ε ℤ :=
  if env.mapScratch site ≠ 0 then return env.mapScratch site
  else if pageOffset + 8 ≤ pageSize ∨ env.scratchEnd = true then do
    let len := min 8 (pageSize - pageOffset)
    modify fun w => w.writeFrame frame pageOffset len
      (wordByte (g (leNat ((List.range len).map fun k => w.frames frame (pageOffset + k)))))
    return 0
  else throw .fault

/-! ## What the calls do -/

namespace World

variable (w : World)

/-- The table, the mappings of the child and the log are the same. -/
structure SameMaps (w w' : World) : Prop where
  log_eq : w'.log = w.log
  pages_eq : w'.pages = w.pages
  child_eq : w'.child = w.child

theorem SameMaps.refl : w.SameMaps w := ⟨rfl, rfl, rfl⟩

theorem SameMaps.trans {w w' w'' : World} (h : w.SameMaps w') (h' : w'.SameMaps w'') :
    w.SameMaps w'' :=
  ⟨h'.log_eq.trans h.log_eq, h'.pages_eq.trans h.pages_eq, h'.child_eq.trans h.child_eq⟩

instance : IsPreorder World SameMaps where
  refl := SameMaps.refl
  trans _ _ _ := SameMaps.trans

end World

/-- A write to a frame does not change what is mapped. -/
theorem updateWord_sameMaps {ε : Type} {env : Env} {site : Site} {frame pageOffset : ℕ}
    {g : ℕ → ℕ} : Within World.SameMaps (updateWord (ε := ε) env site frame pageOffset g) := by
  refine .ite (fun _ => .pure) fun _ => .ite (fun _ => ?_) fun _ => .throw
  exact .bind (.modify fun _ => ⟨rfl, rfl, rfl⟩) fun _ => .pure

end Trona
