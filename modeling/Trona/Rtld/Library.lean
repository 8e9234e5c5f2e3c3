import Trona.Loader.Elf
import Trona.Rtld.State

/-!
# Loading a shared library

`load_shared_library`, `load_premapped_library` and `parse_dynamic`
(`rtld/elf/rtld_elf.c`). The linker looks for a library in the archive, maps the pages of
its PT_LOAD segments, and adds an object to its list. A library that the parent has mapped
is not mapped again, and one that is not in the archive is read where the parent has
mapped it.

`loadSharedLibrary_asks` says which mappings the linker asks for: pages of the segments,
with flags that are not both writable and executable.
-/

namespace Trona

namespace Rtld

/-! ## Names -/

/-- `RTLD_MAX_OBJECT_NAME`. -/
def rtldMaxObjectName : ℕ := 96

/-- The bytes of `lib/`. -/
def initrdLibPrefix : List UInt8 := [0x6C, 0x69, 0x62, 0x2F]

/-- The name of an object in the archive, if it is short enough. -/
def makeCanonicalObjectName (name : List UInt8) : Option (List UInt8) :=
  if initrdLibPrefix.isPrefixOf name then
    if name.length < rtldMaxObjectName then some name else none
  else if initrdLibPrefix.length + name.length + 1 > rtldMaxObjectName then none
  else some (initrdLibPrefix ++ name)

/-! ## Headers -/

/-- The program headers from number `i` on. Whatever the file says, they are taken to be as
    long as `Elf64_Phdr`. -/
def phdrsAt (m : Memory) (phdrs : ℕ) : (todo i : ℕ) → Option (List Elf64Phdr)
  | 0, _ => some []
  | todo + 1, i =>
    (m.elf64Phdr (phdrs + i * 56)).bind fun ph => (phdrsAt m phdrs todo (i + 1)).map (ph :: ·)

/-- The program headers of the library at an address. The checks of its header fail with
    the two error codes. All loops over the program headers read these. -/
def libPhdrs (m : Memory) (data : ℕ) (notElf notDyn : ℤ) : Except (Stop ℤ) (List Elf64Phdr) :=
  match m.elf64Ehdr data with
  | none => .error .fault
  | some ehdr =>
    if !ehdr.isElf then .error (.error notElf)
    else if ehdr.eType ≠ etDyn then .error (.error notDyn)
    else
      match phdrsAt m (data + ehdr.ePhoff) ehdr.ePhnum 0 with
      | none => .error .fault
      | some phs => .ok phs

/-- What the linker notes of a PT_TLS segment, with the address in the file. -/
structure TlsSegment where
  template : ℕ
  filesz : ℕ
  memsz : ℕ
  align : ℕ
  deriving DecidableEq

/-- The last PT_TLS segment. -/
def tlsSegment (phs : List Elf64Phdr) : TlsSegment :=
  phs.foldl (fun t ph =>
    if ph.pType = ptTls then
      ⟨ph.pVaddr, ph.pFilesz, ph.pMemsz, if ph.pAlign ≠ 0 then ph.pAlign else 1⟩
    else t) ⟨0, 0, 0, 1⟩

/-- The size of the pages from the load address to the end of the segments. -/
def loadFootprint (phs : List Elf64Phdr) (delta loadAddr : ℕ) : ℕ :=
  let maxEnd := elfBrk phs delta
  if maxEnd > loadAddr then maxEnd - loadAddr else 0

/-- Where PT_DYNAMIC is at run time, and zero without one. -/
def libDyn (phs : List Elf64Phdr) (delta : ℕ) : ℕ :=
  match phs.find? (·.pType = ptDynamic) with
  | none => 0
  | some ph => (ph.pVaddr + delta) % 2 ^ 64

/-! ## The dynamic table -/

/-- The entries of a dynamic table before its end. The fuel is enough for every table that
    is in memory. -/
def dynEntriesFrom (m : Memory) : (fuel a : ℕ) → Option (List Elf64Dyn)
  | 0, _ => none
  | fuel + 1, a =>
    (m.elf64Dyn a).bind fun d =>
      if d.dTag = dtNull then some [] else (dynEntriesFrom m fuel (a + 16)).map (d :: ·)

def dynEntries (m : Memory) (dyn : ℕ) : Option (List Elf64Dyn) := dynEntriesFrom m (2 ^ 60) dyn

/-- An object while its dynamic table is read, with what is only needed until the end. -/
structure DynParse where
  map : LinkMap
  relaSize : ℕ
  jmprelSize : ℕ
  pltrelType : ℕ

/-- The entries of a dynamic table that the linker knows. -/
inductive DynTag
  | symtab
  | strtab
  | strsz
  | syment
  | gnuHash
  | jmprel
  | pltrelsz
  | pltrel
  | pltgot
  | rela
  | relasz
  | relaent
  | init
  | initArray
  | initArraysz

namespace DynTag

def value : DynTag → ℕ
  | symtab => dtSymtab
  | strtab => dtStrtab
  | strsz => dtStrsz
  | syment => dtSyment
  | gnuHash => dtGnuHash
  | jmprel => dtJmprel
  | pltrelsz => dtPltrelsz
  | pltrel => dtPltrel
  | pltgot => dtPltgot
  | rela => dtRela
  | relasz => dtRelasz
  | relaent => dtRelaent
  | init => dtInit
  | initArray => dtInitArray
  | initArraysz => dtInitArraysz

def all : List DynTag :=
  [symtab, strtab, strsz, syment, gnuHash, jmprel, pltrelsz, pltrel, pltgot, rela, relasz,
    relaent, init, initArray, initArraysz]

/-- The tag with a value. -/
def ofValue (n : ℕ) : Option DynTag := all.find? (·.value = n)

theorem value_of_ofValue {n : ℕ} {t : DynTag} (h : ofValue n = some t) : t.value = n := by
  simpa using List.find?_some h

end DynTag

/-- Note one entry of a dynamic table. A pointer is moved by `base`. -/
def parseEntry (base : ℕ) (p : DynParse) (d : Elf64Dyn) : DynParse :=
  let ptr := (base + d.dVal) % 2 ^ 64
  match DynTag.ofValue d.dTag with
  | none => p
  | some .symtab => { p with map.symtab := ptr }
  | some .strtab => { p with map.strtab := ptr }
  | some .strsz => { p with map.strtabSize := d.dVal }
  | some .syment => if d.dVal ≠ 0 then { p with map.symEntSize := d.dVal } else p
  | some .gnuHash => { p with map.gnuHash := ptr }
  | some .jmprel => { p with map.jmprel := ptr }
  | some .pltrelsz => { p with jmprelSize := d.dVal }
  | some .pltrel => { p with pltrelType := d.dVal }
  | some .pltgot => { p with map.pltgot := ptr }
  | some .rela => { p with map.rela := ptr }
  | some .relasz => { p with relaSize := d.dVal }
  | some .relaent =>
    if d.dVal ≥ 24 then { p with map.relaEntSize := d.dVal, map.jmprelEntSize := d.dVal } else p
  | some .init => { p with map.initFn := ptr }
  | some .initArray => { p with map.initArray := ptr }
  | some .initArraysz => { p with map.initArrayCount := d.dVal / 8 }

/-- The counts that follow from the sizes. Relocations for the PLT count only if they have
    addends. The symbol table is taken to end where the strings start. -/
def DynParse.finish (p : DynParse) : LinkMap :=
  let map := p.map
  let map :=
    if map.rela ≠ 0 ∧ map.relaEntSize ≥ 24 then
      { map with relaCount := p.relaSize / map.relaEntSize }
    else map
  let map :=
    if p.pltrelType = dtRela ∧ map.jmprel ≠ 0 ∧ map.jmprelEntSize ≥ 24 then
      { map with jmprelCount := p.jmprelSize / map.jmprelEntSize }
    else { map with jmprel := 0, jmprelCount := 0 }
  if map.symtab ≠ 0 ∧ map.strtab ≠ 0 ∧ map.symEntSize ≠ 0 ∧ map.strtab > map.symtab then
    { map with symtabCount := (map.strtab - map.symtab) / map.symEntSize }
  else map

/-- An object before its dynamic table is read. Only its name and its footprint are kept. -/
def parseStart (map : LinkMap) (base : ℕ) : DynParse where
  map := { base, name := map.name, loadSize := map.loadSize, symEntSize := 24,
           jmprelEntSize := 24, relaEntSize := 24, tlsAlign := 1 }
  relaSize := 0
  jmprelSize := 0
  pltrelType := dtRela

/-- Fill in an object from the entries of its dynamic table. -/
def parseDynamic (map : LinkMap) (dyn : List Elf64Dyn) (base : ℕ) : LinkMap :=
  (dyn.foldl (parseEntry base) (parseStart map base)).finish

/-! ## Pages -/

/-- `RTLD_MAX_LIB_PAGES`. -/
def rtldMaxLibPages : ℕ := 256

/-- `rtld_elf_to_vspace_flags`: a segment that is writable is not executable. -/
def elfToVspaceFlags (pFlags : ℕ) : ℕ := permFlags (pFlags &&& pfW ≠ 0) (pFlags &&& pfX ≠ 0)

/-- The bytes of the library that a page gets. -/
structure PageCopy where
  dataOffset : ℕ
  pageOffset : ℕ
  copyLen : ℕ

/-- What a page gets of a segment. Nothing is copied if not all of it is in the file. -/
def pageCopy (ph : Elf64Phdr) (delta dataLen page : ℕ) : PageCopy :=
  let fileStart := ph.segVaddr delta
  let fileEnd := (fileStart + ph.pFilesz) % 2 ^ 64
  let copyStart := if page > fileStart then page else fileStart
  let copyEnd := if page + pageSize < fileEnd then page + pageSize else fileEnd
  if copyStart < copyEnd then
    let dataOffset := (copyStart - fileStart + ph.pOffset) % 2 ^ 64
    let copyLen := copyEnd - copyStart
    ⟨dataOffset, copyStart - page, if (dataOffset + copyLen) % 2 ^ 64 > dataLen then 0 else copyLen⟩
  else ⟨0, 0, 0⟩

section Pages

variable (cfg : Config) (env : Env) (cpio : CpioEntry) (ph : Elf64Phdr) (site : Site) (page : ℕ)
  (copy : PageCopy)

/-- Add a segment to a page that an earlier segment has. -/
def mergeLibPage (e : LibPage) : M PUnit :=
  let flags := elfToVspaceFlags ph.pFlags
  if e.isDevice then
    if copy.copyLen ≠ 0 ∨ e.flags ||| flags ≠ e.flags then throw (.error (-6)) else return ⟨⟩
  else do
    let err ← patchMappedPage cfg env site e.frameSlot cpio.data copy.dataOffset copy.pageOffset
      copy.copyLen
    if err ≠ 0 then throw (.error (-6))
    else
      let merged := mergeFlags e.flags flags
      if merged ≠ e.flags then do
        vspaceUnmap (env.unmapPage site) page
        let err ← vspaceMap (env.mapPage site) page ⟨.frame e.frameSlot, merged⟩
        if err ≠ 0 then throw (.error (-6))
        else modify fun s =>
          { s with pages := replace LibPage.vaddr s.pages page { e with flags := merged } }
      else return ⟨⟩

/-- Where in the initial RAM disk a page is that can be mapped from there: one of a segment
    that is not writable, with bytes of the file only, which are on a page there. -/
def deviceOffset : Option ℕ :=
  if elfToVspaceFlags ph.pFlags &&& vspaceFlagWritable = 0 ∧ copy.pageOffset = 0 ∧
      copy.copyLen = pageSize then
    let srcPage := (cpio.data + copy.dataOffset) % 2 ^ 64
    let srcOff := wsub srcPage cfg.initrdBase
    if srcPage % pageSize = 0 ∧ (srcOff + pageSize) % 2 ^ 64 ≤ cfg.initrdSize then some srcOff
    else none
  else none

def recordLibPage (p : LibPage) : M PUnit := modify fun s => { s with pages := s.pages ++ [p] }

/-- Map a page of the initial RAM disk, and say whether that was possible. -/
def mapDevicePage : M Bool :=
  let flags := elfToVspaceFlags ph.pFlags
  match deviceOffset cfg cpio ph copy with
  | none => return false
  | some offset => do
    let err ← vspaceMap (env.mapDevice site) page ⟨.device offset, flags⟩
    if err = 0 then do
      recordLibPage ⟨page, 0, flags, true⟩
      return true
    else return false

/-- Map a page that no segment has yet. -/
def addLibPage : M PUnit := do
  let flags := elfToVspaceFlags ph.pFlags
  let s ← get
  if s.pages.length ≥ rtldMaxLibPages then throw (.error (-6))
  else
    let mapped ← mapDevicePage cfg env cpio ph site page copy
    if mapped then return ⟨⟩
    else
      let s ← get
      let err ← allocMapPage cfg env site page flags cpio.data copy.dataOffset copy.pageOffset
        copy.copyLen
      if err ≠ 0 then throw (.error (-6))
      else recordLibPage ⟨page, s.nextFrameSlot, flags, false⟩

/-- Map a page of a segment. -/
def loadPage : M PUnit := do
  let s ← get
  match lookup LibPage.vaddr s.pages page with
  | some e => mergeLibPage cfg env cpio ph site page copy e
  | none => addLibPage cfg env cpio ph site page copy

end Pages

/-- Map the pages of the segments. -/
def loadSegments (cfg : Config) (env : Env) (cpio : CpioEntry) (phs : List Elf64Phdr)
    (delta : ℕ) : M PUnit := do
  modify fun s => { s with pages := [], mapped := s.mapped ++ [⟨env, cpio, phs, delta⟩] }
  (loads phs).forM fun r => (r.1.segPages delta).forM fun page =>
    loadPage cfg env cpio r.1 (.segment r.2 page) page (pageCopy r.1 delta cpio.dataLen page)

/-! ## Objects -/

/-- `RTLD_MAX_OBJECTS`. -/
def rtldMaxObjects : ℕ := 16

/-- Note the TLS segment of an object. -/
def setTls (map : LinkMap) (tls : TlsSegment) (delta : ℕ) : LinkMap :=
  if tls.memsz ≠ 0 then
    { map with
      tlsTemplate := (tls.template + delta) % 2 ^ 64
      tlsFilesz := tls.filesz
      tlsMemsz := tls.memsz
      tlsAlign := tls.align }
  else map

section

variable (cfg : Config) (env : Env) (m : Memory) (name objectName : List UInt8)
  (loadAddr delta : ℕ) (phs : List Elf64Phdr)

/-- The object for a library whose segments are moved by `delta`. The dynamic table is read
    at run time. -/
def libraryMap : Option LinkMap :=
  let map : LinkMap := { name, loadSize := loadFootprint phs delta loadAddr }
  let dyn := libDyn phs delta
  let map :=
    if dyn ≠ 0 then
      (dynEntries m dyn).map fun ds => { parseDynamic map ds loadAddr with dynSection := dyn }
    else some { map with base := loadAddr }
  map.map fun map => setTls map (tlsSegment phs) delta

/-- Add the object for a library to the list. -/
def addObject : M PUnit :=
  match makeCanonicalObjectName objectName with
  | none => throw (.error (-6))
  | some name => do
    let s ← get
    match libraryMap (s.memory cfg) name loadAddr delta phs with
    | none => throw .fault
    | some map => modify fun s => { s with objects := s.objects ++ [map] }

/-- The bias of a library that the linker maps. -/
def libDelta : ℕ := wsub loadAddr (minVaddr phs)

/-- The bias of a library that the parent has mapped. -/
def premappedDelta : ℕ := wsub loadAddr (pageAlignDown (minVaddr phs))

/-- Add the object for a library that is mapped at an address. -/
def loadPremappedLibrary : M PUnit := do
  let s ← get
  if s.objects.length ≥ rtldMaxObjects then throw (.error (-1))
  else
    match makeCanonicalObjectName name with
    | none => throw (.error (-2))
    | some objectName =>
      match libPhdrs (s.memory cfg) loadAddr (-3) (-4) with
      | .error e => throw e
      | .ok phs => addObject cfg objectName loadAddr (premappedDelta loadAddr phs) phs

/-- The library that is loaded at this address was mapped by the parent. -/
def Config.IsPremapped : Prop :=
  cfg.sharedLibBase ≠ 0 ∧ loadAddr ≥ cfg.sharedLibBase

instance : Decidable (cfg.IsPremapped loadAddr) := inferInstanceAs (Decidable (_ ∧ _))

/-- Load a library that was found in the archive. -/
def loadFound (cpio : CpioEntry) : M PUnit := do
  let s ← get
  if cpio.dataLen < 64 then throw (.error (-3))
  else
    match libPhdrs (s.memory cfg) cpio.data (-4) (-5) with
    | .error e => throw e
    | .ok phs => do
      if ¬cfg.IsPremapped loadAddr then loadSegments cfg env cpio phs (libDelta loadAddr phs)
      addObject cfg objectName loadAddr (libDelta loadAddr phs) phs

/-- Load a library, and add it to the list of objects. -/
def loadSharedLibrary : M PUnit := do
  let s ← get
  if s.objects.length ≥ rtldMaxObjects then throw (.error (-1))
  else
    match makeCanonicalObjectName name with
    | none => throw (.error (-2))
    | some objectName =>
      match cpioFind (s.memory cfg) cfg.initrdBase cfg.initrdSize objectName with
      | none => throw .fault
      | some none =>
        if cfg.IsPremapped loadAddr then loadPremappedLibrary cfg objectName loadAddr
        else throw (.error (-2))
      | some (some cpio) => loadFound cfg env objectName loadAddr cpio

end

/-! ## Loading, case by case -/

section Cases

variable {cfg : Config} {env : Env} {name : List UInt8} {loadAddr delta : ℕ} {cpio : CpioEntry}
  {phs : List Elf64Phdr} {s : State} {Q : PUnit → State → Prop} {E : Stop ℤ → State → Prop}

theorem wp_addObject (hname : makeCanonicalObjectName name = none → E (.error (-6)) s)
    (hfault : E .fault s)
    (hadd : ∀ n map, makeCanonicalObjectName name = some n →
      libraryMap (s.memory cfg) n loadAddr delta phs = some map →
      Q ⟨⟩ { s with objects := s.objects ++ [map] }) :
    wp (addObject cfg name loadAddr delta phs) Q E s := by
  rw [addObject]
  split
  · rename_i hnone
    exact wp_throw.2 (hname hnone)
  · rename_i n hn
    rw [wp_bind, wp_get]
    split
    · exact wp_throw.2 hfault
    · rename_i map hmap
      exact wp_modify.2 (hadd n map hn hmap)

variable (hstop : ∀ e, E e s)

include hstop

theorem wp_loadPremappedLibrary
    (hadd : ∀ n phs, makeCanonicalObjectName name = some n →
      libPhdrs (s.memory cfg) loadAddr (-3) (-4) = .ok phs →
      wp (addObject cfg n loadAddr (premappedDelta loadAddr phs) phs) Q E s) :
    wp (loadPremappedLibrary cfg name loadAddr) Q E s := by
  refine wp_bind.2 (wp_get.2 (wp_ite.2 ⟨fun _ => wp_throw.2 (hstop _), fun _ => ?_⟩))
  split
  · exact wp_throw.2 (hstop _)
  · rename_i n hn
    split
    · exact wp_throw.2 (hstop _)
    · rename_i phs hphs
      exact hadd n phs hn hphs

theorem wp_loadFound
    (hmap : ∀ phs, libPhdrs (s.memory cfg) cpio.data (-4) (-5) = .ok phs →
      wp (do
        loadSegments cfg env cpio phs (libDelta loadAddr phs)
        addObject cfg name loadAddr (libDelta loadAddr phs) phs) Q E s)
    (hadd : ∀ phs, libPhdrs (s.memory cfg) cpio.data (-4) (-5) = .ok phs →
      wp (addObject cfg name loadAddr (libDelta loadAddr phs) phs) Q E s) :
    wp (loadFound cfg env name loadAddr cpio) Q E s := by
  refine wp_bind.2 (wp_get.2 (wp_ite.2 ⟨fun _ => wp_throw.2 (hstop _), fun _ => ?_⟩))
  split
  · exact wp_throw.2 (hstop _)
  · rename_i phs hphs
    exact wp_ite.2 ⟨fun _ => hmap phs hphs, fun _ => hadd phs hphs⟩

/-- A library is one that the parent has mapped and that is not in the archive, or one that is
    found there. -/
theorem wp_loadSharedLibrary
    (hmapped : ∀ n, s.objects.length < rtldMaxObjects → makeCanonicalObjectName name = some n →
      cpioFind (s.memory cfg) cfg.initrdBase cfg.initrdSize n = some none →
      cfg.IsPremapped loadAddr → wp (loadPremappedLibrary cfg n loadAddr) Q E s)
    (hfound : ∀ n cpio, s.objects.length < rtldMaxObjects →
      makeCanonicalObjectName name = some n →
      cpioFind (s.memory cfg) cfg.initrdBase cfg.initrdSize n = some (some cpio) →
      wp (loadFound cfg env n loadAddr cpio) Q E s) :
    wp (loadSharedLibrary cfg env name loadAddr) Q E s := by
  refine wp_bind.2 (wp_get.2 (wp_ite.2 ⟨fun _ => wp_throw.2 (hstop _), fun hroom => ?_⟩))
  split
  · exact wp_throw.2 (hstop _)
  · rename_i n hn
    split
    · exact wp_throw.2 (hstop _)
    · rename_i hnone
      exact wp_ite.2 ⟨hmapped n (not_le.1 hroom) hn hnone, fun _ => wp_throw.2 (hstop _)⟩
    · rename_i cpio hcpio
      exact hfound n cpio (not_le.1 hroom) hn hcpio

end Cases

/-! ## What is mapped -/

section Grows

variable {P : ℕ → ℕ → Prop} {cfg : Config} {env : Env} {cpio : CpioEntry} {ph : Elf64Phdr}
  {site : Site} {page : ℕ} {copy : PageCopy} {name : List UInt8} {loadAddr delta : ℕ}
  {phs : List Elf64Phdr}

/-- However many segments share a page, the linker asks for it with flags that are not both
    writable and executable. -/
theorem loadPage_grows (hP : ∀ flags, ¬WritableExecutable flags → P page flags) :
    Within (Grows P) (loadPage cfg env cpio ph site page copy) := by
  have hflags : P page (elfToVspaceFlags ph.pFlags) := hP _ (not_writableExecutable_permFlags _ _)
  refine .bind .get fun s => ?_
  split
  · refine .ite (fun _ => .ite (fun _ => .throw) fun _ => .pure) fun _ => ?_
    refine .bind (patchMappedPage_within fun _ _ _ _ => .of_eq rfl rfl rfl) fun err =>
      .ite (fun _ => .throw) fun _ => ?_
    refine .ite (fun _ => .bind vspaceUnmap_grows fun _ => ?_) fun _ => .pure
    refine .bind (vspaceMap_grows (hP _ (not_writableExecutable_mergeFlags _ _))) fun err => ?_
    exact .ite (fun _ => .throw) fun _ => .modify fun _ => .of_eq rfl rfl rfl
  · refine .bind .get fun s => .ite (fun _ => .throw) fun _ => .bind ?_ fun mapped => ?_
    · unfold mapDevicePage
      split
      · exact .pure
      · refine .bind (vspaceMap_grows hflags) fun err => .ite (fun _ => ?_) fun _ => .pure
        exact .bind (.modify fun _ => .of_eq rfl rfl rfl) fun _ => .pure
    · refine .ite (fun _ => .pure) fun _ => .bind .get fun s => ?_
      refine .bind (allocMapPage_grows hflags) fun err => .ite (fun _ => .throw) fun _ => ?_
      exact .modify fun _ => .of_eq rfl rfl rfl

theorem loadSegments_grows (hP : ∀ ph ∈ phs, ph.isLoad = true → ∀ page ∈ ph.segPages delta,
    ∀ flags, ¬WritableExecutable flags → P page flags) :
    Within (Grows P) (loadSegments cfg env cpio phs delta) := by
  refine .bind (.modify fun _ => .of_eq rfl rfl rfl) fun _ => .forM fun r hr =>
    .forM fun page hpage => ?_
  obtain ⟨hph, hl⟩ := mem_of_mem_loads hr
  exact loadPage_grows (hP r.1 hph hl page hpage)

theorem addObject_asks : Within (Asks P) (addObject cfg name loadAddr delta phs) := fun s =>
  wp_addObject (fun _ => refl_of (Asks P) s) (refl_of (Asks P) s) fun _ _ _ _ => .of_eq rfl rfl

/-- A property of mappings that is shared by all that are not both writable and executable
    is one of every mapping that the linker asks for. -/
theorem loadSharedLibrary_asks (hP : ∀ page flags, ¬WritableExecutable flags → P page flags) :
    Within (Asks P) (loadSharedLibrary cfg env name loadAddr) := by
  intro s
  have hstop : ∀ _ : Stop ℤ, Asks P s s := fun _ => refl_of (Asks P) s
  refine wp_loadSharedLibrary hstop (fun n _ _ _ _ => ?_) fun n cpio _ _ _ => ?_
  · exact wp_loadPremappedLibrary hstop fun _ _ _ _ => addObject_asks s
  · refine wp_loadFound hstop (fun phs _ => ?_) fun _ _ => addObject_asks s
    refine Within.bind ?_ (fun _ => addObject_asks) s
    exact (loadSegments_grows fun _ _ _ page _ => hP page).mono fun _ _ h => h.toAsks

end Grows

end Rtld

end Trona
