import Trona.Uapi.Pe
import Trona.Loader.Region

/-!
# The PE loader

`pe_load` (`loader/pe_loader.rs`): it checks the headers, places the pages of the headers
and of the sections, and applies the base relocations of an image that is not loaded at
its preferred address.

As for the ELF loader, what is placed follows from the file alone (`peItems`), and the
effects are those of `placePages`. Relocations change neither what is mapped nor what was
copied (`peRelocate_sameMaps`).
-/

namespace Trona

/-- The error codes of the PE loader. -/
inductive PeError
  | notPe
  | not64Bit
  | badArch
  | noSections
  | relocFailed
  | outOfMemory
  | tooSmall
  | mapFailed
  deriving DecidableEq

/-! ## Headers -/

structure PeInfo where
  coffOffset : ℕ
  machine : ℕ
  numberOfSections : ℕ
  sizeOfOptionalHeader : ℕ
  characteristics : ℕ
  entryPointRva : ℕ
  imageBase : ℕ
  sectionAlignment : ℕ
  fileAlignment : ℕ
  sizeOfImage : ℕ
  sizeOfHeaders : ℕ
  numberOfRvaAndSizes : ℕ
  sectionHeadersOffset : ℕ
  dataDirOffset : ℕ
  imageBase_lt : imageBase < 2 ^ 64
  sizeOfImage_lt : sizeOfImage < 2 ^ 32
  sizeOfHeaders_lt : sizeOfHeaders < 2 ^ 32

/-- What is taken from the headers, with the COFF header at an offset of the file. -/
def PeInfo.ofHeaders (coffOffset : ℕ) (coff : CoffHeader) (opt : OptionalHeader64) : PeInfo where
  coffOffset := coffOffset
  machine := coff.machine
  numberOfSections := coff.numberOfSections
  sizeOfOptionalHeader := coff.sizeOfOptionalHeader
  characteristics := coff.characteristics
  entryPointRva := opt.addressOfEntryPoint
  imageBase := opt.imageBase
  sectionAlignment := opt.sectionAlignment
  fileAlignment := opt.fileAlignment
  sizeOfImage := opt.sizeOfImage
  sizeOfHeaders := opt.sizeOfHeaders
  numberOfRvaAndSizes := opt.numberOfRvaAndSizes
  sectionHeadersOffset := coffOffset + 20 + coff.sizeOfOptionalHeader
  dataDirOffset := coffOffset + 20 + 112
  imageBase_lt := opt.imageBase_lt
  sizeOfImage_lt := opt.sizeOfImage_lt
  sizeOfHeaders_lt := opt.sizeOfHeaders_lt

section

variable (arch : Arch) (env : Env) (f : File) (info : PeInfo) (loadBase : ℕ)

/-- Check a PE file and read its headers. The offsets are 32-bit numbers, and their sums
    do not wrap. -/
def peValidate : Except PeError PeInfo :=
  match f.dosHeader 0 with
  | none => .error .tooSmall
  | some dos =>
    if dos.eMagic ≠ peDosMagic then .error .notPe
    else
      match f.coffHeader (dos.eLfanew + 4) with
      | none => .error .tooSmall
      | some coff =>
        if f.le dos.eLfanew 4 ≠ peSignature then .error .notPe
        else if coff.machine ≠ arch.peMachine then .error .badArch
        else if coff.numberOfSections = 0 then .error .noSections
        else
          let optOffset := dos.eLfanew + 4 + 20
          match f.optionalHeader64 optOffset with
          | none => .error .tooSmall
          | some opt =>
            let sectionHeadersOffset := optOffset + coff.sizeOfOptionalHeader
            if opt.magic ≠ peOptMagicPe32plus then .error .not64Bit
            else if sectionHeadersOffset + coff.numberOfSections * 40 > f.size then
              .error .tooSmall
            else
              .ok (.ofHeaders (dos.eLfanew + 4) coff opt)

/-- The address range that the file asks for. -/
def peComputeLoadSpan : ℕ :=
  match peValidate arch f with
  | .error _ => 0
  | .ok info => pageAlignUp info.sizeOfImage

/-- The section headers from number `i` on. The loop stops at a header that is not in the
    file. -/
def sectionsFrom : (todo i : ℕ) → List SectionHeader
  | 0, _ => []
  | todo + 1, i =>
    match f.sectionHeader (info.sectionHeadersOffset + i * 40) with
    | none => []
    | some sec => sec :: sectionsFrom todo (i + 1)

def peSections : List SectionHeader := sectionsFrom f info info.numberOfSections 0

/-! ## Sections -/

namespace SectionHeader

variable (sec : SectionHeader) (loadBase : ℕ)

/-- The size in memory. A section that does not say it has the size it has in the file. -/
def vsize : ℕ := if sec.virtualSize > 0 then sec.virtualSize else sec.sizeOfRawData

/-- The section is not skipped. -/
def isLoaded : Bool := sec.characteristics &&& imageScnMemDiscardable = 0 && sec.vsize ≠ 0

def vaddrStart : ℕ := (loadBase + sec.virtualAddress) % 2 ^ 64

def pageStart : ℕ := pageAlignDown (sec.vaddrStart loadBase)

def pageEnd : ℕ := pageAlignUp ((sec.vaddrStart loadBase + sec.vsize) % 2 ^ 64)

/-- The pages of a section, as its loop goes through them. -/
def pages : List ℕ := pageRange (sec.pageStart loadBase) (sec.pageEnd loadBase)

def isWritable : Bool := sec.characteristics &&& imageScnMemWrite ≠ 0

def isExecutable : Bool := sec.characteristics &&& imageScnMemExecute ≠ 0

/-- `section_to_vspace_flags`: a section that is writable is not executable. -/
def toVspaceFlags : ℕ := permFlags sec.isWritable sec.isExecutable

/-- What a page of a section gets. The part of the file is found by addresses relative to
    the image. -/
def item (index page : ℕ) : PlaceItem :=
  .ofOverlap (.segment index page) page sec.toVspaceFlags (isPerm_permFlags _ _)
    (wsub page loadBase) sec.virtualAddress (sec.virtualAddress + sec.sizeOfRawData)
    fun start => sec.pointerToRawData + (start - sec.virtualAddress)

end SectionHeader

/-- The sections that are loaded, with their numbers. -/
def loadedSections : List (SectionHeader × ℕ) :=
  (peSections f info).zipIdx.filter (·.1.isLoaded)

/-- The end of the headers in the image. -/
def PeInfo.headersEnd : ℕ := pageAlignUp info.sizeOfHeaders

/-- The pages of the headers. The end of their loop may wrap. -/
def headerPages : List ℕ :=
  pageRange loadBase ((loadBase + info.headersEnd) % 2 ^ 64)

/-- What a page of the headers gets. The headers have the same place in the file as in the
    image. -/
def headerItem (page : ℕ) : PlaceItem where
  site := .headers page
  page := page
  flags := vspaceFlagUser
  perm := isPerm_permFlags false false
  src := page - loadBase
  dst := 0
  len := min (f.size - (page - loadBase)) pageSize
  fits := by
    rw [Nat.zero_add]
    exact Nat.min_le_right _ _

/-- The items of the loader: the headers, then the sections. -/
def peItems : List PlaceItem :=
  (headerPages info loadBase).map (headerItem f loadBase) ++
    regionItems (SectionHeader.pages · loadBase) (SectionHeader.item · loadBase)
      (loadedSections f info)

/-- `MAX_PE_PAGES`. -/
def maxPePages : ℕ := 512

/-- `MAX_PE_SECTIONS`. -/
def maxPeSections : ℕ := 32

/-- The checks of `pe_load`. -/
def pePlan : Except PeError PeInfo := do
  let info ← peValidate arch f
  if info.numberOfSections > maxPeSections then .error .noSections
  else .ok info

/-- How the PE loader places pages. -/
def peConfig : PlaceConfig PeError where
  capacity := maxPePages
  retype := .ownUntyped
  recordRemap := false
  mapFailed := .mapFailed
  outOfMemory := .outOfMemory

/-- `pe_load` up to the end of its section loop. -/
def peLoadSections : LoadM PeError PeInfo :=
  match pePlan arch f with
  | .error e => throw (.error e)
  | .ok info => do
    modify fun w => { w with pages := [] }
    placePages peConfig env f (peItems f info loadBase)
    return info

/-! ## Relocations -/

def readDataDir (index : ℕ) : DataDirectory :=
  if index ≥ info.numberOfRvaAndSizes then ⟨0, 0⟩
  else (f.dataDirectory (info.dataDirOffset + index * 8)).getD ⟨0, 0⟩

/-- The place in the file of an address relative to the image. The end of a section is a
    32-bit number and may wrap. -/
def rvaToFileOffset (rva : ℕ) : Option ℕ :=
  if rva < info.sizeOfHeaders then some rva
  else
    match (peSections f info).find? fun sec => sec.virtualAddress ≤ rva &&
        rva < (sec.virtualAddress + sec.vsize) % 2 ^ 32 with
    | none => none
    | some sec =>
      let fileOff := sec.pointerToRawData + (rva - sec.virtualAddress)
      if rva - sec.virtualAddress < sec.sizeOfRawData ∧ fileOff < f.size then some fileOff
      else none

/-- Write a word to a frame, or add to the one there. -/
def writeU64ToPage {ε : Type} (env : Env) (site : Site) (frame pageOffset value : ℕ)
    (additive : Bool) : LoadM ε ℤ :=
  updateWord env site frame pageOffset fun old => if additive then old + value else value

/-- Apply a relocation of a block. Only 64-bit relocations do something. -/
def applyRelocation {ε : Type} (env : Env) (failed : ε) (loadBase delta blockRva off entry : ℕ) :
    LoadM ε PUnit := do
  if entry / 2 ^ 12 = imageRelBasedDir64 then
    let target := (loadBase + (blockRva + entry % 2 ^ 12)) % 2 ^ 64
    let targetPage := pageAlignDown target
    let w ← get
    match w.entry targetPage with
    | none => throw (.error failed)
    | some p =>
      let err ← writeU64ToPage env (.reloc off) p.frameCap (target - targetPage) delta true
      if err ≠ 0 then throw (.error failed)

/-- The relocation at the offset `off` of the file. -/
def relocateEntry (delta blockRva off : ℕ) : LoadM PeError PUnit := do
  if off + 2 > f.size then throw .fault
  applyRelocation env .relocFailed loadBase delta blockRva off (f.le off 2)

/-- The blocks of relocations from `pos` on. A block may have entries outside of the file.
    The fuel is enough for every block that is in the file. -/
def relocateBlocks (delta relocEnd : ℕ) : (fuel pos : ℕ) → LoadM PeError PUnit
  | 0, _ => return ⟨⟩
  | fuel + 1, pos =>
    if pos + 8 ≤ relocEnd then
      match f.baseRelocation pos with
      | none => throw .fault
      | some block =>
        if block.sizeOfBlock = 0 then return ⟨⟩
        else if block.sizeOfBlock < 8 then throw (.error .relocFailed)
        else do
          (List.range ((block.sizeOfBlock - 8) / 2)).forM fun i =>
            relocateEntry env f loadBase delta block.virtualAddress (pos + 8 + 2 * i)
          relocateBlocks delta relocEnd fuel (alignUp 4 (pos + block.sizeOfBlock))
    else return ⟨⟩

def peRelocate (env : Env) (f : File) (info : PeInfo) (delta loadBase : ℕ) :
    LoadM PeError PUnit :=
  let relocDir := readDataDir f info imageDirectoryEntryBasereloc
  if relocDir.virtualAddress = 0 ∨ relocDir.size = 0 then return ⟨⟩
  else
    match rvaToFileOffset f info relocDir.virtualAddress with
    | none => throw (.error .relocFailed)
    | some relocFileOff =>
      let relocEnd := relocFileOff + relocDir.size
      if relocEnd > f.size then throw (.error .relocFailed)
      else relocateBlocks env f loadBase delta relocEnd (f.size + 1) relocFileOff

/-! ## The loader -/

structure PeLoadResult where
  entry : ℕ
  base : ℕ
  imageEnd : ℕ
  deriving DecidableEq

/-- Load a PE file into the child. -/
def peLoad : LoadM PeError PeLoadResult := do
  let info ← peLoadSections arch env f loadBase
  if wsub loadBase info.imageBase ≠ 0 then
    peRelocate env f info (wsub loadBase info.imageBase) loadBase
  return {
    entry := (loadBase + info.entryPointRva) % 2 ^ 64
    base := loadBase
    imageEnd := (loadBase + pageAlignUp info.sizeOfImage) % 2 ^ 64 }

end

/-! ## The headers -/

section Headers

variable {arch : Arch} {f : File} {info : PeInfo}

/-- What the checks have found out about a file that passes them: the section headers are in
    the file, and so is the optional header, which is before the data directories and ends with
    their number. -/
structure PeChecked (f : File) (info : PeInfo) : Prop where
  sections_le : info.sectionHeadersOffset + info.numberOfSections * 40 ≤ f.size
  le_dataDir : 112 ≤ info.dataDirOffset
  dataDir_le : info.dataDirOffset ≤ f.size
  numberOfRvaAndSizes_eq : info.numberOfRvaAndSizes = f.le (info.dataDirOffset - 4) 4

theorem peValidate_checked (h : peValidate arch f = .ok info) : PeChecked f info := by
  unfold peValidate at h
  split at h
  · cases h
  split at h
  · cases h
  split at h
  · cases h
  split at h
  · cases h
  split at h
  · cases h
  split at h
  · cases h
  simp only at h
  split at h
  · cases h
  rename_i opt hopt
  split at h
  · cases h
  split at h
  · cases h
  rename_i hend
  obtain rfl := Except.ok.inj h
  rw [File.optionalHeader64] at hopt
  split_ifs at hopt with hin
  obtain rfl := Option.some.inj hopt
  exact ⟨not_lt.1 hend, Nat.le_add_left _ _, hin, rfl⟩

theorem PeChecked.numberOfRvaAndSizes_lt (h : PeChecked f info) :
    info.numberOfRvaAndSizes < 2 ^ 32 := by
  rw [h.numberOfRvaAndSizes_eq]
  exact f.le_four_lt _

theorem pePlan_ok (h : pePlan arch f = .ok info) : peValidate arch f = .ok info := by
  simp only [pePlan, bind, Except.bind] at h
  split at h
  · cases h
  · rename_i info' hinfo
    split_ifs at h
    obtain rfl := Except.ok.inj h
    exact hinfo

/-- The loop over the sections goes through all of them. -/
theorem sectionsFrom_getElem? {todo i : ℕ}
    (h : info.sectionHeadersOffset + (i + todo) * 40 ≤ f.size) {n : ℕ} (hn : n < todo) :
    (sectionsFrom f info todo i)[n]? =
      f.sectionHeader (info.sectionHeadersOffset + (i + n) * 40) := by
  induction todo generalizing i n with
  | zero => omega
  | succ todo ih =>
    have hsome : (f.sectionHeader (info.sectionHeadersOffset + i * 40)).isSome = true := by
      rw [File.sectionHeader, if_pos (by omega)]
      rfl
    obtain ⟨sec, hsec⟩ := Option.isSome_iff_exists.1 hsome
    rw [sectionsFrom, hsec]
    cases n with
    | zero => simpa using hsec.symm
    | succ n =>
      rw [List.getElem?_cons_succ, ih (by omega) (by omega)]
      congr 2
      omega

/-- All sections that the file announces are in it, and are gone through. -/
theorem peSections_getElem? (h : peValidate arch f = .ok info) {n : ℕ}
    (hn : n < info.numberOfSections) : (peSections f info)[n]? =
      f.sectionHeader (info.sectionHeadersOffset + n * 40) := by
  have hend := (peValidate_checked h).sections_le
  rw [peSections, sectionsFrom_getElem? (by simpa using hend) hn, Nat.zero_add]

theorem mem_loadedSections {sec : SectionHeader} {i : ℕ} :
    (sec, i) ∈ loadedSections f info ↔
      (peSections f info)[i]? = some sec ∧ sec.isLoaded = true := by
  simp [loadedSections, List.mem_zipIdx_iff_getElem?]

end Headers

/-! ## The items -/

namespace SectionHeader

variable {sec : SectionHeader} {loadBase v : ℕ}

theorem vaddrStart_lt (sec : SectionHeader) (loadBase : ℕ) : sec.vaddrStart loadBase < 2 ^ 64 :=
  Nat.mod_lt _ (by decide)

theorem vsize_lt (sec : SectionHeader) : sec.vsize < 2 ^ 32 := by
  have h₁ := sec.virtualSize_lt
  have h₂ := sec.sizeOfRawData_lt
  unfold vsize
  split <;> assumption

theorem pageStart_eq (sec : SectionHeader) (loadBase : ℕ) :
    sec.pageStart loadBase = sec.vaddrStart loadBase - sec.vaddrStart loadBase % 4096 :=
  pageAlignDown_eq (sec.vaddrStart_lt loadBase)

theorem pageEnd_eq (sec : SectionHeader) (loadBase : ℕ) :
    sec.pageEnd loadBase = ((sec.vaddrStart loadBase + sec.vsize) % 2 ^ 64 + 4095) % 2 ^ 64 -
      ((sec.vaddrStart loadBase + sec.vsize) % 2 ^ 64 + 4095) % 2 ^ 64 % 4096 :=
  pageAlignUp_eq _

/-- The pages of a section are the multiples of the page size in its range. -/
theorem mem_pages : v ∈ sec.pages loadBase ↔
    v % 4096 = 0 ∧ sec.pageStart loadBase ≤ v ∧ v < sec.pageEnd loadBase := by
  refine mem_pageRange ?_ ?_
  · rw [sec.pageStart_eq]
    omega
  · rw [sec.pageEnd_eq]
    omega

/-- The address of a page relative to the image, as the loader computes it. -/
theorem wsub_page (hb : loadBase < 2 ^ 64) (hv : v ∈ sec.pages loadBase)
    (hlow : sec.vaddrStart loadBase % 4096 ≤ sec.virtualAddress) :
    wsub v loadBase + sec.vaddrStart loadBase = sec.virtualAddress + v ∧
      wsub v loadBase + 4096 < 2 ^ 64 := by
  obtain ⟨hal, hlo, hhi⟩ := mem_pages.1 hv
  have hstart := sec.pageStart_eq loadBase
  have hend := sec.pageEnd_eq loadBase
  have hsize := sec.vsize_lt
  have hrva := sec.virtualAddress_lt
  have hvaddr : sec.vaddrStart loadBase = (loadBase + sec.virtualAddress) % 2 ^ 64 := rfl
  -- The pages are close to the section, which is close to the image.
  unfold wsub
  omega

/-- An item copies what its page has of the section's part of the file, unless the image
    is not at a page boundary and the page starts before it. -/
theorem item_backs (index : ℕ) (hb : loadBase < 2 ^ 64) (hv : v ∈ sec.pages loadBase)
    (hlow : sec.vaddrStart loadBase % 4096 ≤ sec.virtualAddress) :
    (sec.item loadBase index v).Backs (sec.vaddrStart loadBase) sec.sizeOfRawData
      sec.pointerToRawData := by
  obtain ⟨hrel, hbound⟩ := wsub_page hb hv hlow
  have hraw := sec.sizeOfRawData_lt
  have hptr := sec.pointerToRawData_lt
  generalize hp : wsub v loadBase = p at hrel hbound
  have hstart : overlapStart p sec.virtualAddress = max p sec.virtualAddress := by
    unfold overlapStart
    split <;> omega
  have hend : overlapEnd p (sec.virtualAddress + sec.sizeOfRawData) =
      min (p + 4096) (sec.virtualAddress + sec.sizeOfRawData) := by
    unfold overlapEnd
    rw [pageSize, Nat.mod_eq_of_lt hbound]
    split <;> omega
  refine ⟨?_, fun hpos => ?_, fun hpos => ?_⟩
  all_goals
    simp only [item, PlaceItem.ofOverlap, hp, hstart, hend] at *
  · split <;> omega
  · split at hpos
    · rename_i h
      rw [if_pos h]
      omega
    · omega
  · split at hpos
    · rename_i h
      rw [if_pos h]
      omega
    · omega

/-- On the page before the image, nothing is copied. -/
theorem item_len_eq_zero (index : ℕ) (hb : loadBase < 2 ^ 64)
    (hlow : sec.virtualAddress < sec.vaddrStart loadBase % 4096) :
    (sec.item loadBase index (sec.pageStart loadBase)).len = 0 := by
  have hraw := sec.sizeOfRawData_lt
  have hstart := sec.pageStart_eq loadBase
  have hvaddr : sec.vaddrStart loadBase = (loadBase + sec.virtualAddress) % 2 ^ 64 := rfl
  have hpage : wsub (sec.pageStart loadBase) loadBase =
      2 ^ 64 + sec.virtualAddress - sec.vaddrStart loadBase % 4096 := by
    unfold wsub
    omega
  -- The page is at the end of the addresses, far above the section's part of the file.
  have hend : overlapEnd (wsub (sec.pageStart loadBase) loadBase)
      (sec.virtualAddress + sec.sizeOfRawData) ≤ sec.virtualAddress + sec.sizeOfRawData := by
    unfold overlapEnd
    split <;> omega
  have hlow' := le_overlapStart (wsub (sec.pageStart loadBase) loadBase) sec.virtualAddress
  exact if_neg (not_lt.2 (by omega))

end SectionHeader

section Load

variable {arch : Arch} {env : Env} {f : File} {info : PeInfo} {loadBase : ℕ} {it : PlaceItem}
  {w w' : World}

theorem mem_peItems : it ∈ peItems f info loadBase ↔
    (∃ v ∈ headerPages info loadBase, headerItem f loadBase v = it) ∨
      ∃ sec i v, (sec, i) ∈ loadedSections f info ∧ v ∈ sec.pages loadBase ∧
        sec.item loadBase i v = it := by
  rw [peItems, List.mem_append, List.mem_map, mem_regionItems]

theorem peItems_inOrder (f : File) (info : PeInfo) (loadBase : ℕ) :
    InOrder (peItems f info loadBase) := by
  have hsections : InOrder (regionItems (SectionHeader.pages · loadBase)
      (SectionHeader.item · loadBase) (loadedSections f info)) :=
    inOrder_regionItems (pairwise_filter_zipIdx _ _) (fun _ => nodup_pageRange _ _)
      (fun _ _ _ => rfl) fun _ _ _ => rfl
  constructor
  · intro it hit
    rcases List.mem_append.1 hit with hit | hit
    · obtain ⟨v, -, rfl⟩ := List.mem_map.1 hit
      exact .inl rfl
    · exact hsections.site_page it hit
  · refine List.pairwise_append.2 ⟨?_, hsections.ordered, fun a ha b hb => .inl ?_⟩
    · exact List.pairwise_map.2 ((nodup_pageRange _ _).imp fun hne => .inr ⟨rfl, hne⟩)
    · obtain ⟨v, -, rfl⟩ := List.mem_map.1 ha
      obtain ⟨sec, i, v', -, -, rfl⟩ := mem_regionItems.1 hb
      exact Nat.succ_pos i

/-! ## What a load does -/

theorem wp_peLoadSections {Q : PeInfo → World → Prop} {E : Stop PeError → World → Prop} :
    wp (peLoadSections arch env f loadBase) Q E w ↔
      match pePlan arch f with
      | .error e => E (.error e) w
      | .ok info =>
        wp (placePages peConfig env f (peItems f info loadBase)) (fun _ w' => Q info w') E
          { w with pages := [] } := by
  unfold peLoadSections
  split <;> simp

theorem relocateEntry_sameMaps {delta blockRva off : ℕ} :
    Within World.SameMaps (relocateEntry env f loadBase delta blockRva off) := by
  refine .ite (fun _ => .throw) fun _ => .ite (fun _ => .bind .get fun w => ?_) fun _ => .pure
  split
  · exact .throw
  · exact .bind updateWord_sameMaps fun err => .ite (fun _ => .throw) fun _ => .pure

theorem relocateBlocks_sameMaps {delta relocEnd fuel pos : ℕ} :
    Within World.SameMaps (relocateBlocks env f loadBase delta relocEnd fuel pos) := by
  induction fuel generalizing pos with
  | zero => exact .pure
  | succ fuel ih =>
    refine .ite (fun _ => ?_) fun _ => .pure
    split
    · exact .throw
    · refine .ite (fun _ => .pure) fun _ => .ite (fun _ => .throw) fun _ => ?_
      exact .bind (.forM fun i _ => relocateEntry_sameMaps) fun _ => ih

/-- Relocations change neither what is mapped nor what was copied. -/
theorem peRelocate_sameMaps {delta : ℕ} :
    Within World.SameMaps (peRelocate env f info delta loadBase) := by
  refine .ite (fun _ => .pure) fun _ => ?_
  split
  · exact .throw
  · exact .ite (fun _ => .throw) fun _ => relocateBlocks_sameMaps

/-- Every mapping asked for is on a page of an item, and not both writable and
    executable. -/
def PeMaps (arch : Arch) (f : File) (loadBase : ℕ) (w : World) : Prop :=
  ∀ v frame flags, LoadEvent.map v frame flags ∈ w.log →
    ∃ info, pePlan arch f = .ok info ∧ (∃ it ∈ peItems f info loadBase, it.page = v) ∧
      ¬WritableExecutable flags

/-- A load lays the items of the headers and the sections. One that stops has mapped pages
    of these items only. -/
theorem peLoad_spec (hw : w.Start) :
    wp (peLoad arch env f loadBase)
      (fun _ w' => ∃ info, pePlan arch f = .ok info ∧ Laid env f (peItems f info loadBase) w')
      (fun _ w' => PeMaps arch f loadBase w') w := by
  rw [peLoad, wp_bind, wp_peLoadSections]
  split
  · exact fun v frame flags hev => by simp [hw.log_nil] at hev
  · rename_i info hinfo
    have hmaps : ∀ w', MapsWithin (peItems f info loadBase) w' → PeMaps arch f loadBase w' :=
      fun w' h v frame flags hev => ⟨info, hinfo, h v frame flags hev⟩
    refine wp_mono (placePages_laid hw.reset) (fun _ w₁ hlaid => ?_) fun _ w₁ h => hmaps w₁ h
    simp only [wp_bind, wp_ite, wp_pure]
    refine ⟨fun _ => ?_, fun _ => ⟨info, hinfo, hlaid⟩⟩
    exact wp_mono (peRelocate_sameMaps w₁) (fun _ w₂ h => ⟨info, hinfo, hlaid.congr h⟩)
      fun _ w₂ h => hmaps w₂ (hlaid.congr h).maps

end Load

/-! ## A file with one section -/

/-- A PE file with headers and one section, whose image is two pages long. -/
def onePeSection (virtualAddress : ℕ) : File where
  bytes := peHeaderBytes 1 0x400000 0x2000 240 ++
    sectionBytes 16 virtualAddress 16 240 0x60000000 ++ wordBytes 16 0x1122334455667788
  length_lt := by simp [peHeaderBytes, coffBytes, optionalBytes, sectionBytes]

/-- What the checks read from the file when the section is on the second page. -/
def onePeInfo : PeInfo := resultOf (pePlan .x86_64 (onePeSection 0x1000)) (by decide +kernel)

end Trona
