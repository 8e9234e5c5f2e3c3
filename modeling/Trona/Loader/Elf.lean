import Trona.Lib.Fold
import Trona.Uapi.Elf
import Trona.Loader.Region

/-!
# The ELF loader

`elf_load` (`loader/elf_loader.rs`): it checks the headers, places the pages of the
PT_LOAD segments, and applies the RELATIVE relocations of a position-independent image.

What the loader computes from the file alone is its plan (`elfPlan`): the load bias,
and the items that its segment loop places. The effects are those of `placePages`,
followed by the writes of `applyRelocations`.
-/

namespace Trona

/-- The error codes of the ELF loader. -/
inductive ElfError
  | notElf
  | not64Bit
  | notLe
  | badType
  | badArch
  | noLoad
  | relocFailed
  | outOfMemory
  | tooSmall
  | mapFailed
  deriving DecidableEq

section

variable (arch : Arch) (env : Env) (f : File) (phs : List Elf64Phdr) (loadBase delta : ℕ)

/-! ## Headers -/

/-- The file starts with the magic bytes. -/
def Elf64Ehdr.isElf (ehdr : Elf64Ehdr) : Bool := ehdr.eIdent.take 4 = [0x7F, 0x45, 0x4C, 0x46]

/-- The checks of `elf_load` on the header of the file. -/
def elfHeader : Except (Stop ElfError) Elf64Ehdr :=
  match f.elf64Ehdr 0 with
  | none => .error (.error .tooSmall)
  | some ehdr =>
    if !ehdr.isElf then .error (.error .notElf)
    else if ehdr.eIdent.getD 4 0 ≠ 2 then .error (.error .not64Bit)
    else if ehdr.eIdent.getD 5 0 ≠ 1 then .error (.error .notLe)
    else if ehdr.eType ≠ etExec ∧ ehdr.eType ≠ etDyn then .error (.error .badType)
    else if ehdr.eMachine ≠ arch.elfMachine then .error (.error .badArch)
    else .ok ehdr

/-- The program headers from number `i` on. The loop stops at a header that is not
    in the file; its test may wrap, and the read is then outside of the file. -/
def phdrsFrom (ehdr : Elf64Ehdr) : (todo i : ℕ) → Option (List Elf64Phdr)
  | 0, _ => some []
  | todo + 1, i =>
    let off := (ehdr.ePhoff + i * ehdr.ePhentsize) % 2 ^ 64
    if (off + 56) % 2 ^ 64 > f.size then some []
    else
      match f.elf64Phdr off with
      | none => none
      | some ph => (phdrsFrom ehdr todo (i + 1)).map (ph :: ·)

/-- The program headers of a file, unless reading them leaves the file. All loops over
    the headers read these. -/
def phdrs (ehdr : Elf64Ehdr) : Option (List Elf64Phdr) := phdrsFrom f ehdr ehdr.ePhnum 0

def Elf64Phdr.isLoad (ph : Elf64Phdr) : Bool := ph.pType = ptLoad

/-- The PT_LOAD headers, with their numbers. -/
def loads : List (Elf64Phdr × ℕ) := phs.zipIdx.filter (·.1.isLoad)

/-- The least address of a PT_LOAD header. -/
def minVaddr : ℕ :=
  foldMin Elf64Phdr.pVaddr (2 ^ 64 - 1) (phs.filter Elf64Phdr.isLoad)

/-! ## Segments -/

namespace Elf64Phdr

variable (ph : Elf64Phdr) (delta : ℕ)

def segVaddr : ℕ := (ph.pVaddr + delta) % 2 ^ 64

def segStart : ℕ := pageAlignDown (ph.segVaddr delta)

def segEnd : ℕ := pageAlignUp ((ph.segVaddr delta + ph.pMemsz) % 2 ^ 64)

/-- The number of pages of a segment. -/
def segPageCount : ℕ := (ph.segEnd delta - ph.segStart delta) / pageSize

/-- The pages of a segment, as its loop goes through them. -/
def segPages : List ℕ := pageRange (ph.segStart delta) (ph.segEnd delta)

/-- `phdr_to_flags`: a segment that is writable is not executable. -/
def phdrToFlags : ℕ := permFlags (ph.pFlags &&& pfW ≠ 0) (ph.pFlags &&& pfX ≠ 0)

/-- What a page of a segment gets. -/
def item (index page : ℕ) : PlaceItem :=
  .ofOverlap (.segment index page) page ph.phdrToFlags (isPerm_permFlags _ _)
    page (ph.segVaddr delta) ((ph.segVaddr delta + ph.pFilesz) % 2 ^ 64)
    fun copyStart => (wsub (wsub copyStart delta) ph.pVaddr + ph.pOffset) % 2 ^ 64

variable {ph delta} {index page : ℕ}

theorem item_writable : (ph.item delta index page).writable = true ↔ ph.pFlags &&& pfW ≠ 0 :=
  decide_eq_true_iff.trans ((permFlags_writable _ _).trans decide_eq_true_iff)

theorem item_executable : (ph.item delta index page).executable = true ↔
    ¬ph.pFlags &&& pfW ≠ 0 ∧ ph.pFlags &&& pfX ≠ 0 :=
  decide_eq_true_iff.trans ((permFlags_executable _ _).trans
    (and_congr decide_eq_false_iff_not decide_eq_true_iff))

end Elf64Phdr

/-- The items of the segment loop. -/
def elfItems : List PlaceItem :=
  regionItems (Elf64Phdr.segPages · delta) (Elf64Phdr.item · delta) (loads phs)

/-- The pages the loader reserves room for. -/
def pageCapacity : ℕ :=
  (phs.filter Elf64Phdr.isLoad).foldl (fun n ph => (n + ph.segPageCount delta) % 2 ^ 64) 0

/-- The end of the segments. -/
def elfBrk : ℕ :=
  foldMax (Elf64Phdr.segEnd · delta) 0 (phs.filter Elf64Phdr.isLoad)

/-- What the loader computes from the file before it loads. -/
structure ElfPlan where
  ehdr : Elf64Ehdr
  phs : List Elf64Phdr
  delta : ℕ

/-- `MAX_PAGES` of `elf_load`. -/
def maxPages : ℕ := 256

/-- The checks of `elf_load`, up to its segment loop. -/
def elfPlan : Except (Stop ElfError) ElfPlan := do
  let ehdr ← elfHeader arch f
  match phdrs f ehdr with
  | none => .error .fault
  | some phs =>
    if !phs.any Elf64Phdr.isLoad then .error (.error .noLoad)
    else
      let delta := if ehdr.eType = etDyn then wsub loadBase (minVaddr phs) else 0
      if pageCapacity phs delta = 0 then .error (.error .noLoad)
      else if pageCapacity phs delta > maxPages then .error (.error .outOfMemory)
      else .ok ⟨ehdr, phs, delta⟩

/-- How the ELF loader places pages. -/
def elfConfig (capacity : ℕ) : PlaceConfig ElfError where
  capacity := capacity
  retype := .anyUntyped
  recordRemap := true
  mapFailed := .mapFailed
  outOfMemory := .outOfMemory

/-- `elf_load` up to the end of its segment loop. -/
def elfLoadSegments : LoadM ElfError ElfPlan :=
  match elfPlan arch f loadBase with
  | .error e => throw e
  | .ok plan => do
    modify fun w => { w with pages := [] }
    placePages (elfConfig (pageCapacity plan.phs plan.delta)) env f (elfItems plan.phs plan.delta)
    return plan

/-! ## Relocations -/

def vaddrToFileOffset (vaddr : ℕ) : Option ℕ :=
  match phs.find? fun ph => ph.isLoad && ph.pVaddr ≤ vaddr && vaddr - ph.pVaddr < ph.pFilesz with
  | none => none
  | some ph =>
    let fileOff := (ph.pOffset + (vaddr - ph.pVaddr)) % 2 ^ 64
    if fileOff ≥ f.size then none else some fileOff

/-- What the dynamic table says about the relocations with addends. -/
structure RelaTable where
  relaVaddr : ℕ
  relaSize : ℕ
  relaEnt : ℕ

/-- The walk through the dynamic table. It leaves the file when its tests wrap. The
    fuel is enough for every entry that is in the file. -/
def dynWalk (dynEnd : ℕ) : (fuel pos : ℕ) → RelaTable → Option RelaTable
  | 0, _, _ => none
  | fuel + 1, pos, t =>
    if (pos + 16) % 2 ^ 64 ≤ dynEnd ∧ (pos + 16) % 2 ^ 64 ≤ f.size then
      match f.elf64Dyn pos with
      | none => none
      | some d =>
        if d.dTag = dtNull then some t
        else
          let t := if d.dTag = dtRela then { t with relaVaddr := d.dVal } else t
          let t := if d.dTag = dtRelasz then { t with relaSize := d.dVal } else t
          let t := if d.dTag = dtRelaent then { t with relaEnt := d.dVal } else t
          dynWalk dynEnd fuel ((pos + 16) % 2 ^ 64) t
    else some t

/-- Where the relocations are in the file, how many there are and how far apart. -/
structure RelaRange where
  offset : ℕ
  count : ℕ
  ent : ℕ
  deriving DecidableEq

/-- Find the relocations: there are none, or they are in a range of the file. -/
def relaRange : Except (Stop ElfError) (Option RelaRange) :=
  match phs.find? (·.pType = ptDynamic) with
  | none => .ok none
  | some dyn =>
    if dyn.pOffset = 0 then .ok none
    else
      match dynWalk f ((dyn.pOffset + dyn.pFilesz) % 2 ^ 64) (f.size + 1) dyn.pOffset ⟨0, 0, 0⟩ with
      | none => .error .fault
      | some t =>
        if t.relaVaddr = 0 ∨ t.relaSize = 0 ∨ t.relaEnt = 0 then .ok none
        else if t.relaEnt < 24 then .error (.error .relocFailed)
        else
          match vaddrToFileOffset f phs t.relaVaddr with
          | none => .error (.error .relocFailed)
          | some offset => .ok (some ⟨offset, t.relaSize / t.relaEnt, t.relaEnt⟩)

/-- Where the relocation `i` is in the file. -/
def RelaRange.entryOff (r : RelaRange) (i : ℕ) : ℕ := (r.offset + i * r.ent) % 2 ^ 64

def Elf64Rela.isRelative (rela : Elf64Rela) : Bool := rela.rInfo % 2 ^ 32 = arch.relative

/-- Where a relocation writes to. -/
def Elf64Rela.target (rela : Elf64Rela) (delta : ℕ) : ℕ := (rela.rOffset + delta) % 2 ^ 64

/-- Write a word to a frame. -/
def writeToPage {ε : Type} (env : Env) (site : Site) (frame pageOffset value : ℕ) :
    LoadM ε ℤ :=
  updateWord env site frame pageOffset fun _ => value

/-- Apply the relocation `i`. -/
def relocate (r : RelaRange) (i : ℕ) : LoadM ElfError PUnit := do
  if (r.entryOff i + 24) % 2 ^ 64 > f.size then throw (.error .relocFailed)
  match f.elf64Rela (r.entryOff i) with
  | none => throw .fault
  | some rela =>
    if rela.isRelative arch then
      let target := rela.target delta
      let value := (loadBase + rela.rAddend) % 2 ^ 64
      let targetPage := pageAlignDown target
      let w ← get
      match w.entry targetPage with
      | none => throw (.error .relocFailed)
      | some p =>
        let err ← writeToPage env (.reloc i) p.frameCap (target - targetPage) value
        if err ≠ 0 then throw (.error .relocFailed)

def applyRelocations (plan : ElfPlan) : LoadM ElfError PUnit :=
  match relaRange f plan.phs with
  | .error e => throw e
  | .ok none => return ⟨⟩
  | .ok (some r) => (List.range r.count).forM (relocate arch env f loadBase plan.delta r)

/-! ## The loader -/

structure ElfLoadResult where
  entry : ℕ
  base : ℕ
  brk : ℕ
  deriving DecidableEq

/-- Load an ELF file into the child. -/
def elfLoad : LoadM ElfError ElfLoadResult := do
  let plan ← elfLoadSegments arch env f loadBase
  if plan.ehdr.eType = etDyn then
    applyRelocations arch env f loadBase plan
  return {
    entry := (plan.ehdr.eEntry + plan.delta) % 2 ^ 64
    base := loadBase
    brk := elfBrk plan.phs plan.delta }

/-- The end of the PT_LOAD segments in the file's own addresses. -/
def maxVaddrEnd : ℕ :=
  foldMax (fun ph => (ph.pVaddr + ph.pMemsz) % 2 ^ 64) 0 (phs.filter Elf64Phdr.isLoad)

/-- The span of the PT_LOAD segments, unless reading the headers leaves the file. -/
def elfComputeLoadSpan : Option ℕ :=
  match f.elf64Ehdr 0 with
  | none => some 0
  | some ehdr =>
    if !ehdr.isElf then some 0
    else
      match phdrs f ehdr with
      | none => none
      | some phs =>
        if minVaddr phs = 2 ^ 64 - 1 ∨ maxVaddrEnd phs = 0 then some 0
        else some (wsub (pageAlignUp (maxVaddrEnd phs)) (pageAlignDown (minVaddr phs)))

end

/-! ## The plan -/

variable {arch : Arch} {f : File} {loadBase : ℕ} {plan : ElfPlan} {env : Env}

theorem elfHeader_ok {ehdr : Elf64Ehdr} (h : elfHeader arch f = .ok ehdr) :
    f.elf64Ehdr 0 = some ehdr ∧ ehdr.isElf = true := by
  unfold elfHeader at h
  split at h
  · cases h
  · rename_i ehdr' hehdr
    split_ifs at h with helf
    all_goals cases h
    exact ⟨hehdr, by simpa using helf⟩

/-- What a plan has passed. -/
theorem elfPlan_ok (h : elfPlan arch f loadBase = .ok plan) :
    elfHeader arch f = .ok plan.ehdr ∧ phdrs f plan.ehdr = some plan.phs ∧
      (∃ ph ∈ plan.phs, ph.isLoad = true) ∧
      plan.delta = (if plan.ehdr.eType = etDyn then wsub loadBase (minVaddr plan.phs) else 0) ∧
      pageCapacity plan.phs plan.delta ≠ 0 ∧ pageCapacity plan.phs plan.delta ≤ maxPages := by
  simp only [elfPlan, bind, Except.bind] at h
  split at h
  · cases h
  · rename_i ehdr hehdr
    split at h
    · cases h
    · rename_i phs hphs
      split_ifs at h with hload hcap hmax
      all_goals cases h
      all_goals simp_all

theorem ElfPlan.delta_lt (h : elfPlan arch f loadBase = .ok plan) : plan.delta < 2 ^ 64 := by
  rw [(elfPlan_ok h).2.2.2.1]
  split
  · exact wsub_lt _ _
  · decide

/-- The segment loop places the items of the plan. -/
theorem wp_elfLoadSegments {Q : ElfPlan → World → Prop} {E : Stop ElfError → World → Prop}
    {w : World} :
    wp (elfLoadSegments arch env f loadBase) Q E w ↔
      match elfPlan arch f loadBase with
      | .error e => E e w
      | .ok plan =>
        wp (placePages (elfConfig (pageCapacity plan.phs plan.delta)) env f
          (elfItems plan.phs plan.delta)) (fun _ w' => Q plan w') E { w with pages := [] } := by
  unfold elfLoadSegments
  split <;> simp

/-- The segment loop lays the items of the plan. -/
theorem elfLoadSegments_laid {w w' : World} (hw : w.Start)
    (h : (elfLoadSegments arch env f loadBase).run w = .ok plan w') :
    elfPlan arch f loadBase = .ok plan ∧ Laid env f (elfItems plan.phs plan.delta) w' := by
  refine wp_ok (Q := fun plan w' => elfPlan arch f loadBase = .ok plan ∧
    Laid env f (elfItems plan.phs plan.delta) w') (E := fun _ _ => True)
    (wp_elfLoadSegments.2 ?_) h
  split
  · trivial
  · rename_i plan hplan
    exact wp_returns (placePages_laid hw.reset) fun _ _ hlaid => ⟨hplan, hlaid⟩

/-! ## The items -/

section Items

variable {phs : List Elf64Phdr} {delta : ℕ} {it : PlaceItem} {ph : Elf64Phdr} {i : ℕ}

theorem mem_loads : (ph, i) ∈ loads phs ↔ phs[i]? = some ph ∧ ph.isLoad = true := by
  simp [loads, List.mem_zipIdx_iff_getElem?]

theorem loads_map_fst (phs : List Elf64Phdr) :
    (loads phs).map Prod.fst = phs.filter Elf64Phdr.isLoad :=
  filter_zipIdx_map_fst phs Elf64Phdr.isLoad

theorem exists_mem_loads (h : ph ∈ phs) (hl : ph.isLoad = true) : ∃ i, (ph, i) ∈ loads phs := by
  obtain ⟨i, hi⟩ := List.getElem?_of_mem h
  exact ⟨i, mem_loads.2 ⟨hi, hl⟩⟩

theorem mem_of_mem_loads (h : (ph, i) ∈ loads phs) : ph ∈ phs ∧ ph.isLoad = true :=
  ⟨List.mem_of_getElem? (mem_loads.1 h).1, (mem_loads.1 h).2⟩

theorem mem_elfItems : it ∈ elfItems phs delta ↔
    ∃ ph i v, (ph, i) ∈ loads phs ∧ v ∈ ph.segPages delta ∧ ph.item delta i v = it :=
  mem_regionItems

theorem elfItems_inOrder (phs : List Elf64Phdr) (delta : ℕ) : InOrder (elfItems phs delta) :=
  inOrder_regionItems (pairwise_filter_zipIdx phs _) (fun _ => nodup_pageRange _ _)
    (fun _ _ _ => rfl) fun _ _ _ => rfl

/-- With a frame of its own for every page, the segment loop refines the image of the
    plan. -/
theorem elfLoadSegments_refines {w w' : World} (hw : w.Start) (hfresh : env.FreshFrames)
    (h : (elfLoadSegments arch env f loadBase).run w = .ok plan w') :
    Refines env f (elfItems plan.phs plan.delta) w' := by
  refine wp_ok (Q := fun plan w' => Refines env f (elfItems plan.phs plan.delta) w')
    (E := fun _ _ => True) (wp_elfLoadSegments.2 ?_) h
  split
  · trivial
  · rename_i plan _
    exact placePages_refines hw.reset hfresh (elfItems_inOrder plan.phs plan.delta).sites_nodup

/-- There is room for all items, unless their count wraps. -/
theorem pageCapacity_eq (phs : List Elf64Phdr) (delta : ℕ) :
    pageCapacity phs delta = (elfItems phs delta).length % 2 ^ 64 := by
  have hsum : ∀ (l : List Elf64Phdr) (n : ℕ),
      l.foldl (fun n ph => (n + ph.segPageCount delta) % 2 ^ 64) n % 2 ^ 64 =
        (n + (l.map fun ph => ph.segPageCount delta).sum) % 2 ^ 64 := by
    intro l
    induction l with
    | nil => simp
    | cons ph l ih =>
      intro n
      rw [List.foldl_cons, ih, List.map_cons, List.sum_cons]
      omega
  have hlt : pageCapacity phs delta < 2 ^ 64 := by
    unfold pageCapacity
    induction phs.filter Elf64Phdr.isLoad using List.reverseRecOn with
    | nil => simp
    | append_singleton l ph _ =>
      rw [List.foldl_append]
      exact Nat.mod_lt _ (by decide)
  have hlen : (elfItems phs delta).length =
      ((phs.filter Elf64Phdr.isLoad).map fun ph => ph.segPageCount delta).sum := by
    rw [← loads_map_fst, elfItems, regionItems, List.length_flatMap, List.map_map]
    simp [Elf64Phdr.segPages, pageRange, Elf64Phdr.segPageCount, Function.comp_def]
  rw [← Nat.mod_eq_of_lt hlt, pageCapacity, hsum, Nat.zero_add, hlen]

theorem minVaddr_le (h : ph ∈ phs) (hl : ph.isLoad = true) : minVaddr phs ≤ ph.pVaddr :=
  foldMin_le (List.mem_filter.2 ⟨h, hl⟩)

theorem minVaddr_lt (phs : List Elf64Phdr) : minVaddr phs < 2 ^ 64 :=
  (Nat.lt_succ_of_le (le_foldMin.1 le_rfl).1).trans_le (by decide)

theorem le_maxVaddrEnd (h : ph ∈ phs) (hl : ph.isLoad = true) :
    (ph.pVaddr + ph.pMemsz) % 2 ^ 64 ≤ maxVaddrEnd phs :=
  le_foldMax (g := fun ph : Elf64Phdr => (ph.pVaddr + ph.pMemsz) % 2 ^ 64)
    (List.mem_filter.2 ⟨h, hl⟩)

end Items

namespace Elf64Phdr

variable {ph : Elf64Phdr} {delta v : ℕ}

theorem segVaddr_lt (ph : Elf64Phdr) (delta : ℕ) : ph.segVaddr delta < 2 ^ 64 :=
  Nat.mod_lt _ (by decide)

theorem segStart_eq (ph : Elf64Phdr) (delta : ℕ) :
    ph.segStart delta = ph.segVaddr delta - ph.segVaddr delta % 4096 :=
  pageAlignDown_eq (ph.segVaddr_lt delta)

theorem segEnd_aligned (ph : Elf64Phdr) (delta : ℕ) : ph.segEnd delta % 4096 = 0 := by
  rw [segEnd, pageAlignUp_eq]
  omega

/-- The pages of a segment are the multiples of the page size in its range. -/
theorem mem_segPages : v ∈ ph.segPages delta ↔
    v % 4096 = 0 ∧ ph.segStart delta ≤ v ∧ v < ph.segEnd delta := by
  refine mem_pageRange ?_ (ph.segEnd_aligned delta)
  rw [ph.segStart_eq]
  omega

/-- The segment at run time does not wrap, up to the end of its last page. -/
def NoWrap (ph : Elf64Phdr) (delta : ℕ) : Prop :=
  ph.segVaddr delta + ph.pMemsz + 4095 < 2 ^ 64

instance : Decidable (ph.NoWrap delta) := inferInstanceAs (Decidable (_ < _))

theorem NoWrap.segEnd_eq (h : ph.NoWrap delta) : ph.segEnd delta =
    ph.segVaddr delta + ph.pMemsz + 4095 - (ph.segVaddr delta + ph.pMemsz + 4095) % 4096 := by
  unfold NoWrap at h
  rw [segEnd, pageAlignUp_eq]
  omega

/-- The source of a copy goes back over the load bias to the offset of the segment. -/
theorem src_eq (ph : Elf64Phdr) {c : ℕ} (hd : delta < 2 ^ 64) (hle : ph.segVaddr delta ≤ c) :
    (wsub (wsub c delta) ph.pVaddr + ph.pOffset) % 2 ^ 64 =
      (ph.pOffset + (c - ph.segVaddr delta)) % 2 ^ 64 := by
  have hv := ph.pVaddr_lt
  unfold segVaddr wsub at *
  omega

/-- The loop stops short of the last page of the address space. -/
theorem segEnd_le (ph : Elf64Phdr) (delta : ℕ) : ph.segEnd delta ≤ 2 ^ 64 - 4096 := by
  rw [segEnd, pageAlignUp_eq]
  omega

/-- What the item of a page of a segment copies: the part of the segment's bytes in the
    file that is on the page. -/
theorem item_spec (index : ℕ) (hd : delta < 2 ^ 64) (hv : v ∈ ph.segPages delta) :
    (ph.item delta index v).len =
        min (v + 4096) ((ph.segVaddr delta + ph.pFilesz) % 2 ^ 64) - max v (ph.segVaddr delta) ∧
      (0 < (ph.item delta index v).len →
        (ph.item delta index v).dst = max v (ph.segVaddr delta) - v ∧
        (ph.item delta index v).src =
          (ph.pOffset + (max v (ph.segVaddr delta) - ph.segVaddr delta)) % 2 ^ 64) := by
  obtain ⟨hal, -, hhi⟩ := mem_segPages.1 hv
  have hbound : (v + pageSize) % 2 ^ 64 = v + 4096 := by
    have := ph.segEnd_le delta
    simp only [pageSize]
    omega
  have hstart : overlapStart v (ph.segVaddr delta) = max v (ph.segVaddr delta) := by
    unfold overlapStart
    split <;> omega
  have hend : overlapEnd v ((ph.segVaddr delta + ph.pFilesz) % 2 ^ 64) =
      min (v + 4096) ((ph.segVaddr delta + ph.pFilesz) % 2 ^ 64) := by
    unfold overlapEnd
    split <;> omega
  have hsrc := ph.src_eq (c := max v (ph.segVaddr delta)) hd (le_max_right _ _)
  simp only [item, PlaceItem.ofOverlap, hstart, hend, hsrc]
  split
  · exact ⟨rfl, fun _ => ⟨rfl, rfl⟩⟩
  · exact ⟨by omega, fun h => absurd h (Nat.lt_irrefl 0)⟩

end Elf64Phdr

/-! ## What a relocation does -/

/-- The machine after a relocation: the part of the value that fits the page of the
    target is in the frame of the page. -/
def World.relocated (w : World) (loadBase delta : ℕ) (rela : Elf64Rela) (p : PageEntry) : World :=
  w.writeFrame p.frameCap (rela.target delta % pageSize)
    (min 8 (pageSize - rela.target delta % pageSize))
    (wordByte ((loadBase + rela.rAddend) % 2 ^ 64))

/-- `w'` is `w` after the relocation `i`. -/
inductive Relocated (arch : Arch) (f : File) (loadBase delta : ℕ) (r : RelaRange) (i : ℕ)
    (w : World) : World → Prop
  | skip (rela : Elf64Rela) (hrela : f.elf64Rela (r.entryOff i) = some rela)
      (hrel : rela.isRelative arch = false) : Relocated arch f loadBase delta r i w w
  | write (rela : Elf64Rela) (p : PageEntry) (hrela : f.elf64Rela (r.entryOff i) = some rela)
      (hrel : rela.isRelative arch = true)
      (hp : w.entry (rela.target delta - rela.target delta % pageSize) = some p) :
      Relocated arch f loadBase delta r i w (w.relocated loadBase delta rela p)

section

variable {arch : Arch} {env : Env} {f : File} {loadBase delta : ℕ} {r : RelaRange} {i : ℕ}
  {w w' : World}

/-- A relocation is applied, or the machine is left as it is. -/
theorem relocate_spec :
    wp (relocate arch env f loadBase delta r i)
      (fun _ w' => Relocated arch f loadBase delta r i w w') (fun _ w' => w' = w) w := by
  have hpage : ∀ rela : Elf64Rela, pageAlignDown (rela.target delta) =
      rela.target delta - rela.target delta % pageSize :=
    fun rela => pageAlignDown_eq (Nat.mod_lt _ (by decide))
  simp only [relocate, wp_bind, wp_ite, wp_throw]
  refine ⟨fun _ => trivial, fun _ => ?_⟩
  split
  · exact wp_throw.2 rfl
  · rename_i rela hrela
    simp only [hpage, wp_ite, wp_bind, wp_get, wp_pure]
    refine ⟨fun hrel => ?_, fun hrel => .skip rela hrela (by simpa using hrel)⟩
    split
    · exact wp_throw.2 rfl
    · rename_i p hp
      have hoff : rela.target delta - (rela.target delta - rela.target delta % pageSize) =
          rela.target delta % pageSize := Nat.sub_sub_self (Nat.mod_le _ _)
      simp only [writeToPage, updateWord, hoff, wp_bind, wp_ite, wp_pure, wp_throw, wp_modify]
      refine ⟨fun hmap => ⟨fun _ => trivial, fun h => absurd hmap h⟩,
        fun _ => ⟨fun _ => ?_, fun _ => trivial⟩⟩
      exact ⟨fun h => absurd rfl h, fun _ => .write rela p hrela hrel hp⟩

theorem Relocated.sameMaps (h : Relocated arch f loadBase delta r i w w') : w.SameMaps w' := by
  cases h with
  | skip => exact .refl w
  | write => exact ⟨rfl, rfl, rfl⟩

/-- Relocations change neither the table, nor the mappings of the child. -/
theorem applyRelocations_sameMaps :
    Within World.SameMaps (applyRelocations arch env f loadBase plan) := by
  unfold applyRelocations
  split
  · exact .throw
  · exact .pure
  · refine .forM fun i _ w₁ => ?_
    exact wp_mono relocate_spec (fun _ _ h => h.sameMaps) fun _ _ h => h ▸ .refl w₁

/-- Every mapping asked for is on a page of the plan, and not both writable and
    executable. -/
def ElfMaps (arch : Arch) (f : File) (loadBase : ℕ) (w : World) : Prop :=
  ∀ v frame flags, LoadEvent.map v frame flags ∈ w.log →
    ∃ plan, elfPlan arch f loadBase = .ok plan ∧
      (∃ it ∈ elfItems plan.phs plan.delta, it.page = v) ∧ ¬WritableExecutable flags

/-- A load lays the items of its plan. One that stops has mapped pages of these items
    only. -/
theorem elfLoad_spec (hw : w.Start) :
    wp (elfLoad arch env f loadBase)
      (fun res w' => ∃ plan, elfPlan arch f loadBase = .ok plan ∧
        Laid env f (elfItems plan.phs plan.delta) w' ∧ res.brk = elfBrk plan.phs plan.delta)
      (fun _ w' => ElfMaps arch f loadBase w') w := by
  rw [elfLoad, wp_bind, wp_elfLoadSegments]
  split
  · exact fun v frame flags hev => by simp [hw.log_nil] at hev
  · rename_i plan hplan
    have hmaps : ∀ w', MapsWithin (elfItems plan.phs plan.delta) w' → ElfMaps arch f loadBase w' :=
      fun w' h v frame flags hev => ⟨plan, hplan, h v frame flags hev⟩
    refine wp_mono (placePages_laid hw.reset) (fun _ w₁ hlaid => ?_) fun _ w₁ h => hmaps w₁ h
    simp only [wp_bind, wp_ite, wp_pure]
    refine ⟨fun _ => ?_, fun _ => ⟨plan, hplan, hlaid, rfl⟩⟩
    exact wp_mono (applyRelocations_sameMaps w₁) (fun _ w₂ h => ⟨plan, hplan, hlaid.congr h, rfl⟩)
      fun _ w₂ h => hmaps w₂ (hlaid.congr h).maps

/-- Whatever the kernel answers, a load maps pages of its plan only. -/
theorem elfLoad_maps (hw : w.Start) :
    wp (elfLoad arch env f loadBase)
      (fun res w' => ElfMaps arch f loadBase w' ∧ ∃ plan, elfPlan arch f loadBase = .ok plan ∧
        res.brk = elfBrk plan.phs plan.delta)
      (fun _ w' => ElfMaps arch f loadBase w') w := by
  refine wp_post (elfLoad_spec hw) fun res w' h => ?_
  obtain ⟨plan, hplan, hlaid, hbrk⟩ := h
  exact ⟨fun v frame flags hev => ⟨plan, hplan, hlaid.maps v frame flags hev⟩, plan, hplan, hbrk⟩

end

end Trona
