import Mathlib.Data.List.Pairwise
import Trona.Loader.PeWindow

/-!
# The image of a PE file

The loops of `pe_load` over the headers and over the sections make the image that the
section table describes, before any relocation: `peLoadSections_image`.

Every page of a well-formed file has one item, of the headers or of one section
(`PeWellFormed.item_unique`). What the item copies is then all that the page has.
-/

namespace Trona

namespace SectionHeader

variable (sec : SectionHeader)

/-- The section is skipped by the loader. -/
def isDiscardable : Bool := sec.characteristics &&& imageScnMemDiscardable ≠ 0

/-- The end of the last page of a section that starts at a page boundary, relative to the
    image. -/
def rvaEnd : ℕ := sec.virtualAddress + pageAlignUp sec.virtualSize

/-- The page ranges of two sections are disjoint. -/
def PagesApart (a b : SectionHeader) : Prop :=
  a.rvaEnd ≤ b.virtualAddress ∨ b.rvaEnd ≤ a.virtualAddress

instance (a b : SectionHeader) : Decidable (a.PagesApart b) := inferInstanceAs (Decidable (_ ∨ _))

theorem rvaEnd_eq : sec.rvaEnd =
    sec.virtualAddress + (sec.virtualSize + 4095 - (sec.virtualSize + 4095) % 4096) := by
  have hlt := sec.virtualSize_lt
  rw [rvaEnd, pageAlignUp_eq, Nat.mod_eq_of_lt (by omega)]

end SectionHeader

/-- A well-formed PE32+ file, to be loaded at `loadBase`: its headers and the raw data of its
    sections are in the file, its sections are not empty and start at page boundaries, their
    pages are disjoint and above those of the headers, there are not too many of them, and
    none leaves the address space. Of sections, only those that are not discardable count. -/
structure PeWellFormed (arch : Arch) (f : File) (loadBase : ℕ) (info : PeInfo) : Prop where
  plan : pePlan arch f = .ok info
  headers_in_file : info.sizeOfHeaders ≤ f.size
  nonempty : ∀ sec ∈ peSections f info, sec.isDiscardable = false → 0 < sec.virtualSize
  aligned : ∀ sec ∈ peSections f info, sec.isDiscardable = false →
    sec.virtualAddress % pageSize = 0
  in_file : ∀ sec ∈ peSections f info, sec.isDiscardable = false →
    sec.pointerToRawData + sec.sizeOfRawData ≤ f.size
  above_headers : ∀ sec ∈ peSections f info, sec.isDiscardable = false →
    info.headersEnd ≤ sec.virtualAddress
  apart : ((peSections f info).filter (!·.isDiscardable)).Pairwise SectionHeader.PagesApart
  base_aligned : loadBase % pageSize = 0
  headers_no_overflow : loadBase + info.headersEnd < 2 ^ 64
  no_overflow : ∀ sec ∈ peSections f info, sec.isDiscardable = false →
    loadBase + sec.rvaEnd < 2 ^ 64
  pages_le : (peItems f info loadBase).length ≤ maxPePages

section

variable {arch : Arch} {env : Env} {f : File} {loadBase : ℕ} {info : PeInfo} {w : World}
  {sec sec' : SectionHeader} {i i' v : ℕ}

/-- A page of the headers has the bytes of the file from its start on. -/
theorem headerItem_backs (hv : loadBase ≤ v) (hlt : v < 2 ^ 64) :
    (headerItem f loadBase v).Backs loadBase f.size 0 where
  len_eq := by
    simp only [headerItem, pageSize]
    omega
  dst_eq _ := by
    simp only [headerItem]
    omega
  src_eq _ := by
    simp only [headerItem]
    omega

namespace PeWellFormed

variable (hwf : PeWellFormed arch f loadBase info)

include hwf

theorem loadBase_lt : loadBase < 2 ^ 64 := by
  have := hwf.headers_no_overflow
  omega

/-- The sections that are loaded are those that are not discardable, as they are not
    empty. -/
theorem isLoaded_eq (hsec : sec ∈ peSections f info) : sec.isLoaded = !sec.isDiscardable := by
  have hdisc : sec.isDiscardable = !(sec.characteristics &&& imageScnMemDiscardable = 0) := by
    simp [SectionHeader.isDiscardable]
  by_cases hd : sec.isDiscardable = false
  · have hpos := hwf.nonempty sec hsec hd
    have hvsize : sec.vsize ≠ 0 := by
      rw [SectionHeader.vsize, if_pos hpos]
      omega
    rw [SectionHeader.isLoaded, decide_eq_true hvsize, Bool.and_true, hdisc, Bool.not_not]
  · rw [SectionHeader.isLoaded]
    simp_all

theorem mem_loadedSections_iff : (sec, i) ∈ loadedSections f info ↔
    (peSections f info)[i]? = some sec ∧ sec.isDiscardable = false := by
  rw [mem_loadedSections]
  refine and_congr_right fun hget => ?_
  rw [hwf.isLoaded_eq (List.mem_of_getElem? hget), Bool.not_eq_true']

/-- The pages of a section, by its own addresses. -/
theorem mem_pages_iff (hl : (sec, i) ∈ loadedSections f info) : v ∈ sec.pages loadBase ↔
    v % 4096 = 0 ∧ loadBase + sec.virtualAddress ≤ v ∧ v < loadBase + sec.rvaEnd := by
  obtain ⟨hget, hdisc⟩ := hwf.mem_loadedSections_iff.1 hl
  have hmem : sec ∈ peSections f info := List.mem_of_getElem? hget
  have hpos := hwf.nonempty sec hmem hdisc
  have hal := hwf.aligned sec hmem hdisc
  have hno := hwf.no_overflow sec hmem hdisc
  have hbase := hwf.base_aligned
  have hend := sec.rvaEnd_eq
  have hvsize : sec.vsize = sec.virtualSize := if_pos hpos
  simp only [pageSize] at hal hbase
  rw [SectionHeader.mem_pages, sec.pageStart_eq, sec.pageEnd_eq, hvsize,
    SectionHeader.vaddrStart]
  omega

theorem mem_headerPages_iff : v ∈ headerPages info loadBase ↔
    v % 4096 = 0 ∧ loadBase ≤ v ∧ v < loadBase + info.headersEnd := by
  have hbase := hwf.base_aligned
  have hno := hwf.headers_no_overflow
  have hend := headersEnd_eq info
  simp only [pageSize] at hbase
  rw [headerPages, Nat.mod_eq_of_lt hno]
  exact mem_pageRange hbase (by omega)

/-- No two sections have a page in common. -/
theorem section_unique (hl : (sec, i) ∈ loadedSections f info)
    (hl' : (sec', i') ∈ loadedSections f info) (hv : v ∈ sec.pages loadBase)
    (hv' : v ∈ sec'.pages loadBase) : sec' = sec ∧ i' = i := by
  obtain ⟨-, hlo, hhi⟩ := (hwf.mem_pages_iff hl).1 hv
  obtain ⟨-, hlo', hhi'⟩ := (hwf.mem_pages_iff hl').1 hv'
  have hloaded : (peSections f info).filter SectionHeader.isLoaded =
      (peSections f info).filter (!·.isDiscardable) :=
    List.filter_congr fun sec hsec => by rw [hwf.isLoaded_eq hsec]
  have hapart := hwf.apart
  rw [← hloaded, ← filter_zipIdx_map_fst, List.pairwise_map] at hapart
  have hsymm : Std.Symm fun a b : SectionHeader × ℕ => a.1.PagesApart b.1 :=
    ⟨fun _ _ h => h.symm⟩
  by_contra hne
  have hdiff : (sec, i) ≠ (sec', i') := fun h =>
    hne ⟨(congrArg Prod.fst h).symm, (congrArg Prod.snd h).symm⟩
  rcases hapart.forall hl hl' hdiff with h | h
  · simp only at h
    omega
  · simp only at h
    omega

/-- The item of a page of a section copies what the page has of the raw data. -/
theorem section_backs (hl : (sec, i) ∈ loadedSections f info) (hv : v ∈ sec.pages loadBase) :
    (sec.item loadBase i v).Backs (loadBase + sec.virtualAddress) sec.sizeOfRawData
      sec.pointerToRawData := by
  obtain ⟨hget, hdisc⟩ := hwf.mem_loadedSections_iff.1 hl
  have hmem : sec ∈ peSections f info := List.mem_of_getElem? hget
  have hal := hwf.aligned sec hmem hdisc
  have hno := hwf.no_overflow sec hmem hdisc
  have hbase := hwf.base_aligned
  have hend := sec.rvaEnd_eq
  simp only [pageSize] at hal hbase
  have hstart : sec.vaddrStart loadBase = loadBase + sec.virtualAddress :=
    Nat.mod_eq_of_lt (by omega)
  have hbacks := SectionHeader.item_backs i hwf.loadBase_lt hv (by omega)
  rwa [hstart] at hbacks

/-- Every page has one item. -/
theorem item_unique {it it' : PlaceItem} (hit : it ∈ peItems f info loadBase)
    (hit' : it' ∈ peItems f info loadBase) (hpage : it'.page = it.page) : it' = it := by
  -- The pages of the headers are below those of every section.
  have hbelow : ∀ {sec i v v'}, (sec, i) ∈ loadedSections f info → v ∈ headerPages info loadBase →
      v' ∈ sec.pages loadBase → v < v' := by
    intro sec i v v' hl hv hv'
    obtain ⟨hget, hdisc⟩ := hwf.mem_loadedSections_iff.1 hl
    have habove := hwf.above_headers sec (List.mem_of_getElem? hget) hdisc
    have hv := hwf.mem_headerPages_iff.1 hv
    have hv' := (hwf.mem_pages_iff hl).1 hv'
    omega
  rcases mem_peItems.1 hit with ⟨v, hv, rfl⟩ | ⟨sec, i, v, hl, hv, rfl⟩
  · rcases mem_peItems.1 hit' with ⟨v', -, rfl⟩ | ⟨sec', i', v', hl', hv', rfl⟩
    · rw [show v' = v from hpage]
    · exact absurd hpage (hbelow hl' hv hv').ne'
  · rcases mem_peItems.1 hit' with ⟨v', hv', rfl⟩ | ⟨sec', i', v', hl', hv', rfl⟩
    · exact absurd hpage (hbelow hl hv' hv).ne
    · obtain rfl : v' = v := hpage
      obtain ⟨rfl, rfl⟩ := hwf.section_unique hl hl' hv hv'
      rfl

/-- What an item copies is in the file. -/
theorem items_in_file {it : PlaceItem} (hit : it ∈ peItems f info loadBase) :
    ∃ start size off, it.Backs start size off ∧ off + size ≤ f.size := by
  rcases mem_peItems.1 hit with ⟨v, hv, rfl⟩ | ⟨sec, i, v, hl, hv, rfl⟩
  · obtain ⟨-, hlo, hhi⟩ := hwf.mem_headerPages_iff.1 hv
    have hno := hwf.headers_no_overflow
    exact ⟨_, _, _, headerItem_backs hlo (by omega), by omega⟩
  · obtain ⟨hget, hdisc⟩ := hwf.mem_loadedSections_iff.1 hl
    have hmem : sec ∈ peSections f info := List.mem_of_getElem? hget
    exact ⟨_, _, _, hwf.section_backs hl hv, hwf.in_file sec hmem hdisc⟩

/-- With all calls succeeding, the loops lay their items. -/
theorem peLoadSections_succeeds (hs : env.Succeeds) (hfresh : env.FreshFrames) (hw : w.Start)
    (hcounter : env.allocFrameSlot = none →
      w.nextFrameSlot ≠ 0 ∧ w.nextFrameSlot + maxPePages < 2 ^ 64) :
    wp (peLoadSections arch env f loadBase)
      (fun info' w' => info' = info ∧ Laid env f (peItems f info loadBase) w' ∧
        Refines env f (peItems f info loadBase) w') (fun _ _ => False) w := by
  have hle := hwf.pages_le
  have hfile : ∀ it ∈ peItems f info loadBase, it.Copies f → it.src + it.len ≤ f.size := by
    intro it hit hc
    obtain ⟨start, size, off, hbacks, hin⟩ := hwf.items_in_file hit
    exact hbacks.src_add_len_le hin hc.1
  rw [wp_peLoadSections, hwf.plan]
  refine wp_mono (wp_and (wp_and (placePages_laid hw.reset)
    (placePages_refines hw.reset hfresh (peItems_inOrder _ _ _).sites_nodup))
    (placePages_succeeds hw.reset hs hfile hle fun h => ?_))
    (fun _ _ h => ⟨rfl, h.1⟩) fun _ _ h => h.2
  have := hcounter h
  exact ⟨this.1, by simp only; omega⟩

/-- The byte of the child on the page of an item. -/
theorem childByte_eq {it : PlaceItem} {start size off a : ℕ} (hs : env.Succeeds)
    (hlaid : Laid env f (peItems f info loadBase) w)
    (href : Refines env f (peItems f info loadBase) w) (hit : it ∈ peItems f info loadBase)
    (hbacks : it.Backs start size off) (hfile : off + size ≤ f.size)
    (hpage : it.page = a - a % 4096) (hlo : start ≤ a) :
    w.childByte a = some (if a < start + size then f.byte (off + (a - start)) else 0) := by
  have ha : it.page + a % 4096 = a := by
    omega
  have hmem : (w.entry (a - a % pageSize)).isSome = true := (hlaid.mem _).2 ⟨it, hit, hpage⟩
  have hsome : ((peItems f info loadBase).foldl (Image.place env f) (fun _ => none)
      it.page).isSome = true := image_isSome.2 ⟨it, hit, rfl⟩
  obtain ⟨p, hp⟩ := Option.isSome_iff_exists.1 hsome
  have hbyte := hbacks.image_byte hfile hs.mapScratch hit
    (fun it' hit' h => hwf.item_unique hit hit' h) (Nat.mod_lt a (by decide)) (by omega) hp
  rw [ha] at hbyte
  rw [hlaid.inSync.childByte_eq hmem, href.image_eq, pageSize, ← hpage, hp, Option.map_some, hbyte]

end PeWellFormed

/-- The image of a PE file. For every well-formed file, when all calls succeed and every frame
    is given out once, the loops over the headers and the sections end, and before any
    relocation the child has

    * every byte of every section that is not discardable: the raw byte of the file, or zero
      past the raw data, and
    * the headers of the file, up to their size. -/
theorem peLoadSections_image (hwf : PeWellFormed arch f loadBase info) (hs : env.Succeeds)
    (hfresh : env.FreshFrames) (hw : w.Start)
    (hcounter : env.allocFrameSlot = none →
      w.nextFrameSlot ≠ 0 ∧ w.nextFrameSlot + maxPePages < 2 ^ 64) :
    ∃ w', (peLoadSections arch env f loadBase).run w = .ok info w' ∧
      (∀ sec ∈ peSections f info, sec.isDiscardable = false → ∀ k < sec.virtualSize,
        w'.childByte (loadBase + sec.virtualAddress + k) =
          some (if k < sec.sizeOfRawData then f.byte (sec.pointerToRawData + k) else 0)) ∧
      ∀ k < info.sizeOfHeaders, w'.childByte (loadBase + k) = some (f.byte k) := by
  obtain ⟨info', w', hrun, rfl, hlaid, href⟩ :=
    wp_exists_ok (hwf.peLoadSections_succeeds hs hfresh hw hcounter)
  refine ⟨w', hrun, fun sec hsec hdisc k hk => ?_, fun k hk => ?_⟩
  · obtain ⟨i, hi⟩ := List.getElem?_of_mem hsec
    have hl : (sec, i) ∈ loadedSections f info' := hwf.mem_loadedSections_iff.2 ⟨hi, hdisc⟩
    have hend := sec.rvaEnd_eq
    have hal := hwf.aligned sec hsec hdisc
    have hbase := hwf.base_aligned
    simp only [pageSize] at hal hbase
    generalize ha : loadBase + sec.virtualAddress + k = a
    have hv : a - a % 4096 ∈ sec.pages loadBase := by
      rw [hwf.mem_pages_iff hl]
      omega
    rw [hwf.childByte_eq hs hlaid href (mem_peItems.2 (.inr ⟨sec, i, _, hl, hv, rfl⟩))
      (hwf.section_backs hl hv) (hwf.in_file sec hsec hdisc) rfl (by omega)]
    rw [show a - (loadBase + sec.virtualAddress) = k by omega]
    exact congrArg some (if_congr (by omega) rfl rfl)
  · have hend := headersEnd_eq info'
    have hno := hwf.headers_no_overflow
    have hfile := hwf.headers_in_file
    have hbase := hwf.base_aligned
    simp only [pageSize] at hbase
    generalize ha : loadBase + k = a
    have hv : a - a % 4096 ∈ headerPages info' loadBase := by
      rw [hwf.mem_headerPages_iff]
      omega
    rw [hwf.childByte_eq hs hlaid href (mem_peItems.2 (.inl ⟨_, hv, rfl⟩))
      (headerItem_backs (by omega) (by omega)) (by omega) rfl (by omega), if_pos (by omega)]
    rw [show 0 + (a - loadBase) = k by omega]

end

/-- A PE file with two sections, the second with uninitialised data at its end. -/
def twoPeSections : File where
  bytes := peHeaderBytes 2 0x400000 0x3000 280 ++
    sectionBytes 16 0x1000 16 280 0x60000000 ++ sectionBytes 24 0x2000 8 296 0xC0000000 ++
    wordBytes 16 0x1122334455667788 ++ wordBytes 8 0x99AABBCC
  length_lt := by simp [peHeaderBytes, coffBytes, optionalBytes, sectionBytes]

/-- What the checks read from the file with two sections. -/
def twoPeInfo : PeInfo := resultOf (pePlan .x86_64 twoPeSections) (by decide +kernel)

theorem twoPeSections_wellFormed : PeWellFormed .x86_64 twoPeSections 0x500000 twoPeInfo := by
  refine ⟨eq_ok_resultOf _, ?_, ?_, ?_, ?_, ?_, ?_, ?_, ?_, ?_, ?_⟩ <;> decide +kernel

theorem peLoadSections_image_twoPeSections :
    ∃ w', (peLoadSections .x86_64 Env.quiet twoPeSections 0x500000).run World.initial =
        .ok twoPeInfo w' ∧
      (∀ sec ∈ peSections twoPeSections twoPeInfo, sec.isDiscardable = false →
        ∀ k < sec.virtualSize, w'.childByte (0x500000 + sec.virtualAddress + k) =
          some (if k < sec.sizeOfRawData then twoPeSections.byte (sec.pointerToRawData + k)
            else 0)) ∧
      ∀ k < twoPeInfo.sizeOfHeaders, w'.childByte (0x500000 + k) = some (twoPeSections.byte k) :=
  peLoadSections_image twoPeSections_wellFormed Env.quiet_succeeds Env.quiet_freshFrames
    World.initial_start fun _ => by decide

end Trona
