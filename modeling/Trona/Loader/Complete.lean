import Trona.Loader.ElfImage
import Trona.Loader.Pe

/-!
# Is the whole file copied?

A load that returns success should have gone through all headers that the file announces,
and have copied all bytes that the file has for its segments or sections (`ElfCopied`,
`PeCopied`). Both loaders go on where they should stop: at a header or at data that is not
in the file, at an address that wraps, and where the scratch mapping of a shared page
fails. `loads_complete_iff` says that these are the only ways to lose something.
-/

namespace Trona

/-! ## ELF -/

/-- The number of bytes of a segment that are in the file. -/
def Elf64Phdr.backed (ph : Elf64Phdr) : ℕ := min ph.pFilesz ph.pMemsz

/-- All headers were gone through, and all bytes that the file has for a segment were
    copied. -/
structure ElfCopied (f : File) (plan : ElfPlan) (w : World) : Prop where
  headers : ∀ i < plan.ehdr.ePhnum,
    plan.ehdr.ePhoff + i * plan.ehdr.ePhentsize + 56 ≤ f.size ∧
      plan.phs[i]? = f.elf64Phdr (plan.ehdr.ePhoff + i * plan.ehdr.ePhentsize)
  bytes : ∀ ph i, (ph, i) ∈ loads plan.phs → ∀ k < ph.backed,
    CopiedFor w i ((ph.pVaddr + plan.delta + k) % 2 ^ 64) (ph.pOffset + k)

/-- When nothing of an ELF file is lost: its headers are in the file. So is what it has for
    a segment, up to the end of the last page, and the segment does not wrap. Where a page
    with bytes of the file is shared with an earlier segment, the frame of the page can be
    mapped at the scratch address. -/
structure ElfComplete (env : Env) (f : File) (plan : ElfPlan) : Prop where
  headers : ∀ i < plan.ehdr.ePhnum, plan.ehdr.ePhoff + i * plan.ehdr.ePhentsize + 56 ≤ f.size
  data : ∀ ph ∈ plan.phs, ph.isLoad = true → 0 < ph.backed →
    ph.segVaddr plan.delta + ph.pFilesz < 2 ^ 64 ∧
      ph.segVaddr plan.delta + ph.backed ≤ ph.segEnd plan.delta ∧
      ph.pOffset + min ph.pFilesz (pageAlignUp (ph.segVaddr plan.delta + ph.backed) -
        ph.segVaddr plan.delta) ≤ f.size
  scratch : ∀ ph i, (ph, i) ∈ loads plan.phs → ∀ v ∈ ph.segPages plan.delta,
    (∃ k < ph.backed, v ≤ ph.segVaddr plan.delta + k ∧ ph.segVaddr plan.delta + k < v + 4096) →
    (∃ ph' i', (ph', i') ∈ loads plan.phs ∧ i' < i ∧ v ∈ ph'.segPages plan.delta) →
    env.mapScratch (.segment i v) = 0

section Elf

variable {arch : Arch} {env : Env} {f : File} {loadBase : ℕ} {plan : ElfPlan} {ehdr : Elf64Ehdr}
  {ph : Elf64Phdr} {i v : ℕ} {w : World}

/-- The loop over the headers goes through all of them when they are in the file. -/
theorem phdrsFrom_getElem? {todo : ℕ} {phs : List Elf64Phdr}
    (h : phdrsFrom f ehdr todo i = some phs)
    (hin : ∀ n < todo, ehdr.ePhoff + (i + n) * ehdr.ePhentsize + 56 ≤ f.size) {n : ℕ}
    (hn : n < todo) : phs[n]? = f.elf64Phdr (ehdr.ePhoff + (i + n) * ehdr.ePhentsize) := by
  induction todo generalizing i phs n with
  | zero => omega
  | succ todo ih =>
    have hsize := f.size_lt
    have hfirst : ehdr.ePhoff + i * ehdr.ePhentsize + 56 ≤ f.size := by
      simpa using hin 0 (Nat.succ_pos _)
    have hoff : (ehdr.ePhoff + i * ehdr.ePhentsize) % 2 ^ 64 =
        ehdr.ePhoff + i * ehdr.ePhentsize := Nat.mod_eq_of_lt (by omega)
    rw [phdrsFrom, hoff, Nat.mod_eq_of_lt (by omega)] at h
    rw [if_neg (by omega)] at h
    cases hph : f.elf64Phdr (ehdr.ePhoff + i * ehdr.ePhentsize) with
    | none => simp [hph] at h
    | some ph =>
      rw [hph] at h
      obtain ⟨rest, hrest, rfl⟩ := Option.map_eq_some_iff.1 h
      cases n with
      | zero => simpa using hph.symm
      | succ n =>
        have hnext : ∀ m < todo, ehdr.ePhoff + (i + 1 + m) * ehdr.ePhentsize + 56 ≤ f.size := by
          intro m hm
          have := hin (m + 1) (by omega)
          rwa [show i + 1 + m = i + (m + 1) by omega]
        rw [List.getElem?_cons_succ, ih hrest hnext (by omega),
          show i + 1 + n = i + (n + 1) by omega]

theorem elfItem_shared_iff :
    (ph.item plan.delta i v).Shared (elfItems plan.phs plan.delta) ↔
      ∃ ph' i', (ph', i') ∈ loads plan.phs ∧ i' < i ∧ v ∈ ph'.segPages plan.delta := by
  constructor
  · rintro ⟨it, hit, hpage, hrank⟩
    obtain ⟨ph', i', v', hl, hv', rfl⟩ := mem_elfItems.1 hit
    obtain rfl : v' = v := hpage
    exact ⟨ph', i', hl, Nat.lt_of_succ_lt_succ hrank, hv'⟩
  · rintro ⟨ph', i', hl, hlt, hv'⟩
    exact ⟨_, mem_elfItems.2 ⟨ph', i', v, hl, hv', rfl⟩, rfl, Nat.succ_lt_succ hlt⟩

/-- The items of a segment are those with its number. -/
theorem mem_elfItems_segment (hl : (ph, i) ∈ loads plan.phs) (it : PlaceItem) :
    (it ∈ elfItems plan.phs plan.delta ∧ it.site = .segment i it.page) ↔
      ∃ v ∈ ph.segPages plan.delta, ph.item plan.delta i v = it := by
  constructor
  · rintro ⟨hit, hsite⟩
    obtain ⟨ph', i', v, hl', hv, rfl⟩ := mem_elfItems.1 hit
    obtain rfl : i' = i := (Site.segment.inj hsite).1
    obtain rfl := Option.some.inj ((mem_loads.1 hl').1.symm.trans (mem_loads.1 hl).1)
    exact ⟨v, hv, rfl⟩
  · rintro ⟨v, hv, rfl⟩
    exact ⟨mem_elfItems.2 ⟨ph, i, v, hl, hv, rfl⟩, rfl⟩

/-- An item copies what its page has of the segment's part of the file, if that does not
    wrap. -/
theorem Elf64Phdr.item_backs (hd : plan.delta < 2 ^ 64) (hv : v ∈ ph.segPages plan.delta)
    (hno : ph.segVaddr plan.delta + ph.pFilesz < 2 ^ 64) :
    (ph.item plan.delta i v).Backs (ph.segVaddr plan.delta) ph.pFilesz ph.pOffset := by
  obtain ⟨hlen, hpos⟩ := Elf64Phdr.item_spec i hd hv
  rw [Nat.mod_eq_of_lt hno] at hlen
  refine ⟨hlen, fun h => ?_, fun h => (hpos h).2⟩
  rw [(hpos h).1]
  exact Nat.add_sub_cancel' (le_max_left _ _)

/-- When the bytes of a segment are all copied. -/
theorem segment_copied_iff (hd : plan.delta < 2 ^ 64)
    (hlaid : Laid env f (elfItems plan.phs plan.delta) w) (hl : (ph, i) ∈ loads plan.phs) :
    (∀ k < ph.backed, CopiedFor w i ((ph.pVaddr + plan.delta + k) % 2 ^ 64) (ph.pOffset + k)) ↔
    (0 < ph.backed → ph.segVaddr plan.delta + ph.pFilesz < 2 ^ 64 ∧
      ph.segVaddr plan.delta + ph.backed ≤ ph.segEnd plan.delta ∧
      ph.pOffset + min ph.pFilesz (pageAlignUp (ph.segVaddr plan.delta + ph.backed) -
        ph.segVaddr plan.delta) ≤ f.size) ∧
    ∀ v ∈ ph.segPages plan.delta,
      (∃ k < ph.backed, v ≤ ph.segVaddr plan.delta + k ∧
        ph.segVaddr plan.delta + k < v + 4096) →
      (∃ ph' i', (ph', i') ∈ loads plan.phs ∧ i' < i ∧ v ∈ ph'.segPages plan.delta) →
      env.mapScratch (.segment i v) = 0 := by
  have haddr : ∀ k, (ph.pVaddr + plan.delta + k) % 2 ^ 64 =
      (ph.segVaddr plan.delta + k) % 2 ^ 64 := fun k => (Nat.mod_add_mod _ _ _).symm
  have hpages : ph.segPages plan.delta = pageRange
      (ph.segVaddr plan.delta - ph.segVaddr plan.delta % 4096) (ph.segEnd plan.delta) := by
    rw [Elf64Phdr.segPages, ph.segStart_eq]
  simp only [haddr]
  by_cases hno : ph.segVaddr plan.delta + ph.pFilesz < 2 ^ 64
  · have hfin : ph.segEnd plan.delta < 2 ^ 64 :=
      (ph.segEnd_le plan.delta).trans_lt (by decide)
    have hregion := hlaid.region_copied_iff (elfItems_inOrder _ _) (ph.item plan.delta i)
      (ph.segVaddr_lt plan.delta) ph.pFilesz_lt (ph.segEnd_aligned plan.delta) hfin
      (Nat.min_le_left ph.pFilesz ph.pMemsz) (fun _ => rfl) (fun _ => rfl)
      (fun v hv => Elf64Phdr.item_backs hd (hpages ▸ hv) hno)
      (fun it => hpages ▸ mem_elfItems_segment hl it)
    rw [← hpages] at hregion
    simp only [elfItem_shared_iff] at hregion
    simp only [hno, true_and]
    exact hregion
  · -- The part of the file wraps, and no item of the segment copies anything.
    have hnone : ∀ a off, ¬CopiedFor w i a off := by
      intro a off hcopied
      obtain ⟨it, hit, hsite, ⟨hlo, hhi, -⟩, -⟩ :=
        (hlaid.copiedFor_iff (elfItems_inOrder _ _)).1 hcopied
      obtain ⟨v, hv, rfl⟩ := (mem_elfItems_segment hl it).1 ⟨hit, hsite⟩
      have hlen := (Elf64Phdr.item_spec i hd hv).1
      have hv₂ := ph.pFilesz_lt
      omega
    constructor
    · intro h
      have hzero : ¬0 < ph.backed := fun hpos => hnone _ _ (h 0 hpos)
      refine ⟨fun hpos => absurd hpos hzero, fun v _ hbyte => ?_⟩
      omega
    · rintro ⟨hdata, -⟩ k hk
      exact absurd (hdata (by omega)).1 hno

/-- When nothing of an ELF file is lost. -/
theorem elfCopied_iff (hplan : elfPlan arch f loadBase = .ok plan)
    (hlaid : Laid env f (elfItems plan.phs plan.delta) w) :
    ElfCopied f plan w ↔ ElfComplete env f plan := by
  have hd := ElfPlan.delta_lt hplan
  have htable := (elfPlan_ok hplan).2.1
  constructor
  · intro h
    refine ⟨fun i hi => (h.headers i hi).1, fun ph hph hl => ?_, fun ph i hl => ?_⟩
    · obtain ⟨i, hi⟩ := exists_mem_loads hph hl
      exact ((segment_copied_iff hd hlaid hi).1 (h.bytes ph i hi)).1
    · exact ((segment_copied_iff hd hlaid hl).1 (h.bytes ph i hl)).2
  · intro h
    refine ⟨fun i hi => ⟨h.headers i hi, ?_⟩, fun ph i hl => ?_⟩
    · have hin : ∀ n < plan.ehdr.ePhnum,
          plan.ehdr.ePhoff + (0 + n) * plan.ehdr.ePhentsize + 56 ≤ f.size := by
        simpa using h.headers
      simpa using phdrsFrom_getElem? htable hin hi
    · obtain ⟨hph, hload⟩ := mem_of_mem_loads hl
      exact (segment_copied_iff hd hlaid hl).2 ⟨h.data ph hph hload, h.scratch ph i hl⟩

end Elf

/-! ## PE -/

/-- The number of bytes of a section that are in the file. -/
def SectionHeader.backed (sec : SectionHeader) : ℕ := min sec.sizeOfRawData sec.vsize

/-- All headers were gone through, and all bytes that the file has for a loaded section
    were copied. -/
structure PeCopied (f : File) (info : PeInfo) (loadBase : ℕ) (w : World) : Prop where
  headers : ∀ i < info.numberOfSections, info.sectionHeadersOffset + i * 40 + 40 ≤ f.size ∧
    (peSections f info)[i]? = f.sectionHeader (info.sectionHeadersOffset + i * 40)
  bytes : ∀ sec i, (sec, i) ∈ loadedSections f info → ∀ k < sec.backed,
    CopiedFor w i ((loadBase + sec.virtualAddress + k) % 2 ^ 64) (sec.pointerToRawData + k)

/-- When nothing of a PE file is lost: what it has for a section is in the file, up to the
    end of the last page, the section does not wrap, and its first page is not before an
    image that is not at a page boundary. Where a page with bytes of the file is shared with
    the headers or with an earlier section, the frame of the page can be mapped at the
    scratch address. -/
structure PeComplete (env : Env) (f : File) (info : PeInfo) (loadBase : ℕ) : Prop where
  data : ∀ sec i, (sec, i) ∈ loadedSections f info → 0 < sec.backed →
    sec.vaddrStart loadBase % 4096 ≤ sec.virtualAddress ∧
      sec.vaddrStart loadBase + sec.backed ≤ sec.pageEnd loadBase ∧
      sec.pointerToRawData + min sec.sizeOfRawData
        (pageAlignUp (sec.vaddrStart loadBase + sec.backed) - sec.vaddrStart loadBase) ≤ f.size
  scratch : ∀ sec i, (sec, i) ∈ loadedSections f info → ∀ v ∈ sec.pages loadBase,
    (∃ k < sec.backed, v ≤ sec.vaddrStart loadBase + k ∧
      sec.vaddrStart loadBase + k < v + 4096) →
    (v ∈ headerPages info loadBase ∨ ∃ sec' i', (sec', i') ∈ loadedSections f info ∧ i' < i ∧
      v ∈ sec'.pages loadBase) →
    env.mapScratch (.segment i v) = 0

section Pe

variable {arch : Arch} {env : Env} {f : File} {loadBase : ℕ} {info : PeInfo}
  {sec : SectionHeader} {i v : ℕ} {w : World}

theorem peItem_shared_iff : (sec.item loadBase i v).Shared (peItems f info loadBase) ↔
    v ∈ headerPages info loadBase ∨ ∃ sec' i', (sec', i') ∈ loadedSections f info ∧ i' < i ∧
      v ∈ sec'.pages loadBase := by
  constructor
  · rintro ⟨it, hit, hpage, hrank⟩
    rcases mem_peItems.1 hit with ⟨v', hv', rfl⟩ | ⟨sec', i', v', hl, hv', rfl⟩
    · obtain rfl : v' = v := hpage
      exact .inl hv'
    · obtain rfl : v' = v := hpage
      exact .inr ⟨sec', i', hl, Nat.lt_of_succ_lt_succ hrank, hv'⟩
  · rintro (hv' | ⟨sec', i', hl, hlt, hv'⟩)
    · exact ⟨_, mem_peItems.2 (.inl ⟨v, hv', rfl⟩), rfl, Nat.succ_pos i⟩
    · exact ⟨_, mem_peItems.2 (.inr ⟨sec', i', v, hl, hv', rfl⟩), rfl, Nat.succ_lt_succ hlt⟩

/-- The items of a section are those with its number. -/
theorem mem_peItems_section (hl : (sec, i) ∈ loadedSections f info) (it : PlaceItem) :
    (it ∈ peItems f info loadBase ∧ it.site = .segment i it.page) ↔
      ∃ v ∈ sec.pages loadBase, sec.item loadBase i v = it := by
  constructor
  · rintro ⟨hit, hsite⟩
    rcases mem_peItems.1 hit with ⟨v, hv, rfl⟩ | ⟨sec', i', v, hl', hv, rfl⟩
    · cases hsite
    · obtain rfl : i' = i := (Site.segment.inj hsite).1
      obtain rfl := Option.some.inj
        ((mem_loadedSections.1 hl').1.symm.trans (mem_loadedSections.1 hl).1)
      exact ⟨v, hv, rfl⟩
  · rintro ⟨v, hv, rfl⟩
    exact ⟨mem_peItems.2 (.inr ⟨sec, i, v, hl, hv, rfl⟩), rfl⟩

/-- When the bytes of a section are all copied. -/
theorem section_copied_iff (hb : loadBase < 2 ^ 64)
    (hlaid : Laid env f (peItems f info loadBase) w) (hl : (sec, i) ∈ loadedSections f info) :
    (∀ k < sec.backed,
      CopiedFor w i ((loadBase + sec.virtualAddress + k) % 2 ^ 64) (sec.pointerToRawData + k)) ↔
    (0 < sec.backed → sec.vaddrStart loadBase % 4096 ≤ sec.virtualAddress ∧
      sec.vaddrStart loadBase + sec.backed ≤ sec.pageEnd loadBase ∧
      sec.pointerToRawData + min sec.sizeOfRawData
        (pageAlignUp (sec.vaddrStart loadBase + sec.backed) - sec.vaddrStart loadBase) ≤ f.size) ∧
    ∀ v ∈ sec.pages loadBase,
      (∃ k < sec.backed, v ≤ sec.vaddrStart loadBase + k ∧
        sec.vaddrStart loadBase + k < v + 4096) →
      (v ∈ headerPages info loadBase ∨ ∃ sec' i', (sec', i') ∈ loadedSections f info ∧ i' < i ∧
        v ∈ sec'.pages loadBase) →
      env.mapScratch (.segment i v) = 0 := by
  have haddr : ∀ k, (loadBase + sec.virtualAddress + k) % 2 ^ 64 =
      (sec.vaddrStart loadBase + k) % 2 ^ 64 := fun k => (Nat.mod_add_mod _ _ _).symm
  have hpages : sec.pages loadBase = pageRange
      (sec.vaddrStart loadBase - sec.vaddrStart loadBase % 4096) (sec.pageEnd loadBase) := by
    rw [SectionHeader.pages, sec.pageStart_eq]
  have hend := sec.pageEnd_eq loadBase
  have hfin : sec.pageEnd loadBase % 4096 = 0 := by omega
  have hfin' : sec.pageEnd loadBase < 2 ^ 64 := by omega
  simp only [haddr]
  by_cases hlow : sec.vaddrStart loadBase % 4096 ≤ sec.virtualAddress
  · have hregion := hlaid.region_copied_iff (peItems_inOrder _ _ _) (sec.item loadBase i)
      (sec.vaddrStart_lt loadBase) (sec.sizeOfRawData_lt.trans (by decide)) hfin hfin'
      (Nat.min_le_left sec.sizeOfRawData sec.vsize) (fun _ => rfl) (fun _ => rfl)
      (fun v hv => SectionHeader.item_backs i hb (hpages ▸ hv) hlow)
      (fun it => hpages ▸ mem_peItems_section hl it)
    rw [← hpages] at hregion
    simp only [peItem_shared_iff] at hregion
    simp only [hlow, true_and]
    exact hregion
  · -- The first page starts before the image, and its first byte is not copied.
    have hnone : 0 < sec.backed → ¬CopiedFor w i ((sec.vaddrStart loadBase + 0) % 2 ^ 64)
        (sec.pointerToRawData + 0) := by
      intro hpos hcopied
      obtain ⟨it, hit, hsite, ⟨hlo, hhi, -⟩, -⟩ :=
        (hlaid.copiedFor_iff (peItems_inOrder _ _ _)).1 hcopied
      obtain ⟨v, hv, rfl⟩ := (mem_peItems_section hl it).1 ⟨hit, hsite⟩
      have hzero := SectionHeader.item_len_eq_zero i hb (not_le.1 hlow)
      have hfits := (sec.item loadBase i v).fits
      have hstart := sec.pageStart_eq loadBase
      have hpage : (sec.item loadBase i v).page = v := rfl
      obtain ⟨hal, hge, -⟩ := SectionHeader.mem_pages.1 hv
      have hfirst : v = sec.pageStart loadBase := by omega
      rw [hfirst] at hhi hlo
      omega
    constructor
    · intro h
      have hzero : ¬0 < sec.backed := fun hpos => hnone hpos (h 0 hpos)
      refine ⟨fun hpos => absurd hpos hzero, fun v _ hbyte => ?_⟩
      omega
    · rintro ⟨hdata, -⟩ k hk
      exact absurd (hdata (by omega)).1 hlow

/-- When nothing of a PE file is lost. -/
theorem peCopied_iff (hb : loadBase < 2 ^ 64) (hplan : pePlan arch f = .ok info)
    (hlaid : Laid env f (peItems f info loadBase) w) :
    PeCopied f info loadBase w ↔ PeComplete env f info loadBase := by
  have hvalid := pePlan_ok hplan
  have hend := (peValidate_checked hvalid).sections_le
  constructor
  · intro h
    exact ⟨fun sec i hl => ((section_copied_iff hb hlaid hl).1 (h.bytes sec i hl)).1,
      fun sec i hl => ((section_copied_iff hb hlaid hl).1 (h.bytes sec i hl)).2⟩
  · intro h
    refine ⟨fun i hi => ⟨by omega, peSections_getElem? hvalid hi⟩, fun sec i hl => ?_⟩
    exact (section_copied_iff hb hlaid hl).2 ⟨h.data sec i hl, h.scratch sec i hl⟩

end Pe

/-! ## Both loaders -/

/-- Whatever the kernel answers, a load that returns success has gone through all headers
    and copied all bytes that the file has for its segments or sections, if and only if the
    file and the answers are such that nothing is lost. -/
theorem loads_complete_iff {arch : Arch} {env : Env} {f : File} {loadBase : ℕ} {w : World}
    (hw : w.Start) (hb : loadBase < 2 ^ 64) :
    (∀ res w', (elfLoad arch env f loadBase).run w = .ok res w' →
      ∃ plan, elfPlan arch f loadBase = .ok plan ∧
        (ElfCopied f plan w' ↔ ElfComplete env f plan)) ∧
    ∀ res w', (peLoad arch env f loadBase).run w = .ok res w' →
      ∃ info, pePlan arch f = .ok info ∧
        (PeCopied f info loadBase w' ↔ PeComplete env f info loadBase) := by
  refine ⟨fun res w' hrun => ?_, fun res w' hrun => ?_⟩
  · obtain ⟨plan, hplan, hlaid, -⟩ := wp_ok (elfLoad_spec hw) hrun
    exact ⟨plan, hplan, elfCopied_iff hplan hlaid⟩
  · obtain ⟨info, hinfo, hlaid⟩ := wp_ok (peLoad_spec hw) hrun
    exact ⟨info, hinfo, peCopied_iff hb hinfo hlaid⟩

theorem loads_complete_iff_samples :
    (∃ res w', (elfLoad .x86_64 Env.quiet twoSegments 0x210000).run World.initial = .ok res w' ∧
      ElfCopied twoSegments twoSegmentsPlan w') ∧
    ∃ res w',
      (peLoad .x86_64 Env.quiet (onePeSection 0x1000) 0x400000).run World.initial = .ok res w' ∧
      PeCopied (onePeSection 0x1000) onePeInfo 0x400000 w' := by
  constructor
  · have hwp : wp (elfLoad .x86_64 Env.quiet twoSegments 0x210000) (fun _ _ => True)
        (fun _ _ => False) World.initial := by decide +kernel
    obtain ⟨res, w', hrun, -⟩ := wp_exists_ok hwp
    obtain ⟨plan, hplan, hiff⟩ :=
      (loads_complete_iff World.initial_start (by decide)).1 res w' hrun
    have heq : plan = twoSegmentsPlan := Except.ok.inj (hplan.symm.trans (eq_ok_resultOf _))
    rw [heq] at hiff
    refine ⟨res, w', hrun, hiff.2 ⟨?_, ?_, fun _ _ _ _ _ _ _ => rfl⟩⟩
    · decide +kernel
    · decide +kernel
  · have hwp : wp (peLoad .x86_64 Env.quiet (onePeSection 0x1000) 0x400000) (fun _ _ => True)
        (fun _ _ => False) World.initial := by decide +kernel
    obtain ⟨res, w', hrun, -⟩ := wp_exists_ok hwp
    obtain ⟨info, hinfo, hiff⟩ :=
      (loads_complete_iff World.initial_start (by decide)).2 res w' hrun
    have heq : info = onePeInfo := Except.ok.inj (hinfo.symm.trans (eq_ok_resultOf _))
    rw [heq] at hiff
    refine ⟨res, w', hrun, hiff.2 ⟨fun sec i hl => ?_, fun _ _ _ _ _ _ _ => rfl⟩⟩
    have hdata : ∀ s ∈ loadedSections (onePeSection 0x1000) onePeInfo, 0 < s.1.backed →
        s.1.vaddrStart 0x400000 % 4096 ≤ s.1.virtualAddress ∧
          s.1.vaddrStart 0x400000 + s.1.backed ≤ s.1.pageEnd 0x400000 ∧
          s.1.pointerToRawData + min s.1.sizeOfRawData
            (pageAlignUp (s.1.vaddrStart 0x400000 + s.1.backed) - s.1.vaddrStart 0x400000) ≤
              (onePeSection 0x1000).size := by decide +kernel
    exact hdata (sec, i) hl

/-- An executable whose segment is a page, of which the file has the first 120 bytes. -/
def truncatedSegment : File where
  bytes := ehdrBytes etExec 1 ++ phdrBytes ptLoad 5 0 0x400000 4096 4096
  length_lt := by simp [ehdrBytes, phdrBytes, wordBytes]

/-- The plan for the truncated file. -/
def truncatedPlan : ElfPlan :=
  resultOf (elfPlan .x86_64 truncatedSegment 0) (by decide +kernel)

/-- The scratch mapping fails for the page of the second segment. -/
def Env.noScratch : Env :=
  { Env.quiet with mapScratch := fun site => if site = .segment 1 0x210000 then 1 else 0 }

/-- The truncated file is loaded without an error, and none of its bytes is copied. So is
    the file with two segments on one page when the scratch mapping fails for the second
    one, whose bytes are not copied. -/
theorem loads_complete_lost :
    (∃ res w', (elfLoad .x86_64 Env.quiet truncatedSegment 0).run World.initial = .ok res w' ∧
      ¬ElfCopied truncatedSegment truncatedPlan w') ∧
    ∃ res w', (elfLoad .x86_64 Env.noScratch twoSegments 0x210000).run World.initial =
        .ok res w' ∧ ¬ElfCopied twoSegments twoSegmentsPlan w' := by
  constructor
  · have hwp : wp (elfLoad .x86_64 Env.quiet truncatedSegment 0)
        (fun _ w' => w'.log = [.alloc 64, .map 0x400000 64 6]) (fun _ _ => False)
        World.initial := by decide +kernel
    obtain ⟨res, w', hrun, hlog⟩ := wp_exists_ok hwp
    refine ⟨res, w', hrun, fun hcopied => ?_⟩
    have hload : ∃ s ∈ loads truncatedPlan.phs, s.2 = 0 ∧ 0 < s.1.backed := by decide +kernel
    obtain ⟨⟨ph, i⟩, hl, rfl, hpos⟩ := hload
    obtain ⟨v, frame, flags, dst, src, len, hev, -⟩ := hcopied.bytes ph 0 hl 0 hpos
    simp [hlog] at hev
  · have hwp : wp (elfLoad .x86_64 Env.noScratch twoSegments 0x210000)
        (fun _ w' => w'.log = [.alloc 64, .copy (.segment 0 0x210000) 0x210000 64 0 0 176,
          .map 0x210000 64 6, .map 0x210000 64 3]) (fun _ _ => False) World.initial := by
      decide +kernel
    obtain ⟨res, w', hrun, hlog⟩ := wp_exists_ok hwp
    refine ⟨res, w', hrun, fun hcopied => ?_⟩
    have hload : ∃ s ∈ loads twoSegmentsPlan.phs, s.2 = 1 ∧ 0 < s.1.backed := by decide +kernel
    obtain ⟨⟨ph, i⟩, hl, rfl, hpos⟩ := hload
    obtain ⟨v, frame, flags, dst, src, len, hev, -⟩ := hcopied.bytes ph 1 hl 0 hpos
    simp [hlog] at hev

end Trona
