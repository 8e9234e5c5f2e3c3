import Trona.Loader.Elf
import Trona.Substrate.Layout

/-!
# The ELF loader stays in its window

The address layout of a child reserves `elf_compute_load_span` bytes for its
executable. The span rounds the addresses of the file, the loader those at run time;
`elfLoad_window` says that the second stay inside the first, for every
position-independent file and whatever the kernel answers.
-/

namespace Trona

section

variable {arch : Arch} {env : Env} {f : File} {loadBase span : ℕ} {w : World} {ehdr : Elf64Ehdr}
  {phs : List Elf64Phdr}

/-- The segment is moved as a whole: its pages and its end are in the window. -/
theorem segment_in_window {ph : Elf64Phdr} {lo hi : ℕ} (hle : lo ≤ ph.pVaddr)
    (hend : ph.pVaddr + ph.pMemsz ≤ hi) (hhi : hi + 4095 < 2 ^ 64) (halign : loadBase % 4096 = 0)
    (hspan : span = pageAlignUp hi - pageAlignDown lo) (hwin : loadBase + span < 2 ^ 64) :
    loadBase ≤ ph.segStart (wsub loadBase lo) ∧
      ph.segEnd (wsub loadBase lo) ≤ loadBase + span := by
  rw [pageAlignDown_eq (by omega), pageAlignUp_eq, Nat.mod_eq_of_lt (show hi + 4095 < _ by omega)]
    at hspan
  have hseg : ph.segVaddr (wsub loadBase lo) = loadBase + (ph.pVaddr - lo) := by
    unfold Elf64Phdr.segVaddr wsub
    omega
  rw [ph.segStart_eq, Elf64Phdr.segEnd, pageAlignUp_eq, hseg]
  omega

/-- The span of a file that has a segment and whose segments do not leave the address
    space. -/
theorem elfComputeLoadSpan_eq (hehdr : f.elf64Ehdr 0 = some ehdr) (helf : ehdr.isElf = true)
    (hphs : phdrs f ehdr = some phs) {ph : Elf64Phdr} (hph : ph ∈ phs) (hl : ph.isLoad = true)
    (hno : ∀ ph ∈ phs, ph.isLoad = true → ph.pVaddr + ph.pMemsz + 4095 < 2 ^ 64)
    (hspan : elfComputeLoadSpan f = some span) :
    maxVaddrEnd phs + 4095 < 2 ^ 64 ∧
      span = pageAlignUp (maxVaddrEnd phs) - pageAlignDown (minVaddr phs) := by
  have hmin := minVaddr_le hph hl
  have hle := le_maxVaddrEnd hph hl
  have hpno := hno ph hph hl
  have hmax : maxVaddrEnd phs ≤ 2 ^ 64 - 4096 := by
    refine foldMax_le.2 ⟨Nat.zero_le _, fun ph' hph' => ?_⟩
    obtain ⟨hph', hl'⟩ := List.mem_filter.1 hph'
    have := hno ph' hph' hl'
    omega
  simp only [elfComputeLoadSpan, hehdr, helf, hphs, Bool.not_true] at hspan
  rw [if_neg (by simp)] at hspan
  have hup := pageAlignUp_eq (maxVaddrEnd phs)
  have hdown := pageAlignDown_eq (minVaddr_lt phs)
  split_ifs at hspan with h
  · obtain rfl := Option.some.inj hspan
    omega
  · rw [← Option.some.inj hspan, wsub_eq] <;> omega

/-- For every position-independent file whose segments, rounded to pages, do not leave the
    address space, loaded at a page boundary into a window that does not either: every
    page that is mapped is in the window of the file's span, and so is the end of the
    segments. In the layout for this span the window is the region of the code. -/
theorem elfLoad_window (hw : w.Start) (hehdr : f.elf64Ehdr 0 = some ehdr)
    (hdyn : ehdr.eType = etDyn) (hphs : phdrs f ehdr = some phs)
    (hno : ∀ ph ∈ phs, ph.isLoad = true → ph.pVaddr + ph.pMemsz + 4095 < 2 ^ 64)
    (hspan : elfComputeLoadSpan f = some span) (halign : loadBase % pageSize = 0)
    (hwin : loadBase + span < 2 ^ 64) :
    wp (elfLoad arch env f loadBase)
      (fun res w' => MapsInWindow loadBase span w' ∧ res.brk ≤ loadBase + span)
      (fun _ w' => MapsInWindow loadBase span w') w ∧
    ∀ rtldSpan libPages mapInitrd initrdSize,
      let region := (computeVmLayout ⟨span, rtldSpan, libPages, mapInitrd, initrdSize⟩).elfCode
      loadBase = region.base →
        wp (elfLoad arch env f loadBase) (fun _ w' => MapsInWindow region.base region.size w')
          (fun _ w' => MapsInWindow region.base region.size w') w := by
  have hsegs : ∀ plan, elfPlan arch f loadBase = .ok plan →
      ∀ ph ∈ plan.phs, ph.isLoad = true →
        loadBase ≤ ph.segStart plan.delta ∧ ph.segEnd plan.delta ≤ loadBase + span := by
    intro plan hplan ph hph hl
    obtain ⟨hheader, htable, -, hdelta, -, -⟩ := elfPlan_ok hplan
    obtain ⟨hehdr', helf⟩ := elfHeader_ok hheader
    obtain rfl := Option.some.inj (hehdr.symm.trans hehdr')
    obtain rfl := Option.some.inj (hphs.symm.trans htable)
    rw [if_pos hdyn] at hdelta
    obtain ⟨hmax, hspan⟩ := elfComputeLoadSpan_eq hehdr helf hphs hph hl hno hspan
    have hend := le_maxVaddrEnd hph hl
    have hpno := hno ph hph hl
    rw [Nat.mod_eq_of_lt (by omega)] at hend
    rw [hdelta]
    exact segment_in_window (minVaddr_le hph hl) hend hmax halign hspan hwin
  have hmaps : ∀ w', ElfMaps arch f loadBase w' → MapsInWindow loadBase span w' := by
    intro w' h v frame flags hev
    obtain ⟨plan, hplan, ⟨it, hit, rfl⟩, -⟩ := h v frame flags hev
    obtain ⟨ph, i, v, hi, hv, rfl⟩ := mem_elfItems.1 hit
    obtain ⟨hph, hl⟩ := mem_of_mem_loads hi
    obtain ⟨hlo, hhi⟩ := hsegs plan hplan ph hph hl
    obtain ⟨hal, hv₁, hv₂⟩ := Elf64Phdr.mem_segPages.1 hv
    have hal' : ph.segEnd plan.delta % 4096 = 0 := ph.segEnd_aligned plan.delta
    change loadBase ≤ v ∧ v + 4096 ≤ loadBase + span
    omega
  have hload : wp (elfLoad arch env f loadBase)
      (fun res w' => MapsInWindow loadBase span w' ∧ res.brk ≤ loadBase + span)
      (fun _ w' => MapsInWindow loadBase span w') w := by
    refine wp_mono (elfLoad_maps hw) (fun res w' h => ⟨hmaps w' h.1, ?_⟩) fun _ w' h => hmaps w' h
    obtain ⟨-, plan, hplan, hbrk⟩ := h
    rw [hbrk]
    refine foldMax_le.2 ⟨Nat.zero_le _, fun ph hph => ?_⟩
    obtain ⟨hph, hl⟩ := List.mem_filter.1 hph
    exact (hsegs plan hplan ph hph hl).2
  refine ⟨hload, fun rtldSpan libPages mapInitrd initrdSize hbase => ?_⟩
  -- The planned region is the span, rounded up.
  have hregion : ∀ w', MapsInWindow loadBase span w' →
      MapsInWindow elfCodeBase (pageAlignUp span) w' := by
    intro w' h v frame flags hev
    obtain ⟨hlo, hhi⟩ := h v frame flags hev
    have hup := pageAlignUp_eq span
    have hbase' : loadBase = 0x210000 := hbase
    simp only [elfCodeBase]
    omega
  exact wp_mono hload (fun _ w' h => hregion w' h.1) fun _ w' h => hregion w' h

end

/-- A position-independent file with one segment, which is not at a page boundary. -/
def unalignedSegment : File where
  bytes := ehdrBytes etDyn 1 ++ phdrBytes ptLoad 5 0 0x1F80 120 0x1000
  length_lt := by simp [ehdrBytes, phdrBytes, wordBytes]

/-- The plan for the file with one segment. -/
def unalignedSegmentPlan : ElfPlan :=
  resultOf (elfPlan .x86_64 unalignedSegment 0x210000) (by decide +kernel)

theorem elfLoad_window_unalignedSegment :
    wp (elfLoad .x86_64 Env.quiet unalignedSegment 0x210000)
      (fun res w' => MapsInWindow 0x210000 0x2000 w' ∧ res.brk ≤ 0x210000 + 0x2000)
      (fun _ w' => MapsInWindow 0x210000 0x2000 w') World.initial ∧
    wp (elfLoad .x86_64 Env.quiet unalignedSegment 0x210000)
      (fun _ w' => MapsInWindow (computeVmLayout ⟨0x2000, 0, 0, false, 0⟩).elfCode.base
        (computeVmLayout ⟨0x2000, 0, 0, false, 0⟩).elfCode.size w')
      (fun _ w' => MapsInWindow (computeVmLayout ⟨0x2000, 0, 0, false, 0⟩).elfCode.base
        (computeVmLayout ⟨0x2000, 0, 0, false, 0⟩).elfCode.size w') World.initial := by
  have hplan : elfPlan .x86_64 unalignedSegment 0x210000 = .ok unalignedSegmentPlan :=
    eq_ok_resultOf _
  have hspan : elfComputeLoadSpan unalignedSegment = some 0x2000 := by decide +kernel
  have halign : 0x210000 % pageSize = 0 := by decide +kernel
  have h := @elfLoad_window .x86_64 Env.quiet _ _ _ _ _ _ World.initial_start
    (elfHeader_ok (elfPlan_ok hplan).1).1 (by decide +kernel) (elfPlan_ok hplan).2.1
    (by decide +kernel) hspan halign (by decide +kernel)
  exact ⟨h.1, h.2 0 0 false 0 rfl⟩

end Trona
