import Trona.Loader.Pe

/-!
# The window of the PE loader

The address range that is reserved for a PE image is the size that its header states. The
loader maps the headers and the sections wherever the file puts them, without a look at
that size: `peLoad_window_iff` says when they are inside.
-/

namespace Trona

section

variable {arch : Arch} {env : Env} {f : File} {info : PeInfo} {loadBase span : ℕ}

theorem headersEnd_eq (info : PeInfo) :
    info.headersEnd = info.sizeOfHeaders + 4095 - (info.sizeOfHeaders + 4095) % 4096 := by
  have hlt := info.sizeOfHeaders_lt
  rw [PeInfo.headersEnd, pageAlignUp_eq, Nat.mod_eq_of_lt (by omega)]

/-- The headers are in the window, unless they are longer than the image. Those whose end
    wraps are not mapped. -/
theorem headers_in_window_iff (halign : loadBase % 4096 = 0) (hwin : loadBase + span < 2 ^ 64) :
    (∀ v ∈ headerPages info loadBase, loadBase ≤ v ∧ v + 4096 ≤ loadBase + span) ↔
      info.headersEnd ≤ span ∨ 2 ^ 64 ≤ loadBase + info.headersEnd := by
  have hlt := info.sizeOfHeaders_lt
  have hend := headersEnd_eq info
  have hmem : ∀ v, v ∈ headerPages info loadBase ↔
      v % 4096 = 0 ∧ loadBase ≤ v ∧ v < (loadBase + info.headersEnd) % 2 ^ 64 :=
    fun v => mem_pageRange halign (by omega)
  simp only [hmem]
  constructor
  · intro h
    by_contra hout
    -- The last page of the headers is outside.
    have hlast := h (loadBase + info.headersEnd - 4096) ⟨by omega, by omega, by omega⟩
    omega
  · rintro h v ⟨hal, hlo, hhi⟩
    omega

/-- A section is in the window if it is inside of the image. One that is so close to the end
    of the addresses that its end wraps is not mapped. -/
theorem section_in_window_iff {sec : SectionHeader} (hload : sec.isLoaded = true)
    (halign : loadBase % 4096 = 0) (hspan : span % 4096 = 0) (hwin : loadBase + span < 2 ^ 64) :
    (∀ v ∈ sec.pages loadBase, loadBase ≤ v ∧ v + 4096 ≤ loadBase + span) ↔
      sec.virtualAddress + sec.vsize ≤ span ∨
        (loadBase + sec.virtualAddress < 2 ^ 64 ∧
          2 ^ 64 - 4096 < loadBase + sec.virtualAddress + sec.vsize) := by
  have hpos : 0 < sec.vsize := by
    simp only [SectionHeader.isLoaded, Bool.and_eq_true, decide_eq_true_eq] at hload
    exact Nat.pos_of_ne_zero hload.2
  have hsize := sec.vsize_lt
  have hrva := sec.virtualAddress_lt
  have hstart := sec.pageStart_eq loadBase
  have hend := sec.pageEnd_eq loadBase
  have hvaddr : sec.vaddrStart loadBase = (loadBase + sec.virtualAddress) % 2 ^ 64 := rfl
  simp only [SectionHeader.mem_pages]
  constructor
  · intro h
    by_contra hout
    by_cases hwrap : loadBase + sec.virtualAddress < 2 ^ 64
    · -- The last page of the section is outside.
      have hlast := h (sec.pageEnd loadBase - 4096) ⟨by omega, by omega, by omega⟩
      omega
    · -- The section starts below the image.
      have hfirst := h (sec.pageStart loadBase) ⟨by omega, by omega, by omega⟩
      omega
  · rintro h v ⟨hal, hlo, hhi⟩
    omega

/-- For every file that is loaded, at a page boundary and into a window that does not leave
    the address space: every page that is mapped is in the window of the image's size if and
    only if the headers and all loaded sections are inside of the image, apart from those
    that are not mapped because their end wraps. -/
theorem peLoad_window_iff {res : PeLoadResult} {w w' : World} (hw : w.Start)
    (halign : loadBase % pageSize = 0) (hwin : loadBase + peComputeLoadSpan arch f < 2 ^ 64)
    (hrun : (peLoad arch env f loadBase).run w = .ok res w') :
    ∃ info, pePlan arch f = .ok info ∧
      (MapsInWindow loadBase (peComputeLoadSpan arch f) w' ↔
        (info.headersEnd ≤ peComputeLoadSpan arch f ∨ 2 ^ 64 ≤ loadBase + info.headersEnd) ∧
        ∀ sec i, (sec, i) ∈ loadedSections f info →
          sec.virtualAddress + sec.vsize ≤ peComputeLoadSpan arch f ∨
            (loadBase + sec.virtualAddress < 2 ^ 64 ∧
              2 ^ 64 - 4096 < loadBase + sec.virtualAddress + sec.vsize)) := by
  obtain ⟨info, hinfo, hlaid⟩ := wp_ok (peLoad_spec hw) hrun
  have hspan : peComputeLoadSpan arch f % 4096 = 0 := by
    rw [peComputeLoadSpan, pePlan_ok hinfo]
    simp only [pageAlignUp_eq]
    omega
  refine ⟨info, hinfo, ?_⟩
  rw [hlaid.mapsInWindow_iff, ← headers_in_window_iff halign hwin]
  constructor
  · intro h
    refine ⟨fun v hv => h _ (mem_peItems.2 (.inl ⟨v, hv, rfl⟩)), fun sec i hl => ?_⟩
    rw [← section_in_window_iff (mem_loadedSections.1 hl).2 halign hspan hwin]
    exact fun v hv => h _ (mem_peItems.2 (.inr ⟨sec, i, v, hl, hv, rfl⟩))
  · rintro ⟨hheaders, hsections⟩ it hit
    rcases mem_peItems.1 hit with ⟨v, hv, rfl⟩ | ⟨sec, i, v, hl, hv, rfl⟩
    · exact hheaders v hv
    · exact (section_in_window_iff (mem_loadedSections.1 hl).2 halign hspan hwin).2
        (hsections sec i hl) v hv

end

theorem peLoad_window_iff_onePeSection :
    ∃ res w', (peLoad .x86_64 Env.quiet (onePeSection 0x1000) 0x400000).run World.initial =
        .ok res w' ∧ MapsInWindow 0x400000 0x2000 w' := by
  have hwp : wp (peLoad .x86_64 Env.quiet (onePeSection 0x1000) 0x400000) (fun _ _ => True)
      (fun _ _ => False) World.initial := by decide +kernel
  obtain ⟨res, w', hrun, -⟩ := wp_exists_ok hwp
  have hspan : peComputeLoadSpan .x86_64 (onePeSection 0x1000) = 0x2000 := by decide +kernel
  have halign : 0x400000 % pageSize = 0 := by decide +kernel
  obtain ⟨info, hinfo, hiff⟩ :=
    peLoad_window_iff World.initial_start halign (by rw [hspan]; decide) hrun
  have heq : info = onePeInfo := Except.ok.inj (hinfo.symm.trans (eq_ok_resultOf _))
  rw [heq, hspan] at hiff
  refine ⟨res, w', hrun, hiff.2 ⟨by decide +kernel, fun sec i hl => .inl ?_⟩⟩
  have hsections : ∀ s ∈ loadedSections (onePeSection 0x1000) onePeInfo,
      s.1.virtualAddress + s.1.vsize ≤ 0x2000 := by decide +kernel
  exact hsections (sec, i) hl

/-- The image says that it is two pages long and has its section on the third page. -/
theorem peLoad_window_outside :
    peComputeLoadSpan .x86_64 (onePeSection 0x2000) = 0x2000 ∧
    ∃ res w', (peLoad .x86_64 Env.quiet (onePeSection 0x2000) 0x400000).run World.initial =
        .ok res w' ∧
      LoadEvent.map 0x402000 65 6 ∈ w'.log ∧ ¬MapsInWindow 0x400000 0x2000 w' := by
  have hwp : wp (peLoad .x86_64 Env.quiet (onePeSection 0x2000) 0x400000)
      (fun _ w' => LoadEvent.map 0x402000 65 6 ∈ w'.log) (fun _ _ => False) World.initial := by
    decide +kernel
  obtain ⟨res, w', hrun, hev⟩ := wp_exists_ok hwp
  refine ⟨by decide +kernel, res, w', hrun, hev, fun hwin => ?_⟩
  obtain ⟨-, hhi⟩ := hwin _ _ _ hev
  simp only [pageSize] at hhi
  omega

end Trona
