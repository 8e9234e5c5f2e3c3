import Trona.Loader.Elf

/-!
# The layout of a library

`elf_compute_lib_info` (`loader/elf_dynamic.rs`): how much address space the parent of a
process reserves for a library that it maps.
-/

namespace Trona

structure ElfLibInfo where
  minVaddr : ℕ
  libSpan : ℕ
  phnum : ℕ
  deriving DecidableEq

/-- The end of the last page of the PT_LOAD segments, in the file's own addresses. -/
def maxSegEnd (phs : List Elf64Phdr) : ℕ :=
  foldMax (fun ph => pageAlignUp (ph.pVaddr + ph.pMemsz)) 0 (phs.filter Elf64Phdr.isLoad)

/-- The layout of a library, if the file is one. The outer option says whether the program
    headers could be read. -/
def elfComputeLibInfo (f : File) : Option (Option ElfLibInfo) :=
  match f.elf64Ehdr 0 with
  | none => some none
  | some ehdr =>
    if !ehdr.isElf then some none
    else if ehdr.eType ≠ etDyn then some none
    else
      match phdrs f ehdr with
      | none => none
      | some phs =>
        if minVaddr phs = 2 ^ 64 - 1 then some none
        else
          some (some {
            minVaddr := minVaddr phs
            libSpan := wsub (maxSegEnd phs) (pageAlignDown (minVaddr phs))
            phnum := ehdr.ePhnum })

/-- A library whose headers are where they should be: its program headers have the size of
    `Elf64Phdr` and are in the file, some segment is loaded, and no segment leaves the
    address space. -/
structure LibraryFile (f : File) (ehdr : Elf64Ehdr) (phs : List Elf64Phdr) : Prop where
  header : f.elf64Ehdr 0 = some ehdr
  isElf : ehdr.isElf = true
  isDyn : ehdr.eType = etDyn
  entSize : ehdr.ePhentsize = 56
  table : ehdr.ePhoff + ehdr.ePhnum * 56 ≤ f.size
  phdrs_eq : phdrs f ehdr = some phs
  load : ∃ ph ∈ phs, ph.isLoad = true
  noWrap : ∀ ph ∈ phs, ph.isLoad = true → ph.pVaddr + ph.pMemsz + 4095 < 2 ^ 64

variable {f : File} {ehdr : Elf64Ehdr} {phs : List Elf64Phdr} {ph : Elf64Phdr}

theorem le_maxSegEnd (hph : ph ∈ phs) (hl : ph.isLoad = true) :
    pageAlignUp (ph.pVaddr + ph.pMemsz) ≤ maxSegEnd phs :=
  le_foldMax (g := fun ph : Elf64Phdr => pageAlignUp (ph.pVaddr + ph.pMemsz))
    (List.mem_filter.2 ⟨hph, hl⟩)

theorem segEnd_le_elfBrk (hph : ph ∈ phs) (hl : ph.isLoad = true) (delta : ℕ) :
    ph.segEnd delta ≤ elfBrk phs delta :=
  le_foldMax (g := fun ph : Elf64Phdr => ph.segEnd delta) (List.mem_filter.2 ⟨hph, hl⟩)

theorem LibraryFile.minVaddr_lt (h : LibraryFile f ehdr phs) : minVaddr phs < 2 ^ 64 - 1 := by
  obtain ⟨ph, hph, hl⟩ := h.load
  have hmin := minVaddr_le hph hl
  have hno := h.noWrap ph hph hl
  omega

/-- The layout of a library file. -/
theorem LibraryFile.libInfo (h : LibraryFile f ehdr phs) :
    elfComputeLibInfo f = some (some
      ⟨minVaddr phs, wsub (maxSegEnd phs) (pageAlignDown (minVaddr phs)), ehdr.ePhnum⟩) := by
  have hmin := h.minVaddr_lt
  simp only [elfComputeLibInfo, h.header, h.isElf, h.isDyn, h.phdrs_eq, Bool.not_true]
  rw [if_neg (by simp), if_neg (by simp), if_neg (by omega)]

end Trona
