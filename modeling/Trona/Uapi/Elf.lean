import Trona.Lib.Memory

/-!
# ELF files

The structures of an ELF64 file (`uapi/types/core.rs`, `rtld/elf/rtld_internal.h`) that
the loaders and the linker read, and the constants they compare with. A structure is read
as a whole: at an offset at which a part of it is past the end of the file, it cannot be
read. Structures that are read from a file hold numbers of their fields' widths.

The loaders read files; the linker follows pointers, and reads the same structures from
memory.
-/

namespace Trona

/-- The architecture the loader is built for. -/
inductive Arch
  | x86_64
  | aarch64
  deriving DecidableEq

/-- The ELF machine of an architecture: `EM_X86_64` and `EM_AARCH64`. -/
def Arch.elfMachine : Arch → ℕ
  | x86_64 => 62
  | aarch64 => 183

/-- The type of RELATIVE relocations: `R_X86_64_RELATIVE` and `R_AARCH64_RELATIVE`. -/
def Arch.relative : Arch → ℕ
  | x86_64 => 8
  | aarch64 => 1027

def ptLoad : ℕ := 1
def ptDynamic : ℕ := 2
def ptPhdr : ℕ := 6
def ptTls : ℕ := 7
def pfX : ℕ := 1
def pfW : ℕ := 2
def etExec : ℕ := 2
def etDyn : ℕ := 3
def dtNull : ℕ := 0
def dtNeeded : ℕ := 1
def dtPltrelsz : ℕ := 2
def dtPltgot : ℕ := 3
def dtStrtab : ℕ := 5
def dtSymtab : ℕ := 6
def dtRela : ℕ := 7
def dtRelasz : ℕ := 8
def dtRelaent : ℕ := 9
def dtStrsz : ℕ := 10
def dtSyment : ℕ := 11
def dtInit : ℕ := 12
def dtPltrel : ℕ := 20
def dtJmprel : ℕ := 23
def dtInitArray : ℕ := 25
def dtInitArraysz : ℕ := 27
def dtGnuHash : ℕ := 0x6ffffef5
def stbGlobal : ℕ := 1
def stbWeak : ℕ := 2
def shnUndef : ℕ := 0

/-- `Elf64Ehdr`, without the fields that no loader looks at. -/
structure Elf64Ehdr where
  eIdent : List UInt8
  eType : ℕ
  eMachine : ℕ
  eEntry : ℕ
  ePhoff : ℕ
  ePhentsize : ℕ
  ePhnum : ℕ
  ePhoff_lt : ePhoff < 2 ^ 64

/-- `Elf64Phdr`, without its physical address. -/
structure Elf64Phdr where
  pType : ℕ
  pFlags : ℕ
  pOffset : ℕ
  pVaddr : ℕ
  pFilesz : ℕ
  pMemsz : ℕ
  pAlign : ℕ
  pOffset_lt : pOffset < 2 ^ 64
  pVaddr_lt : pVaddr < 2 ^ 64
  pFilesz_lt : pFilesz < 2 ^ 64
  pMemsz_lt : pMemsz < 2 ^ 64
  deriving DecidableEq

structure Elf64Dyn where
  dTag : ℕ
  dVal : ℕ
  dVal_lt : dVal < 2 ^ 64

/-- `Elf64Rela`. The addend is only used as a word. -/
structure Elf64Rela where
  rOffset : ℕ
  rInfo : ℕ
  rAddend : ℕ
  rOffset_lt : rOffset < 2 ^ 64
  rAddend_lt : rAddend < 2 ^ 64
  deriving DecidableEq

/-- `Elf64_Sym`. -/
structure Elf64Sym where
  stName : ℕ
  stInfo : ℕ
  stShndx : ℕ
  stValue : ℕ
  stSize : ℕ
  deriving DecidableEq

/-- `ELF64_ST_BIND`. -/
def Elf64Sym.bind (sym : Elf64Sym) : ℕ := sym.stInfo / 2 ^ 4

namespace File

variable (f : File) (off : ℕ)

def elf64Ehdr : Option Elf64Ehdr :=
  if off + 64 ≤ f.size then
    some {
      eIdent := (f.bytes.drop off).take 16
      eType := f.le (off + 16) 2
      eMachine := f.le (off + 18) 2
      eEntry := f.le (off + 24) 8
      ePhoff := f.le (off + 32) 8
      ePhentsize := f.le (off + 54) 2
      ePhnum := f.le (off + 56) 2
      ePhoff_lt := f.le_lt_word _ }
  else none

def elf64Phdr : Option Elf64Phdr :=
  if off + 56 ≤ f.size then
    some {
      pType := f.le off 4
      pFlags := f.le (off + 4) 4
      pOffset := f.le (off + 8) 8
      pVaddr := f.le (off + 16) 8
      pFilesz := f.le (off + 32) 8
      pMemsz := f.le (off + 40) 8
      pAlign := f.le (off + 48) 8
      pOffset_lt := f.le_lt_word _
      pVaddr_lt := f.le_lt_word _
      pFilesz_lt := f.le_lt_word _
      pMemsz_lt := f.le_lt_word _ }
  else none

def elf64Dyn : Option Elf64Dyn :=
  if off + 16 ≤ f.size then
    some { dTag := f.le off 8, dVal := f.le (off + 8) 8, dVal_lt := f.le_lt_word _ }
  else none

def elf64Rela : Option Elf64Rela :=
  if off + 24 ≤ f.size then
    some {
      rOffset := f.le off 8
      rInfo := f.le (off + 8) 8
      rAddend := f.le (off + 16) 8
      rOffset_lt := f.le_lt_word _
      rAddend_lt := f.le_lt_word _ }
  else none

def elf64Sym : Option Elf64Sym :=
  if off + 24 ≤ f.size then
    some {
      stName := f.le off 4
      stInfo := f.le (off + 4) 1
      stShndx := f.le (off + 6) 2
      stValue := f.le (off + 8) 8
      stSize := f.le (off + 16) 8 }
  else none

variable {f off} in
theorem le_size_of_elf64Ehdr (h : f.elf64Ehdr off = some ehdr) : off + 64 ≤ f.size :=
  (Option.ite_none_right_eq_some.1 h).1

end File

/-! ## Structures in memory -/

namespace Memory

variable (m : Memory) (a : ℕ)

def elf64Ehdr : Option Elf64Ehdr := (m.view a 64).bind (·.elf64Ehdr 0)

def elf64Phdr : Option Elf64Phdr := (m.view a 56).bind (·.elf64Phdr 0)

def elf64Dyn : Option Elf64Dyn := (m.view a 16).bind (·.elf64Dyn 0)

def elf64Rela : Option Elf64Rela := (m.view a 24).bind (·.elf64Rela 0)

def elf64Sym : Option Elf64Sym := (m.view a 24).bind (·.elf64Sym 0)

variable {m a} {f : File} {off : ℕ}

/-- The header of a file in memory is that of the file. -/
theorem Holds.elf64Ehdr (h : m.Holds a f) (hin : off + 64 ≤ f.size) :
    m.elf64Ehdr (a + off) = f.elf64Ehdr off := by
  obtain ⟨v, hv, hbytes, hsize⟩ := h.view hin
  have hle : ∀ k l, k + l ≤ 64 → v.le (0 + k) l = f.le (off + k) l := fun k l hl => by
    rw [Nat.zero_add]
    exact le_view hbytes hl
  simp only [Memory.elf64Ehdr, hv, Option.bind_some, File.elf64Ehdr, hsize, if_pos hin]
  rw [if_pos (by decide)]
  congr 2
  · rw [hbytes, List.drop_zero, List.take_take, Nat.min_eq_left (by decide)]
  all_goals exact hle _ _ (by decide)

/-- The program headers of a file in memory are those of the file. -/
theorem Holds.elf64Phdr (h : m.Holds a f) (hin : off + 56 ≤ f.size) :
    m.elf64Phdr (a + off) = f.elf64Phdr off := by
  obtain ⟨v, hv, hbytes, hsize⟩ := h.view hin
  have hle : ∀ k l, k + l ≤ 56 → v.le (0 + k) l = f.le (off + k) l := fun k l hl => by
    rw [Nat.zero_add]
    exact le_view hbytes hl
  simp only [Memory.elf64Phdr, hv, Option.bind_some, File.elf64Phdr, hsize, if_pos hin]
  rw [if_pos (by decide)]
  congr 2
  · exact hle 0 4 (by decide)
  all_goals exact hle _ _ (by decide)

end Memory

/-! ## Files to load -/

/-- The header of an x86-64 file, with its program headers right after it. -/
def ehdrBytes (eType ePhnum : ℕ) : List UInt8 :=
  [0x7F, 0x45, 0x4C, 0x46, 2, 1, 1, 0, 0, 0, 0, 0, 0, 0, 0, 0] ++ wordBytes 2 eType ++
    wordBytes 2 62 ++ wordBytes 4 1 ++ wordBytes 8 0 ++ wordBytes 8 64 ++ wordBytes 8 0 ++
    wordBytes 4 0 ++ wordBytes 2 64 ++ wordBytes 2 56 ++ wordBytes 2 ePhnum ++ wordBytes 6 0

/-- A program header. -/
def phdrBytes (pType pFlags pOffset pVaddr pFilesz pMemsz : ℕ) : List UInt8 :=
  wordBytes 4 pType ++ wordBytes 4 pFlags ++ wordBytes 8 pOffset ++ wordBytes 8 pVaddr ++
    wordBytes 8 0 ++ wordBytes 8 pFilesz ++ wordBytes 8 pMemsz ++ wordBytes 8 4096

end Trona
