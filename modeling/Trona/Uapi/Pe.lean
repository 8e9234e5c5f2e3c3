import Trona.Lib.Memory
import Trona.Uapi.Elf

/-!
# The PE file format

The types of `uapi/types/pe.rs` and the constants for them, read from a file. Of a header only
the fields that are used are kept.
-/

namespace Trona

/-- The `machine` of an architecture. -/
def Arch.peMachine : Arch → ℕ
  | .x86_64 => 0x8664
  | .aarch64 => 0xAA64

def peDosMagic : ℕ := 0x5A4D
def peSignature : ℕ := 0x4550
def peOptMagicPe32plus : ℕ := 0x20B
def imageScnMemExecute : ℕ := 0x20000000
def imageScnMemWrite : ℕ := 0x80000000
def imageScnMemDiscardable : ℕ := 0x02000000
def imageDirectoryEntryImport : ℕ := 1
def imageDirectoryEntryBasereloc : ℕ := 5
def imageRelBasedDir64 : ℕ := 10

structure DosHeader where
  eMagic : ℕ
  eLfanew : ℕ

structure CoffHeader where
  machine : ℕ
  numberOfSections : ℕ
  sizeOfOptionalHeader : ℕ
  characteristics : ℕ

structure DataDirectory where
  virtualAddress : ℕ
  size : ℕ
  deriving DecidableEq

structure OptionalHeader64 where
  magic : ℕ
  addressOfEntryPoint : ℕ
  imageBase : ℕ
  sectionAlignment : ℕ
  fileAlignment : ℕ
  sizeOfImage : ℕ
  sizeOfHeaders : ℕ
  numberOfRvaAndSizes : ℕ
  imageBase_lt : imageBase < 2 ^ 64
  sizeOfImage_lt : sizeOfImage < 2 ^ 32
  sizeOfHeaders_lt : sizeOfHeaders < 2 ^ 32

structure SectionHeader where
  virtualSize : ℕ
  virtualAddress : ℕ
  sizeOfRawData : ℕ
  pointerToRawData : ℕ
  characteristics : ℕ
  virtualSize_lt : virtualSize < 2 ^ 32
  virtualAddress_lt : virtualAddress < 2 ^ 32
  sizeOfRawData_lt : sizeOfRawData < 2 ^ 32
  pointerToRawData_lt : pointerToRawData < 2 ^ 32
  deriving DecidableEq

/-- A block of base relocations. -/
structure BaseRelocation where
  virtualAddress : ℕ
  sizeOfBlock : ℕ
  deriving DecidableEq

structure ImportDescriptor where
  originalFirstThunk : ℕ
  nameRva : ℕ
  firstThunk : ℕ

/-- The descriptor ends the import directory. -/
def ImportDescriptor.isNull (desc : ImportDescriptor) : Bool :=
  desc.originalFirstThunk = 0 && desc.nameRva = 0 && desc.firstThunk = 0

namespace File

variable (f : File) (off : ℕ)

def dosHeader : Option DosHeader :=
  if off + 64 ≤ f.size then some { eMagic := f.le off 2, eLfanew := f.le (off + 60) 4 } else none

def coffHeader : Option CoffHeader :=
  if off + 20 ≤ f.size then
    some {
      machine := f.le off 2
      numberOfSections := f.le (off + 2) 2
      sizeOfOptionalHeader := f.le (off + 16) 2
      characteristics := f.le (off + 18) 2 }
  else none

def dataDirectory : Option DataDirectory :=
  if off + 8 ≤ f.size then some { virtualAddress := f.le off 4, size := f.le (off + 4) 4 }
  else none

def optionalHeader64 : Option OptionalHeader64 :=
  if off + 112 ≤ f.size then
    some {
      magic := f.le off 2
      addressOfEntryPoint := f.le (off + 16) 4
      imageBase := f.le (off + 24) 8
      sectionAlignment := f.le (off + 32) 4
      fileAlignment := f.le (off + 36) 4
      sizeOfImage := f.le (off + 56) 4
      sizeOfHeaders := f.le (off + 60) 4
      numberOfRvaAndSizes := f.le (off + 108) 4
      imageBase_lt := f.le_lt_word _
      sizeOfImage_lt := f.le_lt _ _
      sizeOfHeaders_lt := f.le_lt _ _ }
  else none

def sectionHeader : Option SectionHeader :=
  if off + 40 ≤ f.size then
    some {
      virtualSize := f.le (off + 8) 4
      virtualAddress := f.le (off + 12) 4
      sizeOfRawData := f.le (off + 16) 4
      pointerToRawData := f.le (off + 20) 4
      characteristics := f.le (off + 36) 4
      virtualSize_lt := f.le_lt _ _
      virtualAddress_lt := f.le_lt _ _
      sizeOfRawData_lt := f.le_lt _ _
      pointerToRawData_lt := f.le_lt _ _ }
  else none

def baseRelocation : Option BaseRelocation :=
  if off + 8 ≤ f.size then some { virtualAddress := f.le off 4, sizeOfBlock := f.le (off + 4) 4 }
  else none

def importDescriptor : Option ImportDescriptor :=
  if off + 20 ≤ f.size then
    some {
      originalFirstThunk := f.le off 4
      nameRva := f.le (off + 12) 4
      firstThunk := f.le (off + 16) 4 }
  else none

end File

/-! ## Files to load -/

/-- The DOS header, the signature and the COFF header of an x86-64 file. -/
def coffBytes (numberOfSections sizeOfOptionalHeader : ℕ) : List UInt8 :=
  wordBytes 2 peDosMagic ++ wordBytes 58 0 ++ wordBytes 4 64 ++ wordBytes 4 peSignature ++
    wordBytes 2 0x8664 ++ wordBytes 2 numberOfSections ++ wordBytes 12 0 ++
    wordBytes 2 sizeOfOptionalHeader ++ wordBytes 2 0x22

/-- An optional header. -/
def optionalBytes (imageBase sizeOfImage sizeOfHeaders numberOfRvaAndSizes : ℕ) : List UInt8 :=
  wordBytes 2 peOptMagicPe32plus ++ wordBytes 22 0 ++ wordBytes 8 imageBase ++
    wordBytes 4 4096 ++ wordBytes 4 512 ++ wordBytes 16 0 ++ wordBytes 4 sizeOfImage ++
    wordBytes 4 sizeOfHeaders ++ wordBytes 44 0 ++ wordBytes 4 numberOfRvaAndSizes

/-- The headers of an x86-64 file up to its section headers, without data directories. -/
def peHeaderBytes (numberOfSections imageBase sizeOfImage sizeOfHeaders : ℕ) : List UInt8 :=
  coffBytes numberOfSections 112 ++ optionalBytes imageBase sizeOfImage sizeOfHeaders 0

/-- The headers of an x86-64 file up to its section headers, with a relocation directory. -/
def peRelocHeaderBytes (numberOfSections imageBase sizeOfImage sizeOfHeaders relocRva
    relocSize : ℕ) : List UInt8 :=
  coffBytes numberOfSections 160 ++
    (optionalBytes imageBase sizeOfImage sizeOfHeaders 6 ++
      (wordBytes 40 0 ++ wordBytes 4 relocRva ++ wordBytes 4 relocSize))

@[simp] theorem length_peRelocHeaderBytes
    (numberOfSections imageBase sizeOfImage sizeOfHeaders relocRva relocSize : ℕ) :
    (peRelocHeaderBytes numberOfSections imageBase sizeOfImage sizeOfHeaders relocRva
      relocSize).length = 248 := by
  simp [peRelocHeaderBytes, coffBytes, optionalBytes]

/-- A section header. -/
def sectionBytes (virtualSize virtualAddress sizeOfRawData pointerToRawData
    characteristics : ℕ) : List UInt8 :=
  wordBytes 8 0 ++ wordBytes 4 virtualSize ++ wordBytes 4 virtualAddress ++
    wordBytes 4 sizeOfRawData ++ wordBytes 4 pointerToRawData ++ wordBytes 12 0 ++
    wordBytes 4 characteristics

end Trona
