import Trona.Lib.Memory

/-!
# The archive with the libraries

`rtld_cpio_find` (`rtld/elf/rtld_internal.h`): the linker looks for a library in the
archive that is the initial RAM disk, a sequence of headers, names and file data. The
numbers in a header have eight hexadecimal digits, so that no offset wraps in an archive
that is at most half of the address space.
-/

namespace Trona

namespace Rtld

/-- `CPIO_HEADER_SIZE`. -/
def cpioHeaderSize : ℕ := 110

/-- The bytes of `070701`. -/
def cpioMagic : List UInt8 := [0x30, 0x37, 0x30, 0x37, 0x30, 0x31]

/-- The bytes of `TRAILER!!!`. -/
def cpioTrailer : List UInt8 := [0x54, 0x52, 0x41, 0x49, 0x4C, 0x45, 0x52, 0x21, 0x21, 0x21]

/-- `struct rtld_cpio_entry`: the name and the data of a file in the archive, by pointers, and
    their lengths. -/
structure CpioEntry where
  name : ℕ
  nameLen : ℕ
  data : ℕ
  dataLen : ℕ
  deriving DecidableEq

def hexDigit (b : UInt8) : Option ℕ :=
  let n := b.toNat
  if 0x30 ≤ n ∧ n ≤ 0x39 then some (n - 0x30)
  else if 0x61 ≤ n ∧ n ≤ 0x66 then some (n - 0x61 + 10)
  else if 0x41 ≤ n ∧ n ≤ 0x46 then some (n - 0x41 + 10)
  else none

/-- The number that hexadecimal digits spell, and zero for anything else. -/
def cpioParseHex8 (bytes : List UInt8) : ℕ :=
  (bytes.foldl (fun val b => val.bind fun val => (hexDigit b).map (val * 16 + ·)) (some 0)).getD 0

def cpioAlign4 (n : ℕ) : ℕ := n + 3 - (n + 3) % 4

/-- The name of an entry ends before the zero byte at its end, if there is one. -/
def trimName (name : List UInt8) : List UInt8 :=
  if name.getLast? = some 0 then name.dropLast else name

/-- Look for a file from an offset on. It is not found when something about a header is
    wrong. The search reads from memory, and the outer option says whether it could. The
    fuel is enough for all headers of the archive. -/
def cpioFindFrom (m : Memory) (archive archiveLen : ℕ) (name : List UInt8) :
    (fuel offset : ℕ) → Option (Option CpioEntry)
  | 0, _ => some none
  | fuel + 1, offset =>
    if offset + cpioHeaderSize > archiveLen then some none
    else
      (m.read (archive + offset) cpioHeaderSize).bind fun header =>
        let namesize := cpioParseHex8 ((header.drop 94).take 8)
        let filesize := cpioParseHex8 ((header.drop 54).take 8)
        let nameStart := offset + cpioHeaderSize
        if header.take 6 ≠ cpioMagic then some none
        else if nameStart + namesize > archiveLen then some none
        else
          (m.read (archive + nameStart) namesize).bind fun bytes =>
            let entryName := trimName bytes
            let dataStart := cpioAlign4 (nameStart + namesize)
            let dataEnd := dataStart + filesize
            if entryName = cpioTrailer then some none
            else if dataEnd > archiveLen then some none
            else if entryName = name then
              some (some ⟨(archive + nameStart) % 2 ^ 64, entryName.length,
                (archive + dataStart) % 2 ^ 64, filesize⟩)
            else cpioFindFrom m archive archiveLen name fuel (cpioAlign4 dataEnd)

def cpioFind (m : Memory) (archive archiveLen : ℕ) (name : List UInt8) :
    Option (Option CpioEntry) :=
  cpioFindFrom m archive archiveLen name (archiveLen + 1) 0

/-- The data of a file that is found is in the archive, after a header. -/
theorem cpioFindFrom_data {m : Memory} {archive archiveLen fuel offset : ℕ} {name : List UInt8}
    {cpio : CpioEntry}
    (h : cpioFindFrom m archive archiveLen name fuel offset = some (some cpio)) :
    ∃ start, cpioHeaderSize ≤ start ∧ start + cpio.dataLen ≤ archiveLen ∧
      cpio.data = (archive + start) % 2 ^ 64 := by
  induction fuel generalizing offset with
  | zero => cases h
  | succ fuel ih =>
    rcases ite_eq_iff.1 h with ⟨-, h⟩ | ⟨-, h⟩
    · cases h
    obtain ⟨header, -, h⟩ := Option.bind_eq_some_iff.1 h
    rcases ite_eq_iff.1 h with ⟨-, h⟩ | ⟨-, h⟩
    · cases h
    rcases ite_eq_iff.1 h with ⟨-, h⟩ | ⟨-, h⟩
    · cases h
    obtain ⟨bytes, -, h⟩ := Option.bind_eq_some_iff.1 h
    rcases ite_eq_iff.1 h with ⟨-, h⟩ | ⟨-, h⟩
    · cases h
    rcases ite_eq_iff.1 h with ⟨-, h⟩ | ⟨hend, h⟩
    · cases h
    rcases ite_eq_iff.1 h with ⟨-, h⟩ | ⟨-, h⟩
    · obtain rfl := Option.some.inj (Option.some.inj h)
      refine ⟨_, ?_, not_lt.1 hend, rfl⟩
      simp only [cpioAlign4, cpioHeaderSize]
      omega
    · exact ih h

end Rtld

end Trona
