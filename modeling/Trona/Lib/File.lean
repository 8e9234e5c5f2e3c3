import Trona.Lib.Word

/-!
# Files in memory

A file as the parsers see it: bytes in memory, fewer than half of the address
space, at a pointer. A number is spelled by its bytes, the least significant one
first (`File.le`). A structure is read at an offset when all of it is in the file.
-/

namespace Trona

/-- A file in memory. -/
structure File where
  bytes : List UInt8
  length_lt : bytes.length < 2 ^ 63

namespace File

variable (f : File)

def size : ℕ := f.bytes.length

/-- The byte at an offset, and zero past the end. -/
def byte (i : ℕ) : UInt8 := f.bytes.getD i 0

/-- The number spelled by the `n` bytes at an offset, as far as they are in the
    file. -/
def le (off n : ℕ) : ℕ := leNat ((f.bytes.drop off).take n)

/-- The number spelled by the `n` bytes at an offset, if all of them are in the file. -/
def number? (off n : ℕ) : Option ℕ := if off + n ≤ f.size then some (f.le off n) else none

/-- The `n` bytes at an offset, if all of them are in the file. -/
def slice? (off n : ℕ) : Option (List UInt8) :=
  if off + n ≤ f.size then some ((f.bytes.drop off).take n) else none

theorem size_lt : f.size < 2 ^ 63 := f.length_lt

theorem le_lt (off n : ℕ) : f.le off n < 256 ^ n :=
  (leNat_lt _).trans_le (Nat.pow_le_pow_right (by decide) (List.length_take_le _ _))

theorem le_two_lt (off : ℕ) : f.le off 2 < 2 ^ 16 := f.le_lt off 2

theorem le_four_lt (off : ℕ) : f.le off 4 < 2 ^ 32 := f.le_lt off 4

theorem le_lt_word (off : ℕ) : f.le off 8 < 2 ^ 64 := f.le_lt off 8

end File

/-- Why a function that reads a file stops early: it would read outside of what it may read,
    or it returns an error. -/
inductive ReadStop (ε : Type)
  | outside
  | error (e : ε)
  deriving DecidableEq

/-- An access to a file: what is read, if it is inside. -/
def access {ε α : Type} : Option α → Except (ReadStop ε) α
  | none => .error .outside
  | some a => .ok a

end Trona
