import Trona.Lib.Stores

/-!
# Messages in memory

A message (`TronaMsg`, `uapi/types/core.rs`) has 32 registers of 8 bytes. The POSIX layer also
writes and reads the bytes of the registers through pointers, so here the registers are the bytes
that they have in memory.
-/

namespace Trona

namespace Posix

/-- The number of registers of a message. -/
def msgRegs : ℕ := 32

/-- A message, with the bytes of its registers. -/
structure TronaMsg where
  label : ℕ := 0
  length : ℕ := 0
  regs : Bytes := fun _ => 0

/-- The registers that bytes take. -/
def regsFor (n : ℕ) : ℕ := (n + 7) / 8

namespace TronaMsg

/-- The register with a number. -/
def reg (msg : TronaMsg) (i : ℕ) : ℕ := msg.regs.word (8 * i)

/-- Set the first registers. -/
def setRegs (values : List ℕ) (msg : TronaMsg) : TronaMsg :=
  { msg with regs := Bytes.put 0 (values.flatMap (wordBytes 8)) msg.regs }

/-- Set a register to zero, and those after it up to another one. -/
def clearRegs (first last : ℕ) (msg : TronaMsg) : TronaMsg :=
  { msg with regs := Bytes.zero ⟨8 * first, 8 * (last - first)⟩ msg.regs }

/-- Write bytes from a register on. -/
def putBytes (i : ℕ) (bs : List UInt8) (msg : TronaMsg) : TronaMsg :=
  { msg with regs := Bytes.put (8 * i) bs msg.regs }

variable {msg : TronaMsg} {values : List ℕ} {bs : List UInt8} {i j n : ℕ}

theorem length_flatMap_wordBytes : (values.flatMap (wordBytes 8)).length = 8 * values.length := by
  simp [Nat.mul_comm]

theorem reg_setRegs (hi : i < values.length) :
    (msg.setRegs values).reg i = values.getD i 0 % 2 ^ 64 := by
  have hlen := @length_flatMap_wordBytes values
  have hslice : (msg.setRegs values).regs.slice (8 * i) 8 =
      ((values.flatMap (wordBytes 8)).drop (8 * i)).take 8 := by
    have hall := @Bytes.slice_put msg.regs (values.flatMap (wordBytes 8)) 0
    have hpart := @Bytes.slice_slice (msg.setRegs values).regs 0
      (values.flatMap (wordBytes 8)).length (8 * i) 8 (by omega)
    rw [Nat.zero_add] at hpart
    rw [hpart]
    exact congrArg (fun l => (l.drop (8 * i)).take 8) hall
  rw [reg, Bytes.word, hslice, Bytes.take_drop_flatMap 0 (length_wordBytes 8) hi, leNat_wordBytes]
  rfl

/-- A register that was set has the value. -/
theorem reg_putBytes_self {v : ℕ} : (msg.putBytes i (wordBytes 8 v)).reg i = v % 2 ^ 64 := by
  have hslice := @Bytes.slice_put msg.regs (wordBytes 8 v) (8 * i)
  exact (congrArg leNat hslice).trans (leNat_wordBytes 8 v)

/-- A write to registers from `j` on leaves those before it. -/
theorem reg_putBytes (hij : i < j) : (msg.putBytes j bs).reg i = msg.reg i :=
  congrArg leNat (Bytes.slice_put_before (by omega))

theorem reg_clearRegs (hij : i < j) : (msg.clearRegs j n).reg i = msg.reg i := by
  have hsame : Bytes.SameOn [⟨8 * i, 8⟩] msg.regs (msg.clearRegs j n).regs := by
    refine Bytes.zero_changes.sameOn fun s hs => ?_
    rw [List.mem_singleton.1 hs]
    exact .inr (.inr (.inr (by dsimp only; omega)))
  exact hsame.word List.mem_cons_self

/-- What was written from a register on is there. -/
theorem slice_putBytes (hbs : bs.length = n) : (msg.putBytes i bs).regs.slice (8 * i) n = bs :=
  hbs ▸ Bytes.slice_put

theorem slice_putBytes_before (h : 8 * i + n ≤ 8 * j) :
    (msg.putBytes j bs).regs.slice (8 * i) n = msg.regs.slice (8 * i) n :=
  Bytes.slice_put_before h

end TronaMsg

end Posix

end Trona
