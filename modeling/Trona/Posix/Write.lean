import Trona.Lib.File
import Trona.Posix.Stream

/-!
# Writing to a file

`posix_write` (`posix/file.rs`) sends its buffer in chunks, and VFS appends a prefix of each
chunk that it receives. `posixWrite_exactlyOnce_iff` says for which interruptions the file
ends with exactly the bytes that the caller is told of: for those of requests of which VFS
had not taken a byte.
-/

namespace Trona

namespace Posix

/-- `VFS_WRITE`. -/
def vfsWriteLabel : ℕ := 3

/-- The request to write a chunk. -/
def writeMsg (fd : ℤ) (chunk : List UInt8) : Msg where
  label := vfsWriteLabel
  length := 2 + (chunk.length + 7) / 8
  regs := [fdReg fd, chunk.length]
  data := chunk

/-- The transfer of a buffer to a file. -/
def writeOp (S : Type) (fd : ℤ) (buf : File) : StreamOp S where
  count := buf.size
  chunkMax := 144
  stopsAtEnd := false
  msg total chunk := writeMsg fd ((buf.bytes.drop total).take chunk)
  store _ _ s := s

/-- Write a buffer to a file. -/
def posixWrite {κ S : Type} (srv : Server κ S) (fd : ℤ) (buf : File) (calls : List (Retried κ)) :
    CallM S (ℤ × List (Retried κ)) :=
  streamLoop (writeOp S fd buf) srv 0 calls

/-- VFS appends a prefix of the chunk to the file and reports its length. -/
def appendPrefix (n : ℕ) (msg : Msg) (file : List UInt8) : Msg × List UInt8 :=
  let taken := (msg.data.take (msg.reg 1)).take n
  ({ label := tronaOk, regs := [taken.length] }, file ++ taken)

def vfsWrite : Server Taken (List UInt8) := transferServer appendPrefix

section

variable {fd : ℤ} {buf : File}

/-- What VFS takes of a chunk of the buffer. -/
theorem appendPrefix_chunk (n total chunk : ℕ) (file : List UInt8) :
    appendPrefix n (writeMsg fd ((buf.bytes.drop total).take chunk)) file =
      ({ label := tronaOk, regs := [((buf.bytes.drop total).take (min n chunk)).length] },
        file ++ (buf.bytes.drop total).take (min n chunk)) := by
  simp [appendPrefix, writeMsg, Msg.reg, List.take_take]

/-- The position of the file is its end; bytes are moved as they should when they are the next
    ones of the buffer. -/
def writeSpec (fd : ℤ) (buf : File) : StreamSpec (writeOp (List UInt8) fd buf) appendPrefix where
  pos := List.length
  Moved file total n file' :=
    total + n ≤ buf.size ∧ file' = file ++ (buf.bytes.drop total).take n
  count_lt := buf.size_lt
  chunkMax_pos := show 0 < 144 by decide
  refl file total h := ⟨h, by simp⟩
  trans := by
    rintro file _ _ total k n ⟨-, rfl⟩ ⟨hle, rfl⟩
    refine ⟨by omega, ?_⟩
    rw [List.append_assoc, List.take_add, List.drop_drop]
  pos_eq := by
    rintro file _ total n ⟨hle, rfl⟩
    have hlen : buf.bytes.length = buf.size := rfl
    rw [List.length_append, List.length_take, List.length_drop]
    omega
  label _ _ _ := rfl
  move_zero _ _ := by simp [appendPrefix]
  reg n file total chunk h := by
    have hlen : buf.bytes.length = buf.size := rfl
    have hle : total + chunk ≤ buf.size := h
    change (appendPrefix n (writeMsg fd _) file).1.reg 0 = _
    rw [appendPrefix_chunk]
    simp only [Msg.reg, List.length_take, List.length_drop, List.getD_cons_zero]
    omega
  pos_move n file total chunk h := by
    have hlen : buf.bytes.length = buf.size := rfl
    have hle : total + chunk ≤ buf.size := h
    change (appendPrefix n (writeMsg fd _) file).2.length = _
    rw [appendPrefix_chunk]
    simp only [List.length_append, List.length_take, List.length_drop]
    omega
  moved n file total chunk h := by
    have hle : total + chunk ≤ buf.size := h
    change _ ∧ (appendPrefix n (writeMsg fd _) file).2 = _
    rw [appendPrefix_chunk]
    exact ⟨by omega, rfl⟩

/-- For every buffer, all interruptions and all answers of VFS, in a run that makes the
    given calls: when a number is returned, the bytes that VFS has appended are the first
    ones of the buffer, as many as that, if and only if no reply to a request that took
    bytes was lost. A run in which no chunk is ever reported returns no number. -/
theorem posixWrite_exactlyOnce_iff {calls : List (Retried Taken)} {ret : ℤ}
    {file file' : List UInt8}
    (hrun : (posixWrite vfsWrite fd buf calls).run file = .ok (ret, []) file') :
    (0 ≤ ret → file' = file ++ buf.bytes.take ret.toNat) ↔
      ((∃ o ∈ calls, o.Replied) → ∀ o ∈ calls, ¬o.Lost) := by
  obtain ⟨hle, hiff⟩ := streamLoop_moved_iff (writeSpec fd buf) hrun
  rw [← NothingLost, ← hiff]
  refine forall_congr' fun hret => ?_
  change _ ↔ 0 + ret.toNat ≤ buf.size ∧ file' = file ++ (buf.bytes.drop 0).take ret.toNat
  rw [Nat.zero_add, List.drop_zero]
  exact (and_iff_right (hle hret)).symm

end

/-- A buffer of one byte. -/
def oneByte : File := ⟨[7], by decide⟩

/-- VFS has taken a byte, and its reply is lost; all signals had `SA_RESTART`. -/
def lostByte : Retried Taken := ⟨0, .interrupted (.took 1) true, by decide⟩

/-- VFS has taken a byte and replied, after an interruption before it received the
    request. -/
def repliedByte : Retried Taken := ⟨1, .answered (.took 1), by decide⟩

theorem posixWrite_exactlyOnce_iff_oneByte :
    (posixWrite vfsWrite 3 oneByte [repliedByte]).run [] = .ok (1, []) [7] ∧
      ((0 ≤ (1 : ℤ) → [7] = [] ++ oneByte.bytes.take (1 : ℤ).toNat) ↔
        ((∃ o ∈ [repliedByte], o.Replied) → ∀ o ∈ [repliedByte], ¬o.Lost)) :=
  ⟨rfl, @posixWrite_exactlyOnce_iff 3 oneByte [repliedByte] 1 [] [7] rfl⟩

/-- The request is sent again after its reply is lost: the byte is written twice. -/
theorem posixWrite_twice :
    ∃ (fd ret : ℤ) (buf : File) (calls : List (Retried Taken)) (file : List UInt8),
      (posixWrite vfsWrite fd buf calls).run [] = .ok (ret, []) file ∧ 0 ≤ ret ∧
        file ≠ buf.bytes.take ret.toNat :=
  ⟨3, 1, oneByte, [lostByte, repliedByte], [7, 7], rfl, by decide, by decide⟩

end Posix

end Trona
