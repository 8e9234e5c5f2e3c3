import Mathlib.Algebra.Group.Nat.Defs
import Trona.Lib.Bytes

/-!
# Console input and output

`WriteConsoleA` and `ReadConsoleA` (`win32/console.rs`) move bytes in chunks, with a call to VFS for
each, and store how many were moved. After an error they store zero, whatever was moved before it:
`console_counted_iff`.
-/

namespace Trona

namespace Console

/-- The bytes that VFS has accepted or returned, and the buffer of the caller. -/
structure Moved where
  bytes : List UInt8
  buf : Bytes

/-- `vfs_write_fd` and `vfs_read_fd`. -/
inductive ConsoleOp
  | write
  | read

def ConsoleOp.chunkMax : ConsoleOp → ℕ
  | write => 144
  | read => 152

/-- VFS accepts `n` bytes of the chunk at `total`, or returns the next `n` bytes of its input. -/
def ConsoleOp.serve (input : Bytes) (total n : ℕ) (s : Moved) : ConsoleOp → Moved
  | write => { s with bytes := s.bytes ++ s.buf.slice total n }
  | read =>
    let bytes := input.slice s.bytes.length n
    ⟨s.bytes ++ bytes, s.buf.put total bytes⟩

/-- The chunk of the loop when `total` bytes are moved. -/
def ConsoleOp.chunk (op : ConsoleOp) (count total : ℕ) : ℕ := min (count - total) op.chunkMax

/-- The loop, when `total` bytes are moved. VFS moves `n` bytes and reports their number, or the
    call fails; `vfs_read_fd` ends at a number of zero before it copies, which is the same. The
    replies that are left are returned too. -/
def chunkLoop (op : ConsoleOp) (input : Bytes) (count : ℕ) : List (Except ℕ ℕ) → (total : ℕ) →
    Moved → Option (Except ℕ ℕ × List (Except ℕ ℕ) × Moved)
  | [], total, s => if total < count then none else some (.ok total, [], s)
  | reply :: replies, total, s =>
    if total < count then
      match reply with
      | .error e => some (.error e, replies, s)
      | .ok n =>
        let s := op.serve input total n s
        if n < op.chunk count total then some (.ok ((total + n) % 2 ^ 64), replies, s)
        else chunkLoop op input count replies ((total + n) % 2 ^ 64) s
    else some (.ok total, reply :: replies, s)

/-- VFS moves at most the chunk that it is asked for. -/
def InChunks (op : ConsoleOp) (count : ℕ) : List (Except ℕ ℕ) → (total : ℕ) → Prop
  | .ok n :: replies, total => n ≤ op.chunk count total ∧ InChunks op count replies (total + n)
  | _, _ => True

/-- What `WriteConsoleA` and `ReadConsoleA` store, as a `DWORD`. -/
def storedCount : Except ℕ ℕ → ℕ
  | .ok n => n % 2 ^ 32
  | .error _ => 0

/-- The count is that of the bytes that were moved, and these are the first of the buffer. -/
def Counted (res : Except ℕ ℕ) (s : Moved) : Prop :=
  storedCount res = s.bytes.length ∧ s.buf.slice 0 (storedCount res) = s.bytes

variable {op : ConsoleOp} {input buf : Bytes} {count total n : ℕ} {replies : List (Except ℕ ℕ)}
  {res : Except ℕ ℕ} {s s' : Moved}

/-- The bytes that were moved are the first `total` of the buffer. -/
def Moved.Upto (s : Moved) (total : ℕ) : Prop :=
  s.bytes.length = total ∧ s.buf.slice 0 total = s.bytes

theorem Moved.Upto.serve (h : s.Upto total) : (op.serve input total n s).Upto (total + n) := by
  cases op with
  | write => simp [Upto, ConsoleOp.serve, Bytes.slice_add, h.1, h.2]
  | read =>
    have hput : (s.buf.put total (input.slice total n)).slice total
        (input.slice total n).length = _ := Bytes.slice_put
    rw [Bytes.length_slice] at hput
    simp [Upto, ConsoleOp.serve, Bytes.slice_add, h.1, Bytes.slice_put_before, hput, h.2]

/-- A run that uses all replies ends with the last of them. -/
theorem chunkLoop_run (hcount : count < 2 ^ 32) (hchunks : InChunks op count replies total)
    (hs : s.Upto total) (hle : total ≤ count)
    (h : chunkLoop op input count replies total s = some (res, [], s')) :
    ∃ n ≤ count, s'.Upto n ∧ total ≤ n ∧ ((res = .ok n ∧ ∀ e, .error e ∉ replies) ∨
      ∃ e, res = .error e ∧ .error e ∈ replies ∧ (n = total ↔ replies = [.error e])) := by
  induction replies generalizing total s with
  | nil =>
    rw [chunkLoop, Option.ite_none_left_eq_some] at h
    obtain ⟨hlt, h⟩ := h
    cases h
    exact ⟨total, hle, hs, Nat.le_refl _, .inl ⟨rfl, by simp⟩⟩
  | cons reply replies ih =>
    unfold chunkLoop at h
    split at h
    · rename_i hlt
      cases reply with
      | error e =>
        cases h
        exact ⟨total, hle, hs, Nat.le_refl _, .inr ⟨e, rfl, .head _, by simp⟩⟩
      | ok n =>
        have hpos : 0 < op.chunkMax := by cases op <;> decide
        have hnext := @Moved.Upto.serve op input _ n _ hs
        obtain ⟨hn, hchunks⟩ := hchunks
        rw [ConsoleOp.chunk] at hn
        -- the sum does not wrap
        have hsum : (total + n) % 2 ^ 64 = total + n := Nat.mod_eq_of_lt (by omega)
        simp only [hsum, ConsoleOp.chunk] at h
        split at h
        · cases h
          exact ⟨_, by omega, hnext, by omega, .inl ⟨rfl, by simp⟩⟩
        · obtain ⟨n', hn', hs', hle', ⟨hres, hno⟩ | ⟨e, hres, hmem, -⟩⟩ :=
            ih hchunks hnext (by omega) h
          · exact ⟨n', hn', hs', by omega, .inl ⟨hres, by simpa using hno⟩⟩
          · exact ⟨n', hn', hs', by omega, .inr ⟨e, hres, .tail _ hmem, by simp; omega⟩⟩
    · cases h

/-- If VFS moves at most the chunk that it is asked for, then the count is right exactly when no
    error comes after other replies. -/
theorem console_counted_iff (hcount : count < 2 ^ 32) (hchunks : InChunks op count replies 0)
    (h : chunkLoop op input count replies 0 ⟨[], buf⟩ = some (res, [], s')) :
    Counted res s' ↔ ∀ e, .error e ∈ replies → replies = [.error e] := by
  have hstart : Moved.Upto ⟨[], buf⟩ 0 := ⟨rfl, rfl⟩
  obtain ⟨n, hn, ⟨hlen, hbuf⟩, -, ⟨rfl, hno⟩ | ⟨e, rfl, hmem, hzero⟩⟩ :=
    chunkLoop_run hcount hchunks hstart (Nat.zero_le _) h
  · rw [Counted, storedCount, Nat.mod_eq_of_lt (by omega), hlen]
    exact iff_of_true ⟨rfl, hbuf⟩ fun e he => absurd he (hno e)
  · rw [Counted, storedCount, hlen]
    constructor
    · rintro ⟨h0, -⟩ e' he'
      rw [hzero.1 h0.symm] at he' ⊢
      rw [List.mem_singleton.1 he']
    · intro honly
      obtain rfl := hzero.2 (honly e hmem)
      exact ⟨rfl, hbuf⟩

theorem console_counted_iff_short : Counted (.ok 2) ⟨[7, 7], fun _ => 7⟩ :=
  (@console_counted_iff .write (fun _ => 0) (fun _ => 7) 3 [.ok 2] _ _ (by decide)
    ⟨by decide, trivial⟩ rfl).2 (by simp)

/-- An error after a chunk of 144 bytes that VFS has accepted: zero is stored. -/
theorem console_miscounted : InChunks .write 145 [.ok 144, .error 5] 0 ∧
    ∃ s', chunkLoop .write (fun _ => 0) 145 [.ok 144, .error 5] 0 ⟨[], fun _ => 7⟩ =
      some (.error 5, [], s') ∧ ¬Counted (.error 5) s' :=
  ⟨⟨by decide, trivial⟩, _, rfl, fun h => absurd h.1 (by decide +kernel)⟩

end Console

end Trona
