import Trona.Lib.Bytes
import Trona.Posix.Transfer

/-!
# Writing at a place of a file

`posix_pwrite` (`posix/file.rs`) writes a large buffer through memory that is shared with VFS
(`posix/bulk.rs`), and otherwise, or when that fails, in chunks that fit into a message. A
request says where in the file its data goes, so that it may be sent any number of times.

Whatever is interrupted and whatever is sent again, every byte of the file is as it was or
is the byte of the buffer for its place (`Writes`). `posixPwrite_safe` is assembled from
that: it holds of every request that VFS serves, and is kept by whole runs.
-/

namespace Trona

namespace Posix

/-! ## The file and the requests -/

/-- What a write works on: the bytes of the file, and the memory that is shared with VFS. -/
structure WriteWorld where
  file : Bytes
  shm : Bytes

/-- `VFS_PWRITE`. -/
def vfsPwriteLabel : ℕ := 63

/-- `VFS_BULK_PWRITE`. -/
def vfsBulkPwriteLabel : ℕ := 72

/-- VFS writes up to `n` bytes of the data of a request at the place that it names. The data
    is in the shared memory or in the message. -/
def writePart (n : ℕ) (msg : Msg) (w : WriteWorld) : Msg × WriteWorld :=
  let data := if msg.label = vfsBulkPwriteLabel then w.shm.slice (msg.reg 3) (msg.reg 1)
    else msg.data.take (msg.reg 1)
  let taken := data.take n
  ({ label := tronaOk, regs := [taken.length] }, { w with file := w.file.put (msg.reg 2) taken })

def vfsPwrite : Server Taken WriteWorld := transferServer writePart

/-- The request to write data at a place. -/
def pwriteMsg (fd : ℤ) (place : ℕ) (data : List UInt8) : Msg where
  label := vfsPwriteLabel
  length := 3 + (data.length + 7) / 8
  regs := [fdReg fd, data.length, place]
  data := data

/-- The request to write a chunk of the shared memory at a place. -/
def bulkPwriteMsg (fd : ℤ) (place chunk : ℕ) : Msg where
  label := vfsBulkPwriteLabel
  length := 4
  regs := [fdReg fd, chunk, place, 0]

section

variable {κ : Type} (srv : Server κ WriteWorld) (fd : ℤ) (buf : File) (offset : ℕ)

/-- The loop of `bulk_pwrite`, when `total` bytes are written. -/
def bulkPwriteLoop (total : ℕ) (calls : List (Retried κ)) :
    CallM WriteWorld (Option ℕ × List (Retried κ)) :=
  if total < buf.size then do
    let chunk := min (buf.size - total) bulkShmSize
    modify fun w => { w with shm := w.shm.put 0 ((buf.bytes.drop total).take chunk) }
    if offset + total < 2 ^ 64 then
      match calls with
      | [] => throw .waiting
      | o :: calls => do
        let r ← ipcCallRetry srv (bulkPwriteMsg fd (offset + total) chunk) o
        if r.err = tronaInterrupted then return (none, calls)
        else if r.Failed then return (if total > 0 then some total else none, calls)
        else
          let wrote := r.reply.reg 0
          if wrote = 0 then return (some total, calls)
          else
            let total := (total + wrote) % 2 ^ 64
            if wrote < chunk then return (some total, calls) else bulkPwriteLoop total calls
    else return (if total > 0 then some total else none, calls)
  else return (some total, calls)

/-- Write to a file through shared memory, if it is available. -/
def bulkPwrite (available : Bool) (calls : List (Retried κ)) :
    CallM WriteWorld (Option ℕ × List (Retried κ)) :=
  if available = true then bulkPwriteLoop srv fd buf offset 0 calls else return (none, calls)

/-- The loop of `posix_pwrite` over messages, when `total` bytes are written. -/
def pwriteLoop (total : ℕ) (calls : List (Repeated κ)) :
    CallM WriteWorld (ℤ × List (Repeated κ)) :=
  if total < buf.size then
    let chunk := min (buf.size - total) 136
    if offset + total < 2 ^ 64 then
      match calls with
      | [] => throw .waiting
      | o :: calls => do
        let r ← ipcCallRetryIdempotent srv
          (pwriteMsg fd (offset + total) ((buf.bytes.drop total).take chunk)) o
        if r.Failed then
          return (if total > 0 then toI64 total
            else if r.err ≠ 0 then callErrToPosix r.err else tronaErrToPosix r.reply.label, calls)
        else
          let actual := r.reply.reg 0
          let total := (total + actual) % 2 ^ 64
          if actual < chunk then return (toI64 total, calls) else pwriteLoop total calls
    else return (if total > 0 then toI64 total else -22, calls)
  else return (toI64 total, calls)

/-- Write a buffer at a place of a file: by the calls `bulk` through shared memory, and by the
    calls `calls` in messages. It returns with those that it has not made. -/
def posixPwrite (offset : ℤ) (available : Bool) (bulk : List (Retried κ))
    (calls : List (Repeated κ)) :
    CallM WriteWorld (ℤ × List (Retried κ) × List (Repeated κ)) :=
  if offset < 0 then return (-22, bulk, calls)
  else do
    let legacy := fun bulk => do
      let p ← pwriteLoop srv fd buf offset.toNat 0 calls
      return (p.1, bulk, p.2)
    if buf.size > 4096 then do
      let p ← bulkPwrite srv fd buf offset.toNat available bulk
      match p.1 with
      | some n => return (toI64 n, p.2, calls)
      | none => legacy p.2
    else legacy bulk

end

/-! ## What a run does -/

section

variable {fd : ℤ} {buf : File} {offset : ℕ}

/-- Every byte of the file is as it was, or it is the byte of the buffer for its place. -/
def Writes (buf : File) (offset : ℕ) (w w' : WriteWorld) : Prop :=
  ∀ a, w'.file a = w.file a ∨
    (offset ≤ a ∧ a < offset + buf.size) ∧ w'.file a = buf.byte (a - offset)

instance : IsPreorder WriteWorld (Writes buf offset) where
  refl _ _ := .inl rfl
  trans w w' w'' h h' a := by
    rcases h' a with heq | hwritten
    · rw [heq]
      exact h a
    · exact .inr hwritten

/-- There are `n` bytes at the start of the buffer that are in their places. -/
structure Written (buf : File) (offset n : ℕ) (w : WriteWorld) : Prop where
  le : n ≤ buf.size
  bytes : ∀ i < n, w.file (offset + i) = buf.byte i

theorem Written.zero {w : WriteWorld} : Written buf offset 0 w :=
  ⟨Nat.zero_le _, fun i hi => absurd hi (Nat.not_lt_zero i)⟩

variable {w w' : WriteWorld} {total chunk : ℕ} {r : CallResult}

/-- Bytes that are in their places stay there. -/
theorem Writes.written {n : ℕ} (h : Writes buf offset w w') (hn : Written buf offset n w) :
    Written buf offset n w' := by
  refine ⟨hn.le, fun i hi => ?_⟩
  rcases h (offset + i) with heq | ⟨-, heq⟩
  · rw [heq, hn.bytes i hi]
  · rw [heq, Nat.add_sub_cancel_left]

/-- The byte of a part of the buffer. -/
theorem getD_part {k i : ℕ} (hi : i < k) :
    ((buf.bytes.drop total).take k).getD i 0 = buf.byte (total + i) := by
  rw [File.byte, List.getD_eq_getElem?_getD, List.getElem?_take_of_lt hi, List.getElem?_drop,
    List.getD_eq_getElem?_getD]

theorem length_part {k : ℕ} (hk : total + k ≤ buf.size) :
    ((buf.bytes.drop total).take k).length = k := by
  have hlen : buf.bytes.length = buf.size := rfl
  rw [List.length_take, List.length_drop]
  omega

/-- VFS writes a part of the buffer to its place, and reports its length. -/
def Carries (buf : File) (offset total chunk : ℕ) (msg : Msg) (w : WriteWorld) : Prop :=
  ∀ n, writePart n msg w = ({ label := tronaOk, regs := [min n chunk] },
    { w with file := w.file.put (offset + total) ((buf.bytes.drop total).take (min n chunk)) })

/-- What a call for a chunk does: it writes to the places of the chunk, and it reports bytes
    that are written. -/
structure ChunkCall (buf : File) (offset total chunk : ℕ) (w : WriteWorld) (r : CallResult)
    (w' : WriteWorld) : Prop where
  writes : Writes buf offset w w'
  le_err : -2 ^ 31 ≤ r.err
  err_lt : r.err < 2 ^ 31
  reported : ¬r.Failed → r.reply.reg 0 ≤ chunk ∧
    ∀ i < r.reply.reg 0, w'.file (offset + (total + i)) = buf.byte (total + i)

section

variable {total chunk : ℕ} {msg : Msg} {w : WriteWorld} (hk : total + chunk ≤ buf.size)

include hk

theorem carries_pwriteMsg :
    Carries buf offset total chunk
      (pwriteMsg fd (offset + total) ((buf.bytes.drop total).take chunk)) w := by
  intro n
  have hlabel : vfsPwriteLabel ≠ vfsBulkPwriteLabel := by decide
  have hlen : ((buf.bytes.drop total).take (min n chunk)).length = min n chunk :=
    length_part (by omega)
  simp only [writePart, pwriteMsg, if_neg hlabel, Msg.reg, List.getD_cons_succ, List.getD_cons_zero,
    length_part hk, List.take_take, min_self, hlen]

/-- The shared memory carries the chunk that was put into it. -/
theorem carries_bulkPwriteMsg :
    Carries buf offset total chunk (bulkPwriteMsg fd (offset + total) chunk)
      { w with shm := w.shm.put 0 ((buf.bytes.drop total).take chunk) } := by
  intro n
  have hlen : ((buf.bytes.drop total).take (min n chunk)).length = min n chunk :=
    length_part (by omega)
  have hslice : (w.shm.put 0 ((buf.bytes.drop total).take chunk)).slice 0
      ((buf.bytes.drop total).take chunk).length = _ := Bytes.slice_put
  rw [length_part hk] at hslice
  simp only [writePart, bulkPwriteMsg, if_true, Msg.reg, List.getD_cons_succ, List.getD_cons_zero,
    hslice, List.take_take, hlen]

/-- What VFS writes of a chunk goes to its place. -/
theorem Carries.written (h : Carries buf offset total chunk msg w) (n : ℕ) :
    Writes buf offset w (writePart n msg w).2 ∧ ∀ i < min n chunk,
      (writePart n msg w).2.file (offset + (total + i)) = buf.byte (total + i) := by
  have hlen : ((buf.bytes.drop total).take (min n chunk)).length = min n chunk :=
    length_part (by omega)
  have hinside : ∀ i < min n chunk,
      Bytes.put (offset + total) ((buf.bytes.drop total).take (min n chunk)) w.file
        (offset + total + i) = buf.byte (total + i) := fun i hi => by
    rw [Bytes.put_inside (by omega), getD_part hi]
  rw [h]
  refine ⟨fun a => ?_, fun i hi => by rw [← Nat.add_assoc]; exact hinside i hi⟩
  by_cases ha : offset + total ≤ a ∧ a < offset + total + min n chunk
  · refine .inr ⟨by omega, ?_⟩
    have hbyte := hinside (a - (offset + total)) (by omega)
    rwa [show offset + total + (a - (offset + total)) = a by omega,
      show total + (a - (offset + total)) = a - offset by omega] at hbyte
  · exact .inl (Bytes.put_outside (by omega))

variable {E : Waiting → WriteWorld → Prop}

theorem callCtx_chunk (h : Carries buf offset total chunk msg w) (a : Attempt Taken) :
    wp (callCtx vfsPwrite msg a) (ChunkCall buf offset total chunk w) E w := by
  have hrefl : Writes buf offset w w := refl_of _ w
  rcases a with _ | ⟨n | ⟨l, hl⟩, r⟩ | e | n | ⟨l, hl⟩
  · refine wp_callCtx_restart.2 ⟨hrefl, by simp [tronaRestart], by simp [tronaRestart],
      fun hok => ?_⟩
    exact absurd (.inl (by simp [tronaRestart])) hok
  · refine wp_callCtx_interrupted.2 ⟨(h.written hk n).1, by simp [tronaInterrupted],
      by simp [tronaInterrupted], fun hok => ?_⟩
    exact absurd (.inl (by simp [tronaInterrupted])) hok
  · refine wp_callCtx_interrupted.2 ⟨hrefl, by simp [tronaInterrupted], by simp [tronaInterrupted],
      fun hok => ?_⟩
    exact absurd (.inl (by simp [tronaInterrupted])) hok
  · exact wp_callCtx_failed.2 ⟨hrefl, e.le, e.lt, fun hok => absurd (.inl e.ne_zero) hok⟩
  · refine wp_callCtx_answered.2 ⟨(h.written hk n).1, by simp, by simp, fun _ => ?_⟩
    have hreg : (writePart n msg w).1.reg 0 = min n chunk := by rw [h]; rfl
    change (writePart n msg w).1.reg 0 ≤ chunk ∧ ∀ i < (writePart n msg w).1.reg 0, _
    rw [hreg]
    exact ⟨by omega, (h.written hk n).2⟩
  · exact wp_callCtx_answered.2 ⟨hrefl, by simp, by simp, fun hok => absurd (.inr hl) hok⟩

/-- The call is made again after every interruption; every time, VFS may write to the places
    of the chunk. -/
theorem ipcCallRetryIdempotent_chunk (o : Repeated Taken) :
    wp (ipcCallRetryIdempotent vfsPwrite
        (pwriteMsg fd (offset + total) ((buf.bytes.drop total).take chunk)) o)
      (ChunkCall buf offset total chunk w) E w := by
  rw [ipcCallRetryIdempotent]
  induction o.interruptions generalizing w with
  | nil => exact callCtx_chunk hk (carries_pwriteMsg hk) _
  | cons i is ih =>
    refine wp_bind.2 (wp_post (callCtx_chunk hk (carries_pwriteMsg hk) _) fun r w₁ h => ?_)
    refine wp_ite.2 ⟨fun _ => wp_post ih fun r' w' h' => ?_, fun _ => wp_pure.2 h⟩
    exact { h' with writes := trans_of _ h.writes h'.writes }

end

/-- The bytes that a call reports are in their places, with all before them. -/
theorem ChunkCall.written (h : ChunkCall buf offset total chunk w r w')
    (hwritten : Written buf offset total w) (hk : total + chunk ≤ buf.size) (hok : ¬r.Failed) :
    Written buf offset (total + r.reply.reg 0) w' := by
  have hle := (h.reported hok).1
  refine ⟨by omega, fun i hi => ?_⟩
  rcases Nat.lt_or_ge i total with hlt | hge
  · exact (h.writes.written hwritten).bytes i hlt
  · have hbyte := (h.reported hok).2 (i - total) (by omega)
    rwa [Nat.add_sub_cancel' hge] at hbyte

/-- What a loop does from `total` on: it writes to the places of the buffer, and when it
    returns a number, so many bytes of the buffer are in their places. -/
structure PwriteRun (buf : File) (offset : ℕ) (w : WriteWorld) (ret : ℤ) (w' : WriteWorld) :
    Prop where
  writes : Writes buf offset w w'
  written : 0 ≤ ret → Written buf offset ret.toNat w'

/-- The loop returns a number of bytes that are in their places. -/
theorem PwriteRun.stop (hwrites : Writes buf offset w w') (hwritten : Written buf offset total w') :
    PwriteRun buf offset w (toI64 total) w' := by
  have hsize := buf.size_lt
  have hle := hwritten.le
  rw [toI64_eq (by omega)]
  exact ⟨hwrites, fun _ => hwritten⟩

theorem PwriteRun.error {ret : ℤ} (hwrites : Writes buf offset w w') (hret : ret < 0) :
    PwriteRun buf offset w ret w' :=
  ⟨hwrites, fun h => by omega⟩

/-- What is returned where the place of the next byte is past the address space. -/
theorem PwriteRun.far (hwritten : Written buf offset total w) :
    PwriteRun buf offset w (if total > 0 then toI64 total else -22) w := by
  split
  · exact .stop (refl_of _ w) hwritten
  · exact .error (refl_of _ w) (by decide)

/-- What is returned after a call that has failed. -/
theorem PwriteRun.failed (h : ChunkCall buf offset total chunk w r w') (hr : r.Failed)
    (hwritten : Written buf offset total w) :
    PwriteRun buf offset w (if total > 0 then toI64 total
      else if r.err ≠ 0 then callErrToPosix r.err else tronaErrToPosix r.reply.label) w' := by
  split
  · exact .stop h.writes (h.writes.written hwritten)
  · refine .error h.writes ?_
    split
    · exact callErrToPosix_neg ‹_› h.le_err h.err_lt
    · exact tronaErrToPosix_neg (hr.resolve_left ‹_›)

theorem pwriteLoop_run {calls : List (Repeated Taken)} (hwritten : Written buf offset total w) :
    wp (pwriteLoop vfsPwrite fd buf offset total calls)
      (fun p w' => PwriteRun buf offset w p.1 w') (fun _ w' => Writes buf offset w w') w := by
  have hsize : buf.size < 2 ^ 64 := buf.size_lt.trans (by decide)
  induction calls generalizing total w
  all_goals
    refine wp_ite.2 ⟨fun _ => wp_ite.2 ⟨fun _ => ?_, fun _ => wp_pure.2 (.far hwritten)⟩,
      fun _ => wp_pure.2 (.stop (refl_of _ w) hwritten)⟩
  case nil => exact wp_throw.2 (refl_of _ w)
  case cons o calls ih _ _ =>
    have hle := hwritten.le
    refine wp_bind.2 (wp_post (ipcCallRetryIdempotent_chunk (by omega) o) fun r w₁ h => ?_)
    refine wp_ite.2 ⟨fun hf => ?_, fun hok => ?_⟩
    · exact wp_pure.2 (.failed h hf hwritten)
    · have hw₁ := h.written hwritten (by omega) hok
      have hsum : (total + r.reply.reg 0) % 2 ^ 64 = total + r.reply.reg 0 :=
        Nat.mod_eq_of_lt (hw₁.le.trans_lt hsize)
      simp only [hsum]
      refine wp_ite.2 ⟨fun _ => wp_pure.2 (.stop h.writes hw₁), fun _ => ?_⟩
      refine wp_mono (ih hw₁) (fun p w' hrun => ?_)
        fun _ w' hw' => trans_of _ h.writes hw'
      exact { hrun with writes := trans_of _ h.writes hrun.writes }

/-- The shared memory is no part of the file. -/
theorem writes_shm {shm : Bytes} : Writes buf offset w { w with shm } :=
  fun _ => .inl rfl

/-- What the write through shared memory returns, when it returns a number: so many bytes are in
    their places. -/
structure BulkPwriteRun (buf : File) (offset : ℕ) (w : WriteWorld) (res : Option ℕ)
    (w' : WriteWorld) : Prop where
  writes : Writes buf offset w w'
  done : ∀ n ∈ res, Written buf offset n w'

/-- It returns what it has written, or nothing at all. -/
theorem BulkPwriteRun.stop {res : Option ℕ} (hwrites : Writes buf offset w w')
    (hwritten : Written buf offset total w') (hres : ∀ n ∈ res, n = total) :
    BulkPwriteRun buf offset w res w' :=
  ⟨hwrites, fun n hn => hres n hn ▸ hwritten⟩

theorem bulkPwriteLoop_run {calls : List (Retried Taken)} (hwritten : Written buf offset total w) :
    wp (bulkPwriteLoop vfsPwrite fd buf offset total calls)
      (fun p w' => BulkPwriteRun buf offset w p.1 w') (fun _ w' => Writes buf offset w w') w := by
  have hsize : buf.size < 2 ^ 64 := buf.size_lt.trans (by decide)
  have hpart : ∀ total n, n ∈ (if total > 0 then some total else none) → n = total := by
    intro total n hn
    split at hn
    · exact (Option.some.inj hn).symm
    · simp at hn
  induction calls generalizing total w
  all_goals
    refine wp_ite.2 ⟨fun _ => wp_bind.2 (wp_modify.2 (wp_ite.2
      ⟨fun _ => ?_, fun _ => wp_pure.2 ?_⟩)),
      fun _ => wp_pure.2 (.stop (refl_of _ w) hwritten (by simp))⟩
    on_goal 2 => exact .stop writes_shm (writes_shm.written hwritten) (hpart total)
  case nil => exact wp_throw.2 writes_shm
  case cons o calls ih _ _ =>
    have hle := hwritten.le
    generalize hchunk : min (buf.size - total) bulkShmSize = chunk
    have hk : total + chunk ≤ buf.size := by omega
    refine wp_bind.2 ?_
    rw [ipcCallRetry_eq]
    refine wp_post (callCtx_chunk hk (carries_bulkPwriteMsg hk) o.last) fun r w₁ h => ?_
    have hwrites : Writes buf offset w w₁ := trans_of _ writes_shm h.writes
    have hw₁ := hwrites.written hwritten
    refine wp_ite.2 ⟨fun _ => wp_pure.2 (.stop hwrites hw₁ (by simp)), fun _ =>
      wp_ite.2 ⟨fun _ => wp_pure.2 (.stop hwrites hw₁ (hpart total)), fun hok => ?_⟩⟩
    have hreported := h.written (writes_shm.written hwritten) hk hok
    have hsum : (total + r.reply.reg 0) % 2 ^ 64 = total + r.reply.reg 0 :=
      Nat.mod_eq_of_lt (hreported.le.trans_lt hsize)
    simp only [hsum]
    refine wp_ite.2 ⟨fun _ => wp_pure.2 (.stop hwrites hw₁ (by simp)), fun _ =>
      wp_ite.2 ⟨fun _ => wp_pure.2 (.stop hwrites hreported (by simp)), fun _ => ?_⟩⟩
    refine wp_mono (ih hreported) (fun p w' hrun => ?_) fun _ w' hw' =>
      trans_of _ hwrites hw'
    exact { hrun with writes := trans_of _ hwrites hrun.writes }

/-- For every buffer, every place, all answers of VFS and all interruptions, with and without
    the shared memory: when a number is returned it is not larger than the
    buffer, and so many bytes of the buffer are at their places in the file. Whether the
    function has returned or not, no byte of the file outside the places of the buffer has
    changed. -/
theorem posixPwrite_safe {offset : ℤ} {available : Bool} {bulk : List (Retried Taken)}
    {calls : List (Repeated Taken)} {w : WriteWorld} :
    wp (posixPwrite vfsPwrite fd buf offset available bulk calls)
      (fun p w' => (0 ≤ p.1 → p.1.toNat ≤ buf.size ∧
          ∀ i < p.1.toNat, w'.file (offset.toNat + i) = buf.byte i) ∧
        ∀ a, ¬(offset.toNat ≤ a ∧ a < offset.toNat + buf.size) → w'.file a = w.file a)
      (fun _ w' => ∀ a, ¬(offset.toNat ≤ a ∧ a < offset.toNat + buf.size) → w'.file a = w.file a)
      w := by
  have houtside : ∀ w', Writes buf offset.toNat w w' →
      ∀ a, ¬(offset.toNat ≤ a ∧ a < offset.toNat + buf.size) → w'.file a = w.file a :=
    fun w' h a ha => (h a).resolve_right fun hin => ha hin.1
  have hlegacy : ∀ (rest : List (Retried Taken)) (w₁ : WriteWorld), Writes buf offset.toNat w w₁ →
      wp (do let p ← pwriteLoop vfsPwrite fd buf offset.toNat 0 calls; return (p.1, rest, p.2))
        (fun p w' => PwriteRun buf offset.toNat w p.1 w') (fun _ w' => Writes buf offset.toNat w w')
        w₁ := by
    intro rest w₁ hw₁
    refine wp_bind.2 (wp_mono (pwriteLoop_run .zero) (fun p w' hrun => ?_)
      fun _ w' hw' => trans_of _ hw₁ hw')
    exact wp_pure.2 { hrun with writes := trans_of _ hw₁ hrun.writes }
  have hrun : wp (posixPwrite vfsPwrite fd buf offset available bulk calls)
      (fun p w' => PwriteRun buf offset.toNat w p.1 w')
      (fun _ w' => Writes buf offset.toNat w w') w := by
    refine wp_ite.2 ⟨fun _ => wp_pure.2 (.error (refl_of _ w) (by show (-22 : ℤ) < 0; decide)),
      fun _ => ?_⟩
    refine wp_ite.2 ⟨fun _ => wp_bind.2 (wp_ite.2 ⟨fun _ => ?_, fun _ => wp_pure.2 ?_⟩),
      fun _ => hlegacy bulk w (refl_of _ w)⟩
    · refine wp_post (bulkPwriteLoop_run .zero) fun p w₁ h => ?_
      obtain ⟨res, rest⟩ := p
      cases res with
      | none => exact hlegacy rest w₁ h.writes
      | some n => exact wp_pure.2 (.stop h.writes (h.done n rfl))
    · exact hlegacy bulk w (refl_of _ w)
  refine wp_mono hrun (fun p w' h => ⟨fun hret => ?_, houtside w' h.writes⟩) fun _ => houtside
  exact ⟨(h.written hret).le, (h.written hret).bytes⟩

end

end Posix

end Trona
