import Trona.Lib.Bytes
import Trona.Posix.Stream

/-!
# Reading from a file

`posix_read` (`posix/file.rs`) asks VFS for large reads through memory that the two share
(`posix/bulk.rs`), and otherwise, or when that is not to be had, for chunks that fit into a
message. VFS answers with bytes from where the file is at, and the file is after them then.

`posixRead_stream_iff` says when the caller gets the bytes that follow the place of the file
at the start, and the file is right after them at the end. The read through shared memory
gives up all that it has read when it is interrupted, and the bytes are read in chunks from
there on; so no interruption may come after a part of the read.
-/

namespace Trona

namespace Posix

/-! ## The file and the buffers -/

/-- What a read works on: the bytes of the file and where it is at, the memory that is shared
    with VFS, and the buffer of the caller. A file has an end where VFS answers with no more
    bytes. -/
structure ReadWorld where
  stream : Bytes
  cursor : ℕ
  shm : Bytes
  buf : Bytes

/-- `VFS_READ`. -/
def vfsReadLabel : ℕ := 2

/-- `VFS_BULK_READ`. -/
def vfsBulkReadLabel : ℕ := 65

/-- VFS answers with up to `n` bytes, not more than it is asked for, in the shared memory or
    in the reply. -/
def answerBytes (n : ℕ) (msg : Msg) (w : ReadWorld) : Msg × ReadWorld :=
  let k := min n (msg.reg 1)
  let bytes := w.stream.slice w.cursor k
  let w := { w with cursor := w.cursor + k }
  if msg.label = vfsBulkReadLabel then
    ({ label := tronaOk, regs := [k] }, { w with shm := w.shm.put (msg.reg 2) bytes })
  else ({ label := tronaOk, regs := [k], data := bytes }, w)

def vfsRead : Server Taken ReadWorld := transferServer answerBytes

/-! ## Chunks in messages -/

section

variable {κ : Type} (fd : ℤ) (count : ℕ)

/-- The transfer of a file to the buffer, in messages. -/
def readOp : StreamOp ReadWorld where
  count := count
  chunkMax := 152
  stopsAtEnd := true
  msg _ chunk := { label := vfsReadLabel, length := 2, regs := [fdReg fd, chunk] }
  store total reply w :=
    { w with buf := w.buf.put total ((reply.data.take (reply.reg 0)).take (count - total)) }

/-! ## Shared memory -/

/-- The request for a chunk in shared memory. -/
def bulkReadMsg (chunk : ℕ) : Msg where
  label := vfsBulkReadLabel
  length := 3
  regs := [fdReg fd, chunk, 0]

/-- The loop of `bulk_read`, when `total` bytes are read. -/
def bulkReadLoop (srv : Server κ ReadWorld) (total : ℕ) (calls : List (Retried κ)) :
    CallM ReadWorld (Option ℕ × List (Retried κ)) :=
  if total < count then
    match calls with
    | [] => throw .waiting
    | o :: calls => do
      let chunk := min (count - total) bulkShmSize
      let r ← ipcCallRetry srv (bulkReadMsg fd chunk) o
      if r.err = tronaInterrupted then return (none, calls)
      else if r.Failed then return (if total > 0 then some total else none, calls)
      else
        let got := r.reply.reg 0
        if got = 0 then return (some total, calls)
        else do
          modify fun w => { w with buf := w.buf.put total (w.shm.slice 0 got) }
          let total := (total + got) % 2 ^ 64
          if got < chunk then return (some total, calls) else bulkReadLoop srv total calls
  else return (some total, calls)

/-- Read from a file through shared memory, if it is available. -/
def bulkRead (srv : Server κ ReadWorld) (available : Bool) (calls : List (Retried κ)) :
    CallM ReadWorld (Option ℕ × List (Retried κ)) :=
  if available = true then bulkReadLoop fd count srv 0 calls else return (none, calls)

/-- Read from a file: by the calls `bulk` through shared memory, and by the calls `calls` in
    messages. It returns with those that it has not made. -/
def posixRead (srv : Server κ ReadWorld) (available : Bool) (bulk calls : List (Retried κ)) :
    CallM ReadWorld (ℤ × List (Retried κ) × List (Retried κ)) := do
  let legacy := fun bulk => do
    let p ← streamLoop (readOp fd count) srv 0 calls
    return (p.1, bulk, p.2)
  if count > 4096 then do
    let p ← bulkRead fd count srv available bulk
    match p.1 with
    | some n => return (toI64 n, p.2, calls)
    | none => legacy p.2
  else legacy bulk

end

/-! ## What a run does -/

/-- The next `n` bytes of the file, after `total`, are in the buffer, and the file is after
    them. -/
structure ReadMoved (w : ReadWorld) (total n : ℕ) (w' : ReadWorld) : Prop where
  stream : w'.stream = w.stream
  cursor : w'.cursor = w.cursor + n
  kept : ∀ i < total, w'.buf i = w.buf i
  bytes : ∀ i < n, w'.buf (total + i) = w.stream (w.cursor + i)

theorem ReadMoved.refl (w : ReadWorld) (total : ℕ) : ReadMoved w total 0 w :=
  ⟨rfl, rfl, fun _ _ => rfl, fun _ h => absurd h (Nat.not_lt_zero _)⟩

theorem ReadMoved.trans {w w' w'' : ReadWorld} {total k n : ℕ} (h : ReadMoved w total k w')
    (h' : ReadMoved w' (total + k) n w'') : ReadMoved w total (k + n) w'' := by
  refine ⟨h'.stream.trans h.stream, by rw [h'.cursor, h.cursor, Nat.add_assoc], fun i hi => ?_,
    fun i hi => ?_⟩
  · rw [h'.kept i (by omega), h.kept i hi]
  · rcases Nat.lt_or_ge i k with hik | hik
    · rw [h'.kept _ (by omega), h.bytes i hik]
    · have hbyte := h'.bytes (i - k) (by omega)
      rw [h.cursor, h.stream] at hbyte
      rw [show total + i = total + k + (i - k) by omega, hbyte]
      congr 1
      omega

section

variable {fd : ℤ} {count : ℕ} {w w' : ReadWorld}

/-- Bytes that are put into the buffer from where the file is at are moved as they should. -/
theorem ReadMoved.put {total k : ℕ} (hstream : w'.stream = w.stream)
    (hcursor : w'.cursor = w.cursor + k)
    (hbuf : w'.buf = w.buf.put total (w.stream.slice w.cursor k)) : ReadMoved w total k w' := by
  refine ⟨hstream, hcursor, fun i hi => ?_, fun i hi => ?_⟩
  · rw [hbuf, Bytes.put_outside (.inl hi)]
  · rw [hbuf, Bytes.put_inside (by rwa [Bytes.length_slice]), Bytes.getD_slice hi]

theorem answerBytes_zero (msg : Msg) (w : ReadWorld) : (answerBytes 0 msg w).2 = w := by
  unfold answerBytes
  split <;> simp [Bytes.slice]

/-- How VFS serves a read in messages. -/
def readSpec (fd : ℤ) (hcount : count < 2 ^ 63) : StreamSpec (readOp fd count) answerBytes where
  pos := ReadWorld.cursor
  Moved := ReadMoved
  count_lt := hcount
  chunkMax_pos := show 0 < 152 by decide
  refl w total _ := .refl w total
  trans := .trans
  pos_eq h := h.cursor
  label n msg w := by
    unfold answerBytes
    split <;> rfl
  move_zero := answerBytes_zero
  reg n w total chunk _ := rfl
  pos_move n w total chunk _ := rfl
  moved n w total chunk h := by
    have hle : total + chunk ≤ count := h
    refine .put rfl rfl ?_
    change w.buf.put total (((w.stream.slice w.cursor (min n chunk)).take (min n chunk)).take
      (count - total)) = _
    rw [List.take_take, List.take_of_length_le]
    rw [Bytes.length_slice]
    omega

/-- A part of the read through shared memory is given up: a reply is lost, or the read is
    interrupted after a part of it. -/
def GivenUp (bulk : List (Retried Taken)) : Prop :=
  (∃ o ∈ bulk, o.Lost) ∨ (∃ o ∈ bulk, o.Interrupted) ∧ ∃ o ∈ bulk, o.Replied

/-- What the read through shared memory does from `total` on, when it makes all of the
    calls. -/
structure BulkRun (count total : ℕ) (bulk : List (Retried Taken)) (res : Option ℕ)
    (w w' : ReadWorld) : Prop where
  done : ∀ n, res = some n → (total ≤ n ∧ n ≤ count ∧ ∀ o ∈ bulk, ¬o.Interrupted) ∧
    ReadMoved w total (n - total) w'
  left : res = none → (0 < total → ∃ o ∈ bulk, o.Interrupted) ∧ w'.stream = w.stream ∧
    w.cursor ≤ w'.cursor ∧ (w'.cursor = w.cursor ↔ ¬GivenUp bulk)

namespace BulkRun

variable {total k : ℕ} {o : Retried Taken} {bulk : List (Retried Taken)} {res : Option ℕ}
  {w w₁ w' : ReadWorld}

/-- The loop returns what is read. -/
theorem stop (hk : total + k ≤ count) (hno : ∀ o ∈ bulk, ¬o.Interrupted)
    (hmoved : ReadMoved w total k w') : BulkRun count total bulk (some (total + k)) w w' := by
  refine ⟨fun n hn => ?_, fun h => by simp at h⟩
  obtain rfl := Option.some.inj hn
  refine ⟨⟨by omega, hk, hno⟩, ?_⟩
  rwa [Nat.add_sub_cancel_left]

/-- The loop gives up. -/
theorem giveUp (hint : 0 < total → o.Interrupted) (hr : ¬o.Replied) (hstream : w'.stream = w.stream)
    (hle : w.cursor ≤ w'.cursor) (hlost : w'.cursor = w.cursor ↔ ¬o.Lost) :
    BulkRun count total [o] none w w' := by
  refine ⟨fun n hn => by simp at hn,
    fun _ => ⟨fun h => ⟨o, List.mem_cons_self, hint h⟩, hstream, hle, ?_⟩⟩
  simp [hlost, GivenUp, hr]

/-- A chunk of which `k` bytes are read comes first. -/
theorem replied (h : BulkRun count (total + k) bulk res w₁ w') (hk : 0 < k) (hr : o.Replied)
    (hi : ¬o.Interrupted) (hmoved : ReadMoved w total k w₁) :
    BulkRun count total (o :: bulk) res w w' := by
  refine ⟨fun n hn => ?_, fun hnone => ?_⟩
  · obtain ⟨⟨hlo, hhi, hno⟩, hrest⟩ := h.done n hn
    refine ⟨⟨by omega, hhi, List.forall_mem_cons.2 ⟨hi, hno⟩⟩, ?_⟩
    have hall := hmoved.trans hrest
    rwa [show k + (n - (total + k)) = n - total by omega] at hall
  · -- The bytes of the chunk are given up, as an interruption follows.
    obtain ⟨hint, hstream, hle, -⟩ := h.left hnone
    obtain ⟨o', ho', hint'⟩ := hint (by omega)
    have hcursor := hmoved.cursor
    have hmem : ∃ o' ∈ o :: bulk, o'.Interrupted := ⟨o', List.mem_cons_of_mem o ho', hint'⟩
    refine ⟨fun _ => hmem, hstream.trans hmoved.stream, by omega, iff_of_false (by omega) ?_⟩
    exact not_not.2 (.inr ⟨hmem, o, List.mem_cons_self, hr⟩)

end BulkRun

theorem bulkReadLoop_run (hcount : count < 2 ^ 63) {total : ℕ} {bulk : List (Retried Taken)}
    (htotal : total ≤ count) :
    wp (bulkReadLoop fd count vfsRead total bulk)
      (fun p w' => p.2 = [] → BulkRun count total bulk p.1 w w') (fun _ _ => True) w := by
  induction bulk generalizing total w with
  | nil =>
    refine wp_ite.2 ⟨fun _ => wp_throw.2 trivial, fun h => wp_pure.2 fun _ => ?_⟩
    exact .stop htotal (fun _ h => absurd h List.not_mem_nil) (.refl w total)
  | cons o bulk ih =>
    refine wp_ite.2 ⟨fun hlt => wp_bind.2 ?_,
      fun h => wp_pure.2 fun hnil => absurd hnil (List.cons_ne_nil _ _)⟩
    generalize hchunk : min (count - total) bulkShmSize = chunk
    have hshm := bulkShmSize_pos
    refine wp_transfer (fun n ho hr hi => ?_) (fun n r ho hr hi hlost => ?_)
      fun res hf hlo hhi hint hr hlost => ?_
    · rw [if_neg (by simp [tronaInterrupted]),
        if_neg (by simp [CallResult.Failed, answerBytes, bulkReadMsg])]
      have hgot : (answerBytes n (bulkReadMsg fd chunk) w).1.reg 0 = min n chunk := rfl
      have hsum : (total + min n chunk) % 2 ^ 64 = total + min n chunk :=
        Nat.mod_eq_of_lt (by omega)
      simp only [hgot, hsum]
      refine wp_ite.2 ⟨fun hzero => wp_pure.2 fun hnil => ?_,
        fun hgot => wp_bind.2 (wp_modify.2 ?_)⟩
      · obtain rfl : bulk = [] := hnil
        obtain rfl : n = 0 := by omega
        exact .stop htotal (by simpa using hi) (.refl w total)
      · have hmoved : ReadMoved w total (min n chunk)
            { (answerBytes n (bulkReadMsg fd chunk) w).2 with
              buf := Bytes.put total
                ((answerBytes n (bulkReadMsg fd chunk) w).2.shm.slice 0 (min n chunk))
                (answerBytes n (bulkReadMsg fd chunk) w).2.buf } := by
          refine .put rfl rfl ?_
          have hslice : (w.shm.put 0 (w.stream.slice w.cursor (min n chunk))).slice 0
              (w.stream.slice w.cursor (min n chunk)).length = _ := Bytes.slice_put
          rw [Bytes.length_slice] at hslice
          exact congrArg (fun bs => Bytes.put total bs w.buf) hslice
        refine wp_ite.2 ⟨fun _ => wp_pure.2 fun hnil => ?_, fun hfull => ?_⟩
        · obtain rfl : bulk = [] := hnil
          exact .stop (by omega) (by simpa using hi) hmoved
        · refine wp_post (ih (by omega)) fun p w' hp hnil => ?_
          exact (hp hnil).replied (by omega) hr hi hmoved
    · rw [if_pos rfl]
      refine wp_pure.2 fun hnil => ?_
      obtain rfl : bulk = [] := hnil
      refine .giveUp (fun _ => hi) hr rfl (Nat.le_add_right _ _) ?_
      change w.cursor + min n chunk = w.cursor ↔ _
      rw [hlost]
      omega
    · by_cases hintr : res.err = tronaInterrupted
      · rw [if_pos hintr]
        refine wp_pure.2 fun hnil => ?_
        obtain rfl : bulk = [] := hnil
        exact .giveUp (fun _ => hint.1 hintr) hr rfl le_rfl (by simp [hlost])
      · rw [if_neg hintr, if_pos hf]
        refine wp_pure.2 fun hnil => ?_
        obtain rfl : bulk = [] := hnil
        split
        · exact .stop htotal (by simpa using mt hint.2 hintr) (.refl w total)
        · exact .giveUp (fun h => absurd h (by omega)) hr rfl le_rfl (by simp [hlost])

/-- The caller has the bytes that it is told of, and the file is right after them. -/
def ReadStream (w w' : ReadWorld) (n : ℕ) : Prop :=
  (∀ i < n, w'.buf i = w.stream (w.cursor + i)) ∧ w'.cursor = w.cursor + n

theorem ReadMoved.readStream {n : ℕ} (h : ReadMoved w 0 n w') : ReadStream w w' n := by
  refine ⟨fun i hi => ?_, h.cursor⟩
  have hbyte := h.bytes i hi
  rwa [Nat.zero_add] at hbyte

/-- The read in messages that follows on one through shared memory from `w` to `w₁`, of which
    something is given up or not. -/
theorem StreamRun.readStream_iff {hcount : count < 2 ^ 63} {calls : List (Retried Taken)} {ret : ℤ}
    {w₁ : ReadWorld} {given : Prop} (h : StreamRun (readSpec fd hcount) 0 calls ret w₁ w')
    (hstream : w₁.stream = w.stream) (hle : w.cursor ≤ w₁.cursor)
    (hgiven : w₁.cursor = w.cursor ↔ ¬given) :
    (0 ≤ ret → ReadStream w w' ret.toNat) ↔
      ((calls = [] ∨ ∃ o ∈ calls, o.Replied) → ¬given ∧ NothingLost calls) := by
  have hnonneg : 0 ≤ ret ↔ calls = [] ∨ ∃ o ∈ calls, o.Replied := by
    rw [h.nonneg, or_iff_right (lt_irrefl 0)]
  rw [← hnonneg]
  refine forall_congr' fun hret => ⟨fun hread => ?_, fun hcond => ?_⟩
  · -- Where the file is at the end tells of every byte that is missing.
    have hcursor := hread.2
    by_cases hno : NothingLost calls
    · have hmoved : w'.cursor = _ := (h.once hret hno).cursor
      exact ⟨hgiven.1 (by omega), hno⟩
    · have hmore : w₁.cursor + _ < w'.cursor := h.more hret hno
      omega
  · obtain ⟨hbytes, hcursor⟩ := (h.once hret hcond.2).readStream
    have hw := hgiven.2 hcond.1
    rw [hstream, hw] at hbytes
    rw [hw] at hcursor
    exact ⟨hbytes, hcursor⟩

/-- For every count, all answers of VFS and all interruptions, with and without the shared
    memory, in a run that makes the given calls: when a number is returned, the buffer starts
    with that many bytes of the file from where it was at, and the file is right after them, if
    and only if nothing is given up of the read through shared memory, and no reply to a
    request in a message that took bytes is lost. A run that ends without a reply to such a
    request returns no number. -/
theorem posixRead_stream_iff (hcount : count < 2 ^ 63) {available : Bool}
    {bulk calls : List (Retried Taken)} {ret : ℤ} {w w' : ReadWorld}
    (hrun : (posixRead fd count vfsRead available bulk calls).run w = .ok (ret, [], []) w') :
    (0 ≤ ret → (∀ i < ret.toNat, w'.buf i = w.stream (w.cursor + i)) ∧
        w'.cursor = w.cursor + ret.toNat) ↔
      ((calls = [] ∨ ∃ o ∈ calls, o.Replied) → ¬GivenUp bulk ∧ ∀ o ∈ calls, ¬o.Lost) := by
  have hlegacy : ∀ (rest : List (Retried Taken)) (w₁ : ReadWorld),
      (rest = [] → w₁.stream = w.stream ∧
      w.cursor ≤ w₁.cursor ∧ (w₁.cursor = w.cursor ↔ ¬GivenUp bulk)) →
      wp (do let p ← streamLoop (readOp fd count) vfsRead 0 calls; return (p.1, rest, p.2))
        (fun p w' => p.2 = ([], []) → ((0 ≤ p.1 → ReadStream w w' p.1.toNat) ↔
          ((calls = [] ∨ ∃ o ∈ calls, o.Replied) → ¬GivenUp bulk ∧ NothingLost calls)))
        (fun _ _ => True) w₁ := by
    intro rest w₁ hbulk
    refine wp_bind.2 (wp_post (streamLoop_run (readSpec fd hcount) (Nat.zero_le _))
      fun p w' h => wp_pure.2 fun hmade => ?_)
    obtain ⟨hrest, hcalls⟩ := Prod.mk.inj hmade
    obtain ⟨hstream, hle, hgiven⟩ := hbulk hrest
    exact (h hcalls).readStream_iff hstream hle hgiven
  have hunused : bulk = [] → w.stream = w.stream ∧ w.cursor ≤ w.cursor ∧
      (w.cursor = w.cursor ↔ ¬GivenUp bulk) := by
    rintro rfl
    exact ⟨rfl, le_rfl, iff_of_true rfl (by simp [GivenUp])⟩
  have key : wp (posixRead fd count vfsRead available bulk calls)
      (fun p w' => p.2 = ([], []) → ((0 ≤ p.1 → ReadStream w w' p.1.toNat) ↔
        ((calls = [] ∨ ∃ o ∈ calls, o.Replied) → ¬GivenUp bulk ∧ NothingLost calls)))
      (fun _ _ => True) w := by
    refine wp_ite.2 ⟨fun _ => wp_bind.2 (wp_ite.2 ⟨fun _ => ?_, fun _ => wp_pure.2 ?_⟩),
      fun _ => hlegacy bulk w hunused⟩
    · refine wp_post (bulkReadLoop_run hcount (Nat.zero_le _)) fun p w₁ h => ?_
      obtain ⟨res, rest⟩ := p
      cases res with
      | none => exact hlegacy rest w₁ fun hnil => ((h hnil).left rfl).2
      | some n =>
        refine wp_pure.2 fun hmade => ?_
        obtain ⟨hrest, hcalls⟩ := Prod.mk.inj hmade
        obtain ⟨⟨-, hn, hint⟩, hmoved⟩ := (h hrest).done n rfl
        have hgiven : ¬GivenUp bulk := by
          rintro (⟨o, ho, n, r, -, hlast⟩ | ⟨⟨o, ho, hi⟩, -⟩)
          · exact hint o ho ⟨_, _, hlast⟩
          · exact hint o ho hi
        refine iff_of_true (fun _ => ?_) fun _ => ⟨hgiven, ?_⟩
        · change ReadStream w w₁ (toI64 n).toNat
          rw [toI64_eq (by omega), Int.toNat_natCast]
          exact hmoved.readStream
        · rw [show calls = [] from hcalls]
          exact nothingLost_nil
    · exact hlegacy bulk w hunused
  exact wp_ok key hrun rfl

end

/-- A file whose bytes are the low bytes of their positions. -/
def countingFile : ReadWorld := ⟨fun i => UInt8.ofNat i, 0, fun _ => 0, fun _ => 0⟩

/-- VFS answers with up to `n` bytes. -/
def repliedWith (n : ℕ) : Retried Taken := ⟨0, .answered (.took n), by simp⟩

/-- VFS answers with up to `n` bytes, and its reply is lost; all signals had `SA_RESTART`. -/
def lostWith (n : ℕ) : Retried Taken := ⟨0, .interrupted (.took n) true, by simp⟩

theorem posixRead_stream_iff_countingFile :
    ∃ w', (posixRead 3 5000 vfsRead true [lostWith 0] [repliedWith 9]).run countingFile =
        .ok (9, [], []) w' ∧
      ((0 ≤ (9 : ℤ) → (∀ i < (9 : ℤ).toNat, w'.buf i = countingFile.stream (0 + i)) ∧
          w'.cursor = 0 + (9 : ℤ).toNat) ↔
        (([repliedWith 9] = [] ∨ ∃ o ∈ [repliedWith 9], o.Replied) →
          ¬GivenUp [lostWith 0] ∧ ∀ o ∈ [repliedWith 9], ¬o.Lost)) :=
  ⟨_, rfl, @posixRead_stream_iff 3 5000 (by decide) true [lostWith 0] [repliedWith 9] 9
    countingFile _ rfl⟩

/-- A byte is gone that VFS answered with in a reply that was lost. And a read through shared
    memory that is interrupted after its first chunk starts again with what follows that
    chunk, also when nothing was lost. -/
theorem posixRead_gap :
    (∃ w', (posixRead 3 1 vfsRead true [] [lostWith 1, repliedWith 1]).run countingFile =
        .ok (1, [], []) w' ∧ w'.cursor ≠ 1 ∧ w'.buf 0 ≠ countingFile.stream 0) ∧
    ∃ w', (posixRead 3 (bulkShmSize + 1) vfsRead true [repliedWith bulkShmSize, lostWith 0]
        [repliedWith 1]).run countingFile = .ok (1, [], []) w' ∧ w'.cursor ≠ 1 :=
  ⟨⟨_, rfl, by decide, by decide⟩, ⟨_, rfl, by decide⟩⟩

end Posix

end Trona
