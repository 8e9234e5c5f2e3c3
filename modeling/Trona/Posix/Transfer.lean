import Trona.Posix.Call

/-!
# Transfers of data

What the reads and writes of the POSIX layer have in common. A transfer is made in chunks,
with a call to VFS for each. VFS moves as many bytes of a chunk as it likes and reports
their number, or it refuses and does nothing (`Taken`).
-/

namespace Trona

namespace Posix

/-- A 64-bit number as a signed one. -/
def toI64 (n : ℕ) : ℤ := if n < 2 ^ 63 then n else n - 2 ^ 64

theorem toI64_eq {n : ℕ} (h : n < 2 ^ 63) : toI64 n = n := if_pos h

/-- `BULK_SHM_PAGES`. -/
def bulkShmPages : ℕ := 256

/-- The size of the memory that is shared with VFS. -/
def bulkShmSize : ℕ := bulkShmPages * 4096

theorem bulkShmSize_pos : 0 < bulkShmSize := by decide

/-- What VFS makes of a chunk: it takes up to `n` of its bytes, or it refuses. -/
inductive Taken
  | took (n : ℕ)
  | refused (label : ℕ) (ne_ok : label ≠ tronaOk)
  deriving DecidableEq

/-- What a function does after a call that has failed. -/
inductive OnFailure
  | again
  | ret (value : ℤ)

/-- After a failed call, `posix_read` and `posix_write` return what they have moved. If that
    is nothing, a call that was interrupted is made again when all signals had
    `SA_RESTART`. -/
def onFailure (total : ℕ) (r : CallResult) : OnFailure :=
  if r.err = tronaInterrupted then
    if total > 0 then .ret (toI64 total)
    else if r.lastRestart = true then .again
    else .ret (-4)
  else if total > 0 then .ret (toI64 total)
  else .ret (if r.err ≠ 0 then callErrToPosix r.err else tronaErrToPosix r.reply.label)

/-- The call has failed. -/
def CallResult.Failed (r : CallResult) : Prop := r.err ≠ 0 ∨ r.reply.label ≠ tronaOk

instance (r : CallResult) : Decidable r.Failed := inferInstanceAs (Decidable (_ ∨ _))

theorem onFailure_of_pos {total : ℕ} {r : CallResult} (h : 0 < total) :
    onFailure total r = .ret (toI64 total) := by
  rw [onFailure, if_pos h, if_pos h, ite_self]

/-- After a failed call with nothing moved, the call is made again or its error is
    returned. -/
theorem onFailure_zero {r : CallResult} (hr : r.Failed) (hlo : -2 ^ 31 ≤ r.err)
    (hhi : r.err < 2 ^ 31) : onFailure 0 r = .again ∨ ∃ v < 0, onFailure 0 r = .ret v := by
  by_cases hint : r.err = tronaInterrupted
  · by_cases hrestart : r.lastRestart = true
    · exact .inl (by simp [onFailure, hint, hrestart])
    · exact .inr ⟨-4, by decide, by simp [onFailure, hint, hrestart]⟩
  · refine .inr ⟨_, ?_, by simp only [onFailure, if_neg hint, lt_irrefl, if_false]; rfl⟩
    by_cases herr : r.err = 0
    · rw [if_neg (by simpa using herr)]
      exact tronaErrToPosix_neg (hr.resolve_left (by simpa using herr))
    · rw [if_pos herr]
      exact callErrToPosix_neg herr hlo hhi

/-! ## What becomes of a chunk -/

namespace Retried

variable (o : Retried Taken)

/-- VFS has taken bytes, and its reply has arrived. -/
def Replied : Prop := ∃ n, o.last = .answered (.took n)

/-- VFS has received the request, and its reply is lost. -/
def Interrupted : Prop := ∃ c r, o.last = .interrupted c r

/-- VFS has taken bytes, and its reply is lost. -/
def Lost : Prop := ∃ n r, 0 < n ∧ o.last = .interrupted (.took n) r

end Retried

/-- The server that moves bytes with `move` when it takes some. -/
def transferServer {S : Type} (move : ℕ → Msg → S → Msg × S) : Server Taken S := fun c msg s =>
  match c with
  | .took n => move n msg s
  | .refused label _ => ({ label }, s)

/-- A call to move a chunk: VFS moves bytes and replies, or it moves bytes and the reply is
    lost, or it moves none and the call fails. -/
theorem wp_transfer {S : Type} {move : ℕ → Msg → S → Msg × S} {msg : Msg} {o : Retried Taken}
    {Q : CallResult → S → Prop} {E : Waiting → S → Prop} {s : S}
    (hreplied : ∀ n, o.last = .answered (.took n) → o.Replied → ¬o.Interrupted →
      Q { err := 0, reply := (move n msg s).1 } (move n msg s).2)
    (hlost : ∀ n r, o.last = .interrupted (.took n) r → ¬o.Replied → o.Interrupted →
      (o.Lost ↔ 0 < n) → Q { err := tronaInterrupted, lastRestart := r } (move n msg s).2)
    (hnone : ∀ res : CallResult, res.Failed → -2 ^ 31 ≤ res.err → res.err < 2 ^ 31 →
      (res.err = tronaInterrupted ↔ o.Interrupted) → ¬o.Replied → ¬o.Lost → Q res s) :
    wp (ipcCallRetry (transferServer move) msg o) Q E s := by
  rw [ipcCallRetry_eq]
  rcases o with ⟨_, _ | ⟨n | ⟨l, hl⟩, r⟩ | e | n | ⟨l, hl⟩, hne⟩
  · exact absurd rfl hne
  · refine wp_callCtx_interrupted.2 (hlost n r rfl ?_ ⟨_, _, rfl⟩ ?_)
    · simp [Retried.Replied]
    · simp [Retried.Lost]
  · refine wp_callCtx_interrupted.2 (hnone { err := tronaInterrupted, lastRestart := r }
      (.inl (by simp [tronaInterrupted])) (by simp [tronaInterrupted])
      (by simp [tronaInterrupted]) ?_ ?_ ?_)
    · simp [Retried.Interrupted]
    · simp [Retried.Replied]
    · simp [Retried.Lost]
  · refine wp_callCtx_failed.2 (hnone { err := e.err } (.inl e.ne_zero) e.le e.lt ?_ ?_ ?_)
    · simpa [Retried.Interrupted] using e.ne_interrupted
    · simp [Retried.Replied]
    · simp [Retried.Lost]
  · refine wp_callCtx_answered.2 (hreplied n rfl ⟨n, rfl⟩ ?_)
    simp [Retried.Interrupted]
  · refine wp_callCtx_answered.2 (hnone { err := 0, reply := { label := l } } (.inr hl)
      (by simp) (by simp) ?_ ?_ ?_)
    · simp [Retried.Interrupted, tronaInterrupted]
    · simp [Retried.Replied]
    · simp [Retried.Lost]

end Posix

end Trona
