import Trona.Posix.Transfer

/-!
# Streams

The loop of `posix_read` and of `posix_write` (`posix/file.rs`): a transfer from or to the
place that a file is at, one chunk after the other. What VFS has moved is known to the
caller from its replies alone.

`streamLoop_run` is the result for both: the caller is told of exactly the bytes that were
moved, unless the reply to a request that moved bytes was lost. Then the file is further
than the caller is told.
-/

namespace Trona

namespace Posix

/-- A transfer to or from a file: how many bytes, in chunks of how many, by which requests,
    and what is done with a reply. A transfer that stops at the end of the file leaves the
    loop when a reply has no bytes. -/
structure StreamOp (S : Type) where
  count : ℕ
  chunkMax : ℕ
  stopsAtEnd : Bool
  msg : (total chunk : ℕ) → Msg
  store : (total : ℕ) → Msg → S → S

/-- The loop of a transfer, when `total` bytes are moved. It returns with the calls that it
    has not made. -/
def streamLoop {κ S : Type} (op : StreamOp S) (srv : Server κ S) (total : ℕ)
    (calls : List (Retried κ)) : CallM S (ℤ × List (Retried κ)) :=
  if total < op.count then
    match calls with
    | [] => throw .waiting
    | o :: calls => do
      let chunk := min (op.count - total) op.chunkMax
      let r ← ipcCallRetry srv (op.msg total chunk) o
      if r.Failed then
        match onFailure total r with
        | .again => streamLoop op srv total calls
        | .ret v => return (v, calls)
      else
        let actual := r.reply.reg 0
        if op.stopsAtEnd = true ∧ actual = 0 then return (toI64 total, calls)
        else do
          modify (op.store total r.reply)
          let total := (total + actual) % 2 ^ 64
          if actual < chunk then return (toI64 total, calls)
          else streamLoop op srv total calls
  else return (toI64 total, calls)

/-! ## What a run does -/

/-- No reply to a request that took bytes is lost. -/
def NothingLost (calls : List (Retried Taken)) : Prop := ∀ o ∈ calls, ¬o.Lost

@[simp] theorem nothingLost_nil : NothingLost [] := fun _ h => absurd h List.not_mem_nil

@[simp] theorem nothingLost_cons {o : Retried Taken} {calls : List (Retried Taken)} :
    NothingLost (o :: calls) ↔ ¬o.Lost ∧ NothingLost calls := List.forall_mem_cons

/-- How a server serves a transfer. The file is at a position, which every byte that is moved
    advances. `Moved s total n s'` says that from `s` to `s'` the next `n` bytes, after `total`,
    have been moved as they should. -/
structure StreamSpec {S : Type} (op : StreamOp S) (move : ℕ → Msg → S → Msg × S) where
  pos : S → ℕ
  Moved : S → (total n : ℕ) → S → Prop
  count_lt : op.count < 2 ^ 63
  chunkMax_pos : 0 < op.chunkMax
  refl : ∀ s {total}, total ≤ op.count → Moved s total 0 s
  trans : ∀ {s s' s'' total k n}, Moved s total k s' → Moved s' (total + k) n s'' →
    Moved s total (k + n) s''
  pos_eq : ∀ {s s' total n}, Moved s total n s' → pos s' = pos s + n
  label : ∀ n msg s, (move n msg s).1.label = tronaOk
  move_zero : ∀ msg s, (move 0 msg s).2 = s
  reg : ∀ n s {total chunk}, total + chunk ≤ op.count →
    (move n (op.msg total chunk) s).1.reg 0 = min n chunk
  pos_move : ∀ n s {total chunk}, total + chunk ≤ op.count →
    pos (move n (op.msg total chunk) s).2 = pos s + min n chunk
  moved : ∀ n s {total chunk}, total + chunk ≤ op.count →
    Moved s total (min n chunk)
      (op.store total (move n (op.msg total chunk) s).1 (move n (op.msg total chunk) s).2)

section

variable {S : Type} {op : StreamOp S} {move : ℕ → Msg → S → Msg × S} (spec : StreamSpec op move)

/-- What the loop does from `total` on, when it makes all of the calls. -/
structure StreamRun (total : ℕ) (calls : List (Retried Taken)) (ret : ℤ) (s s' : S) : Prop where
  nil_iff : total = 0 → (calls = [] ↔ op.count = 0)
  nonneg : 0 ≤ ret ↔ 0 < total ∨ calls = [] ∨ ∃ o ∈ calls, o.Replied
  le : 0 ≤ ret → total ≤ ret.toNat ∧ ret.toNat ≤ op.count
  once : 0 ≤ ret → NothingLost calls → spec.Moved s total (ret.toNat - total) s'
  more : 0 ≤ ret → ¬NothingLost calls → spec.pos s + (ret.toNat - total) < spec.pos s'

namespace StreamRun

variable {spec} {total k : ℕ} {o : Retried Taken} {calls : List (Retried Taken)} {ret : ℤ}
  {s s₁ s' : S}

/-- The loop returns what is moved. -/
theorem stop (htotal : total ≤ op.count) (h : 0 < total ∨ op.count = 0 ∧ calls = [])
    (honce : NothingLost calls → s' = s) (hmore : ¬NothingLost calls → spec.pos s < spec.pos s') :
    StreamRun spec total calls (toI64 total) s s' := by
  have hlt := spec.count_lt
  rw [toI64_eq (by omega)]
  refine ⟨fun h0 => ?_, ⟨fun _ => h.imp_right fun h => .inl h.2, fun _ => by omega⟩,
    fun _ => by omega, fun _ hno => ?_, fun _ hlost => ?_⟩
  · obtain ⟨hcount, hcalls⟩ := h.resolve_left (by omega)
    exact iff_of_true hcalls hcount
  · rw [honce hno, Int.toNat_natCast, Nat.sub_self]
    exact spec.refl s htotal
  · rw [Int.toNat_natCast, Nat.sub_self]
    exact hmore hlost

/-- The loop returns an error. -/
theorem error (hret : ret < 0) (hcount : 0 < op.count) (ho : ¬o.Replied) :
    StreamRun spec 0 [o] ret s s' := by
  refine ⟨fun _ => iff_of_false (List.cons_ne_nil _ _) (by omega), ⟨fun h => by omega, ?_⟩,
    fun h => by omega, fun h => by omega, fun h => by omega⟩
  rintro (h | h | ⟨o', ho', hr⟩)
  · omega
  · exact absurd h (List.cons_ne_nil _ _)
  · rw [List.mem_singleton.1 ho'] at hr
    exact absurd hr ho

/-- The loop returns after a chunk of which `k` bytes are moved and reported. -/
theorem short (hcount : 0 < op.count) (hk : total + k ≤ op.count) (hr : o.Replied) (hlost : ¬o.Lost)
    (hmoved : spec.Moved s total k s') : StreamRun spec total [o] (toI64 (total + k)) s s' := by
  have hlt := spec.count_lt
  have hno : NothingLost [o] := by simpa using hlost
  rw [toI64_eq (by omega)]
  refine ⟨fun _ => iff_of_false (List.cons_ne_nil _ _) (by omega),
    ⟨fun _ => .inr (.inr ⟨o, List.mem_cons_self, hr⟩), fun _ => by omega⟩, fun _ => by omega,
    fun _ _ => ?_, fun _ h => absurd hno h⟩
  rwa [Int.toNat_natCast, Nat.add_sub_cancel_left]

/-- A chunk of which `k` bytes are moved and reported comes first. -/
theorem replied (h : StreamRun spec (total + k) calls ret s₁ s') (hmoved : spec.Moved s total k s₁)
    (hcount : 0 < op.count) (hr : o.Replied) (hlost : ¬o.Lost) (hret : 0 ≤ ret) :
    StreamRun spec total (o :: calls) ret s s' := by
  have hle := h.le hret
  refine ⟨fun _ => iff_of_false (List.cons_ne_nil _ _) (by omega),
    ⟨fun _ => .inr (.inr ⟨o, List.mem_cons_self, hr⟩), fun _ => hret⟩, fun _ => by omega,
    fun _ hno => ?_, fun _ hno => ?_⟩
  · have hall := spec.trans hmoved (h.once hret (nothingLost_cons.1 hno).2)
    rwa [show k + (ret.toNat - (total + k)) = ret.toNat - total by omega] at hall
  · have hmore := h.more hret fun hcalls => hno (nothingLost_cons.2 ⟨hlost, hcalls⟩)
    have hpos := spec.pos_eq hmoved
    omega

/-- A request that is sent again comes first. -/
theorem again (h : StreamRun spec 0 calls ret s₁ s') (hcount : 0 < op.count) (ho : ¬o.Replied)
    (hnot : ¬o.Lost → s₁ = s) (hlost : o.Lost → spec.pos s < spec.pos s₁) :
    StreamRun spec 0 (o :: calls) ret s s' := by
  have hne : calls ≠ [] := mt (h.nil_iff rfl).1 (by omega)
  refine ⟨fun _ => iff_of_false (List.cons_ne_nil _ _) (by omega), ?_, h.le, fun hret hno => ?_,
    fun hret hno => ?_⟩
  · rw [h.nonneg, List.exists_mem_cons_iff]
    simp only [ho, hne, false_or, List.cons_ne_nil]
  · obtain ⟨ho, hcalls⟩ := nothingLost_cons.1 hno
    rw [← hnot ho]
    exact h.once hret hcalls
  · by_cases hcalls : NothingLost calls
    · have hpos := hlost (by_contra fun ho => hno (nothingLost_cons.2 ⟨ho, hcalls⟩))
      have heq := spec.pos_eq (h.once hret hcalls)
      omega
    · have hmore := h.more hret hcalls
      by_cases ho : o.Lost
      · have := hlost ho
        omega
      · rwa [hnot ho] at hmore

end StreamRun

theorem streamLoop_run {total : ℕ} {calls : List (Retried Taken)} {s : S}
    (htotal : total ≤ op.count) :
    wp (streamLoop op (transferServer move) total calls)
      (fun p s' => p.2 = [] → StreamRun spec total calls p.1 s s') (fun _ _ => True) s := by
  have hcount := spec.count_lt
  have hmax := spec.chunkMax_pos
  -- By induction on the calls that are made; every iteration makes one.
  induction calls generalizing total s with
  | nil =>
    refine wp_ite.2 ⟨fun _ => wp_throw.2 trivial, fun h => wp_pure.2 fun _ => ?_⟩
    exact .stop htotal (by simp; omega) (fun _ => rfl) fun h => absurd nothingLost_nil h
  | cons o calls ih =>
    refine wp_ite.2 ⟨fun hlt => wp_bind.2 ?_,
      fun h => wp_pure.2 fun hnil => absurd hnil (List.cons_ne_nil _ _)⟩
    generalize hchunk : min (op.count - total) op.chunkMax = chunk
    -- A call that has failed leads to `s₁`, with or without an effect.
    have hfailed : ∀ (res : CallResult) (s₁ : S), res.Failed → -2 ^ 31 ≤ res.err →
        res.err < 2 ^ 31 → ¬o.Replied → (¬o.Lost → s₁ = s) → (o.Lost → spec.pos s < spec.pos s₁) →
        wp (match onFailure total res with
            | .again => streamLoop op (transferServer move) total calls
            | .ret v => return (v, calls))
          (fun p s' => p.2 = [] → StreamRun spec total (o :: calls) p.1 s s')
          (fun _ _ => True) s₁ := by
      intro res s₁ hres hlo hhi hr hnot hlost
      rcases Nat.eq_zero_or_pos total with rfl | htot
      · rcases onFailure_zero hres hlo hhi with h | ⟨v, hv, h⟩
        · rw [h]
          exact wp_post (ih htotal) fun p s' hp hnil => (hp hnil).again hlt hr hnot hlost
        · rw [h]
          refine wp_pure.2 fun hnil => ?_
          obtain rfl : calls = [] := hnil
          exact .error hv hlt hr
      · rw [onFailure_of_pos htot]
        refine wp_pure.2 fun hnil => ?_
        obtain rfl : calls = [] := hnil
        refine .stop htotal (.inl htot) (fun hno => hnot ?_) fun hno => hlost ?_
        · simpa using hno
        · simpa using hno
    refine wp_transfer (fun n ho hr hi => ?_) (fun n r ho hr hi hlost => ?_)
      fun res hf hlo hhi hint hr hlost => ?_
    · have hlost : ¬o.Lost := fun ⟨_, _, _, h⟩ => by simp [ho] at h
      have hreg := spec.reg n s (show total + chunk ≤ op.count by omega)
      have hmoved := spec.moved n s (show total + chunk ≤ op.count by omega)
      have hactual : (total + min n chunk) % 2 ^ 64 = total + min n chunk :=
        Nat.mod_eq_of_lt (by omega)
      rw [if_neg (by simp [CallResult.Failed, spec.label])]
      simp only [hreg, hactual]
      refine wp_ite.2 ⟨fun hend => wp_pure.2 fun hnil => ?_, fun _ => wp_bind.2 (wp_modify.2 ?_)⟩
      · obtain rfl : calls = [] := hnil
        obtain rfl : n = 0 := by omega
        rw [spec.move_zero]
        exact .short (by omega) (by omega) hr hlost (spec.refl s htotal)
      · refine wp_ite.2 ⟨fun _ => wp_pure.2 fun hnil => ?_, fun hfull => ?_⟩
        · obtain rfl : calls = [] := hnil
          exact .short (by omega) (by omega) hr hlost hmoved
        · refine wp_post (ih (by omega)) fun p s' hp hnil => ?_
          have hrest := hp hnil
          exact hrest.replied hmoved (by omega) hr hlost (hrest.nonneg.2 (.inl (by omega)))
    · rw [if_pos (.inl (by simp [tronaInterrupted]))]
      have hpos := spec.pos_move n s (show total + chunk ≤ op.count by omega)
      refine hfailed _ _ (.inl (by simp [tronaInterrupted])) (by simp [tronaInterrupted])
        (by simp [tronaInterrupted]) hr ?_ fun h => ?_
      · intro h
        obtain rfl : n = 0 := Nat.eq_zero_of_not_pos (mt hlost.2 h)
        exact spec.move_zero _ s
      · have := hlost.1 h
        omega
    · rw [if_pos hf]
      exact hfailed res s hf hlo hhi hr (fun _ => rfl) fun h => absurd h hlost

/-- When a number is returned, that many bytes have been moved as they should, if and only if
    no reply to a request that took bytes was lost. A run in which no chunk is ever reported
    returns no number. -/
theorem streamLoop_moved_iff {calls : List (Retried Taken)} {ret : ℤ} {s s' : S}
    (hrun : (streamLoop op (transferServer move) 0 calls).run s = .ok (ret, []) s') :
    (0 ≤ ret → ret.toNat ≤ op.count) ∧
      ((0 ≤ ret → spec.Moved s 0 ret.toNat s') ↔
        ((∃ o ∈ calls, o.Replied) → NothingLost calls)) := by
  have h := wp_ok (streamLoop_run spec (Nat.zero_le _)) hrun rfl
  refine ⟨fun hret => (h.le hret).2, fun hmoved hreplied => ?_, fun hcond hret => ?_⟩
  · by_contra hlost
    have hret := h.nonneg.2 (.inr (.inr hreplied))
    have hmore := h.more hret hlost
    have hpos := spec.pos_eq (hmoved hret)
    omega
  · refine h.once hret ?_
    rcases h.nonneg.1 hret with h0 | rfl | hreplied
    · omega
    · exact nothingLost_nil
    · exact hcond hreplied

end

end Posix

end Trona
