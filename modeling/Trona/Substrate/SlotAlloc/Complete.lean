import Trona.Substrate.SlotAlloc.Exhaust

/-!
# Completeness of the slot allocator

The searches for slots start at a hint, or at the active segment, skip segments by their
counters, and give up when they come to the end. They find what there is to be found:

* `Segment.Counted.allocContiguous_eq_none_iff`: a segment has no run of slots to hand out
  exactly when there is no run of free slots in it;
* `slotAlloc_complete`: along every run, a search for one slot is in vain exactly when every
  slot is live, one for `n` slots exactly when no segment has `n` slots in a row that are not, and
  a search marks the slots it returns and nothing else;
* `thrifty_iff`: when a call for `n` slots completes expansions that are of no use to it.
-/

namespace Trona

/-! ## Segments -/

namespace Segment

variable {s s' : Segment}

/-- `s'` is `s` with the `n` indices from `i` on marked. -/
structure MarksRun (s : Segment) (i n : ℕ) (s' : Segment) : Prop where
  base_eq : s'.base = s.base
  count_eq : s'.count = s.count
  test : ∀ j, s'.bits.test j = true ↔ s.bits.test j = true ∨ i ≤ j ∧ j < i + n

theorem Takes.marksRun {slot n : ℕ} (h : s.Takes slot n s') (hs : s.Counted) :
    ∃ i, s.FreeRun i n ∧ slot = (s.base + i) % 2 ^ 64 ∧ s.MarksRun i n s' := by
  obtain ⟨i, -, hrun, rfl, rfl⟩ := h
  obtain ⟨-, -, htest⟩ := hrun.markRun hs.count_le
  refine ⟨i, hrun, rfl, markRun_base .., markRun_count .., fun j => ?_⟩
  rw [htest, Bool.or_eq_true, decide_eq_true_eq, or_comm]

/-- A run of free slots is not longer than what the counter leaves. -/
theorem FreeRun.le {i n : ℕ} (h : s.FreeRun i n) (hs : s.Counted) : n ≤ s.count - s.used := by
  obtain ⟨-, hcard, -⟩ := h.markRun hs.count_le
  have hle := Bitmap.card_le (s.markRun i n).bits s.count
  have hused := hs.used_eq
  omega

/-- A segment is full exactly when it has no free slot. -/
theorem full_iff : s.Full ↔ ∀ i, ¬s.FreeRun i 1 := by
  constructor
  · rintro hfull i ⟨hle, hfree⟩
    have hbit := hfull i hle
    rw [hfree i le_rfl (Nat.lt_succ_self i)] at hbit
    cases hbit
  · intro hnone i hi
    by_contra hbit
    refine hnone i ⟨hi, fun j hlo hhi => ?_⟩
    obtain rfl : j = i := by omega
    simpa using hbit

end Segment

/-- When the scan is in vain, every run of `count` indices that it has seen the end of has a
    used index in it. -/
theorem segmentFindRun_eq_none {s : Segment} {count todo idx runStart runLen : ℕ}
    (hlt : runLen < count) (h : segmentFindRun s count todo idx runStart runLen = none) {r : ℕ}
    (hlo : idx ≤ r + runLen) (hhi : r + count ≤ idx + todo) :
    ∃ j, r ≤ j ∧ j < r + count ∧ s.bits.test j = true := by
  induction todo generalizing idx runStart runLen with
  | zero => omega
  | succ todo ih =>
    rw [segmentFindRun] at h
    by_cases hused : segmentIsUsed s idx
    · rw [hused] at h
      -- the index is in the run, or the run comes after it
      by_cases hin : r ≤ idx
      · exact ⟨idx, hin, by omega, hused⟩
      · exact ih (by omega) h (by omega) (by omega)
    · rw [Bool.not_eq_true] at hused
      simp only [hused, Bool.not_false, ↓reduceIte] at h
      split at h
      · cases h
      · exact ih (by omega) h (by omega) (by omega)

namespace Segment

variable {s s' : Segment}

/-- A segment has no run of slots to hand out exactly when it has no run of free slots. -/
theorem Counted.allocContiguous_eq_none_iff (hs : s.Counted) {n : ℕ} (hn : 0 < n) :
    (segmentAllocContiguous s n).1 = none ↔ ∀ i, ¬s.FreeRun i n := by
  rw [segmentAllocContiguous]
  split
  · rename_i hguard
    refine iff_of_true rfl fun i hrun => ?_
    have hle := hrun.le hs
    omega
  split
  · rename_i hone
    rw [hone, hs.allocSingle_eq_none, full_iff]
  split
  · rename_i hnone
    refine iff_of_true rfl fun i hrun => ?_
    obtain ⟨j, hlo, hhi, hused⟩ := segmentFindRun_eq_none hn hnone (Nat.zero_le (i + 0))
      (by have := hrun.1; omega)
    rw [hrun.2 j hlo hhi] at hused
    cases hused
  · rename_i runStart hrun
    exact iff_of_false (Option.some_ne_none _) fun hno =>
      hno runStart (segmentFindRun_freeRun hn hrun)

end Segment

/-! ## The allocator -/

namespace SlotAllocState

variable {st st' : SlotAllocState}

/-- The index `j` of the segment `k` is marked. -/
def MarkedAt (st : SlotAllocState) (k j : ℕ) : Prop :=
  ∃ seg, st.segments[k]? = some seg ∧ seg.bits.test j = true

/-- Some segment has `n` free slots in a row. -/
def HasRun (st : SlotAllocState) (n : ℕ) : Prop := ∃ seg ∈ st.segments, ∃ i, seg.FreeRun i n

/-- `st'` is `st` with the `n` slots from `slot` on handed out: they are a run of free slots of
    one segment, and no other bit of any segment is changed. -/
def TakesRun (st : SlotAllocState) (slot n : ℕ) (st' : SlotAllocState) : Prop :=
  ∃ k seg i, st.segments[k]? = some seg ∧ seg.FreeRun i n ∧ slot = (seg.base + i) % 2 ^ 64 ∧
    st'.ranges = st.ranges ∧
    ∀ l j, st'.MarkedAt l j ↔ st.MarkedAt l j ∨ l = k ∧ i ≤ j ∧ j < i + n

/-- A search of the segments marks what it returns. -/
theorem Takes.takesRun {slot n : ℕ} (h : st.Takes slot n st') (hc : st.Counted) :
    st.TakesRun slot n st' := by
  have hranges := h.quiet.ranges
  obtain ⟨k, seg, seg', hk, hseg, rfl⟩ := h
  obtain ⟨i, hrun, hslot, hmarks⟩ := hseg.marksRun (hc seg (List.mem_of_getElem? hk))
  refine ⟨k, seg, i, hk, hrun, hslot, hranges, fun l j => ?_⟩
  rcases eq_or_ne l k with rfl | hl
  · have hlt := (List.getElem?_eq_some_iff.1 hk).1
    simp [MarkedAt, hk, List.getElem?_set_self hlt, hmarks.test]
  · simp [MarkedAt, List.getElem?_set_ne (Ne.symm hl), hl]

/-- A search for `n` slots is in vain exactly when there is no run of `n` free slots. -/
theorem Counted.consecutive_eq_none_iff (hc : st.Counted) (hinit : st.initialized = true) {n : ℕ}
    (hn : 0 < n) : (slotAllocConsecutiveFast st n).1 = none ↔ ¬st.HasRun n := by
  rw [slotAllocConsecutiveFast, if_neg (by simp [hinit]; omega),
    scanSegments_eq_none (segmentAllocContiguous_attempt · n), HasRun]
  push Not
  exact forall₂_congr fun seg hseg => (hc seg hseg).allocContiguous_eq_none_iff hn

/-- A search that finds something takes a run of free slots. -/
theorem Attempt.takesRun {n slot : ℕ} {r : Option ℕ × SlotAllocState} (h : st.Attempt n r)
    (hc : st.Counted) (hr : r.1 = some slot) : st.TakesRun slot n r.2 :=
  (h.takes (Prod.ext hr rfl)).takesRun hc

/-- A search in vain leaves every bit as it was. -/
theorem Attempt.markedAt {n : ℕ} {r : Option ℕ × SlotAllocState} (h : st.Attempt n r)
    (hr : r.1 = none) (k j : ℕ) : r.2.MarkedAt k j ↔ st.MarkedAt k j := by
  rw [h.eq_none hr]

section

variable (hv : st.Valid)

include hv

theorem Valid.counted : st.Counted := fun seg hseg =>
  ⟨(hv.segs seg hseg).count_le, (hv.segs seg hseg).used_eq⟩

/-- The allocator is full exactly when the slots of its segments are marked. -/
theorem Valid.full_iff :
    st.Full ↔ ∀ seg ∈ st.segments, ∀ x, seg.Covers x → st.Marked x := by
  refine forall₂_congr fun seg hseg => ⟨fun hfull x hx => ⟨seg, hseg, hx, ?_⟩, fun hall i hi => ?_⟩
  · exact hfull _ (Nat.sub_lt_left_of_lt_add hx.1 hx.2)
  · have hx : seg.Covers (seg.base + i) := ⟨Nat.le_add_right _ _, Nat.add_lt_add_left hi _⟩
    have hm := ((hv.marked_iff hseg hx).1 (hall _ hx)).2
    rwa [Nat.add_sub_cancel_left] at hm

/-- A run of free indices is a run of slots that are not marked. -/
theorem Valid.hasRun_iff {n : ℕ} (hn : 0 < n) :
    st.HasRun n ↔ ∃ seg ∈ st.segments, ∃ slot, ∀ x, slot ≤ x → x < slot + n →
      seg.Covers x ∧ ¬st.Marked x := by
  refine exists_congr fun seg => and_congr_right fun hseg => ?_
  constructor
  · rintro ⟨i, hle, hfree⟩
    refine ⟨seg.base + i, fun x hlo hhi => ?_⟩
    have hx : seg.Covers x := ⟨by omega, by omega⟩
    refine ⟨hx, fun hm => ?_⟩
    have hbit := ((hv.marked_iff hseg hx).1 hm).2
    rw [hfree _ (by omega) (by omega)] at hbit
    cases hbit
  · rintro ⟨slot, hrun⟩
    have hlo := (hrun slot le_rfl (by omega)).1.1
    have hhi := (hrun (slot + n - 1) (by omega) (by omega)).1.2
    refine ⟨slot - seg.base, by omega, fun j h₁ h₂ => ?_⟩
    obtain ⟨hx, hnm⟩ := hrun (seg.base + j) (by omega) (by omega)
    rw [hv.marked_iff hseg hx, Segment.Marked, Nat.add_sub_cancel_left] at hnm
    simpa [hx] using hnm

end

end SlotAllocState

open SlotAllocState

/-- Completeness of the slot allocator, over every run of it on a range that it accepts, that does
    not wrap around, and that is below the expansions. A search for one slot is in vain exactly
    when every slot of every segment is live, and one for `n` slots exactly when no segment has `n`
    slots in a row that are not. A search that is in vain changes no mark, and any other marks the
    slots that it returns, which were free, and nothing else. -/
theorem slotAlloc_complete {base count ntfn : ℕ}
    (hok : (slotAllocInit base count ntfn).initialized = true) (hr : base + count ≤ 2 ^ 64)
    (hlow : ntfn ≠ 0 → base + count ≤ 1008 <<< 10) {s : SlotSystem} {h : List SlotEvent}
    (hreach : (slotAllocSystem base count ntfn).Reaches s h) :
    ((allocSingleLocked s.alloc).1 = none ↔
      ∀ seg ∈ s.alloc.segments, ∀ x, seg.Covers x → x ∈ live h) ∧
    (∀ n, 0 < n → ((slotAllocConsecutiveFast s.alloc n).1 = none ↔
      ¬∃ seg ∈ s.alloc.segments, ∃ slot, ∀ x, slot ≤ x → x < slot + n →
        seg.Covers x ∧ x ∉ live h)) ∧
    (∀ slot, (allocSingleLocked s.alloc).1 = some slot →
      s.alloc.TakesRun slot 1 (allocSingleLocked s.alloc).2) ∧
    (∀ n slot, (slotAllocConsecutiveFast s.alloc n).1 = some slot →
      s.alloc.TakesRun slot n (slotAllocConsecutiveFast s.alloc n).2) ∧
    ((allocSingleLocked s.alloc).1 = none → ∀ k j,
      (allocSingleLocked s.alloc).2.MarkedAt k j ↔ s.alloc.MarkedAt k j) ∧
    ∀ n, (slotAllocConsecutiveFast s.alloc n).1 = none → ∀ k j,
      (slotAllocConsecutiveFast s.alloc n).2.MarkedAt k j ↔ s.alloc.MarkedAt k j := by
  obtain ⟨hv, hm, -⟩ := reaches_valid hok hr hlow hreach
  have hc := hv.counted
  have hone := allocSingleLocked_attempt s.alloc
  have hmany := slotAllocConsecutiveFast_attempt s.alloc
  rw [← hm]
  refine ⟨hc.allocSingleLocked_eq_none.trans hv.full_iff, fun n hn => ?_,
    fun slot => hone.takesRun hc, fun n slot => (hmany n).takesRun hc, hone.markedAt,
    fun n => (hmany n).markedAt⟩
  exact (hc.consecutive_eq_none_iff hv.ready hn).trans (not_congr (hv.hasRun_iff hn))

/-- Two of three slots are handed out and the first of them is taken back: there are two free
    slots, but not in a row. -/
theorem slotAlloc_complete_gap : ∃ s h, (slotAllocSystem 64 3 0).Reaches s h ∧
    (¬∃ seg ∈ s.alloc.segments, ∃ slot, ∀ x, slot ≤ x → x < slot + 2 →
      seg.Covers x ∧ x ∉ live h) ∧
    ¬∀ seg ∈ s.alloc.segments, ∀ x, seg.Covers x → x ∈ live h := by
  have h₀ := Lts.Reaches.init (m := slotAllocSystem 64 3 0) rfl
  have h₁ := h₀.step ⟨0, .slotAllocNoExpand, _, _, rfl, rfl⟩
  have h₂ := h₁.step ⟨0, .slotAllocNoExpand, _, _, rfl, rfl⟩
  have h₃ := h₂.step ⟨1, .slotFree 64, _, _, rfl, rfl⟩
  obtain ⟨hsingle, hrun, -⟩ := slotAlloc_complete (by decide) (by decide) (by decide) h₃
  refine ⟨_, _, h₃, (hrun 2 (by decide)).1 ?_, fun hfull => ?_⟩
  · decide
  · exact absurd (hsingle.2 hfull) (by decide)

/-- A process whose only slot is the last one of the first expansion. When all slots of the
    expansion are handed out, every slot of every segment is live, and the slot is found once
    more. -/
theorem slotAlloc_overlap : ∃ s h, (slotAllocSystem ((1009 <<< 10) - 1) 1 5).Reaches s h ∧
    (∀ seg ∈ s.alloc.segments, ∀ x, seg.Covers x → x ∈ live h) ∧
    (allocSingleLocked s.alloc).1 = some 1033215 := by
  have h₀ := Lts.Reaches.init (m := slotAllocSystem ((1009 <<< 10) - 1) 1 5) rfl
  have h₁ := h₀.step ⟨0, .slotAllocConsecutive 1024, _, _, rfl, rfl⟩
  have h₂ := h₁.step ⟨0, .resume ⟨0, none⟩, _, _, rfl, rfl⟩
  have h₃ := h₂.step ⟨0, .resume ⟨0, none⟩, _, _, rfl, rfl⟩
  have h₄ := h₃.step ⟨0, .resume ⟨0, none⟩, _, _, rfl, rfl⟩
  have h₅ := h₄.step ⟨0, .resume ⟨0, none⟩, _, _,
    act_find (@search_fresh _ [.fresh 1033215 1] 1032192 1024 rfl rfl rfl (by decide)) 16 _, rfl⟩
  -- the segment of the expansion is searched first, and its counter says that it is full
  obtain ⟨hused, -⟩ := (Segment.freeRun_fresh 1032192 1024).markRun (by decide)
  have hskip : segmentAllocSingle ((Segment.fresh 1032192 1024).markRun 0 1024) = (none, _) :=
    if_pos (by rw [hused, Segment.markRun_count]; decide)
  refine ⟨_, _, h₅, fun seg hseg x hx => .inr ?_, ?_⟩
  · rcases List.mem_cons.1 hseg with rfl | hseg
    · have hlo : 1033215 ≤ x := hx.1
      have hhi : x < 1033215 + 1 := hx.2
      exact ⟨by omega, by simp only [Request.size]; omega⟩
    · rw [List.mem_singleton.1 hseg, Segment.Covers, Segment.markRun_base,
        Segment.markRun_count] at hx
      exact hx
  · simp [allocSingleLocked, scanSegments, List.range_succ, scanOffsets, hskip]
    rfl

/-! ## Expansions of a call -/

/-- A call for `n` slots in the state `st` has got to a place, with a state and events. -/
inductive InConsecutive (n : ℕ) (st : SlotAllocState) : Pc → SlotAllocState → List SlotEvent → Prop
  | call {pc st' es} (h : act st .idle (.slotAllocConsecutive n) = some (pc, st', es)) :
      InConsecutive n st pc st' es
  | resume {pc st₁ es pc' st₂ es'} (r : ProbeReply) (h : InConsecutive n st pc st₁ es)
      (hact : act st₁ pc (.resume r) = some (pc', st₂, es')) :
      InConsecutive n st pc' st₂ (es ++ es')

/-- A call for `n` slots completes an expansion only if a fresh segment can satisfy it. If none
    can, a call that fails leaves the counter and the segments as they are. -/
structure Thrifty (n : ℕ) (st : SlotAllocState) : Prop where
  completes : ∀ pc st₁ es r pc' st₂ es', InConsecutive n st pc st₁ es →
    act st₁ pc (.resume r) = some (pc', st₂, es') →
    st₁.cspaceExpandCount < st₂.cspaceExpandCount →
    (segmentAllocContiguous (.fresh (probeAddr st₁) (2 ^ slotExpandBitsDefault)) n).1.isSome
  fails : 2 ^ slotExpandBitsDefault < n → ∀ st', InConsecutive n st .idle st' [] →
    st'.cspaceExpandCount = st.cspaceExpandCount ∧ st'.segments = st.segments

section

variable {n : ℕ} {st st' : SlotAllocState} {pc : Pc} {es : List SlotEvent}

/-- A fresh segment has its slots in a row. -/
theorem segmentAllocContiguous_fresh_isSome {base count : ℕ} (hcount : count ≤ maxSegmentSlots)
    (hn : 0 < n) : (segmentAllocContiguous (.fresh base count) n).1.isSome ↔ n ≤ count := by
  have hnone := (@Segment.counted_fresh base count hcount).allocContiguous_eq_none_iff hn
  rw [Option.isSome_iff_ne_none, Ne, hnone, not_forall_not]
  constructor
  · rintro ⟨i, hle, -⟩
    exact (Nat.le_add_left n i).trans hle
  · exact fun hle => ⟨0, (Nat.zero_add n).trans_le hle, fun j _ _ => Bitmap.test_empty j⟩

/-- A call for no slots is over at once. -/
theorem InConsecutive.pos (h : InConsecutive n st pc st' es) : pc = .idle ∨ 0 < n := by
  induction h with
  | call h =>
    obtain ⟨rfl, -⟩ := step_inj h
    split
    · exact .inl rfl
    · rename_i hguard
      exact .inr (Nat.pos_of_ne_zero fun h0 => hguard (.inr h0))
  | resume r _ hact ih =>
    refine .inr (ih.resolve_left ?_)
    rintro rfl
    cases hact

/-- A call that cannot get an expansion, where it is and what it leaves. -/
theorem InConsecutive.stay
    (hno : st.initialized = false ∨ (slotAllocConsecutiveFast st n).1.isSome ∨ st.CannotExpand)
    (h : InConsecutive n st pc st' es) : st'.cspaceExpandCount = st.cspaceExpandCount ∧
      (es = [] → st'.segments = st.segments) ∧
      (pc = .idle ∨ pc = .trying (.consecutive n) (maxSegments + 2) ∧ st' = st ∧ es = [] ∧
          st.initialized = true ∨
        es = [] ∧ st'.CannotExpand ∧ st'.initialized = true ∧
          ∃ left, pc = .driving (.consecutive n) left) := by
  induction h with
  | call h =>
    obtain ⟨rfl, heq⟩ := step_inj h
    obtain ⟨rfl, rfl⟩ := Prod.mk.inj heq
    refine ⟨rfl, fun _ => rfl, ?_⟩
    split
    · exact .inl rfl
    · rename_i hguard
      exact .inr (.inl ⟨rfl, rfl, rfl, by simpa using fun h0 => hguard (.inl h0)⟩)
  | @resume _ st₁ _ _ _ _ r _ hact ih =>
    obtain ⟨hcount, hseg, rfl | ⟨rfl, rfl, rfl, hinit⟩ | ⟨rfl, hcannot, hinit, left, rfl⟩⟩ := ih
    · cases hact
    · cases hsearch : ((Request.consecutive n).search st₁).1 with
      | none =>
        cases (act_miss hsearch (maxSegments + 1) r).symm.trans hact
        have hcannot : st₁.CannotExpand := by
          rcases hno with hfalse | hsome | hcannot
          · cases hfalse.symm.trans hinit
          · cases (Option.isSome_iff_ne_none.1 hsome) hsearch
          · exact hcannot
        exact ⟨rfl, fun _ => rfl, .inr (.inr ⟨rfl, hcannot, hinit, _, rfl⟩)⟩
      | some slot =>
        have hfind : (Request.consecutive n).search st₁ = (some slot, _) := Prod.ext hsearch rfl
        cases (act_find hfind (maxSegments + 1) r).symm.trans hact
        exact ⟨((Request.search_attempt _ _).takes hfind).quiet.count,
          fun h => absurd h (List.cons_ne_nil _ _), .inl rfl⟩
    · have hdrive := act_drive (Prod.eta (driveCspaceExpand st₁ r)).symm (.consecutive n) left
      obtain ⟨rfl, heq⟩ := step_inj (hdrive.symm.trans hact)
      obtain ⟨rfl, rfl⟩ := Prod.mk.inj heq
      rcases (driveCspaceExpand_cases st₁ r).turn hinit with ⟨-, hcan, -⟩ | ⟨hseg', hcount', hturn⟩
      · exact absurd hcannot hcan
      refine ⟨hcount'.trans hcount, fun _ => hseg'.trans (hseg rfl), ?_⟩
      rcases hturn with ⟨hp, hkeep⟩ | ⟨hp, -⟩ <;> rw [hp]
      · have hinit' := (ExpandMove.mono (driveCspaceExpand_cases _ r).move).1.trans hinit
        exact .inr (.inr ⟨rfl, hkeep hcannot, hinit', left, rfl⟩)
      · exact .inl rfl

/-- A call that can get an expansion completes one, whatever its size. -/
theorem exists_completes (hn : n ≠ 0) (hinit : st.initialized = true)
    (hsearch : (slotAllocConsecutiveFast st n).1 = none) (hcan : ¬st.CannotExpand) :
    ∃ pc st₁ es r pc' st₂ es', InConsecutive n st pc st₁ es ∧
      act st₁ pc (.resume r) = some (pc', st₂, es') ∧
      st₁.cspaceExpandCount < st₂.cspaceExpandCount := by
  obtain ⟨hntfn, hcount, hroom, hstate⟩ :
      st.cspaceNtfn ≠ 0 ∧ st.cspaceExpandCount < maxCspaceExpansions ∧
        st.segments.length < maxSegments ∧ st.expandState ≠ .failed := by
    simpa only [CannotExpand, not_or, not_le] using hcan
  have hdriving : InConsecutive n st (.driving (.consecutive n) (maxSegments + 1)) st [] :=
    .resume ⟨0, none⟩ (.call (@act_call _ hinit (.consecutive n) (by simpa using hn)))
      (@act_miss _ (.consecutive n) hsearch (maxSegments + 1) ⟨0, none⟩)
  obtain ⟨st₁, hin, hinit₁, hntfn₁, hcount₁, hreq, hroom₁⟩ :
      ∃ st₁, InConsecutive n st (.driving (.consecutive n) (maxSegments + 1)) st₁ [] ∧
        st₁.initialized = true ∧ st₁.cspaceNtfn ≠ 0 ∧ st₁.cspaceExpandCount < maxCspaceExpansions ∧
        st₁.expandState = .requested ∧ st₁.segments.length < maxSegments := by
    cases hexpand : st.expandState with
    | failed => exact absurd hexpand hstate
    | requested => exact ⟨st, hdriving, hinit, hntfn, hcount, hexpand, hroom⟩
    | idle =>
      have hrequest := act_drive (driveCspaceExpand_request hinit hntfn hcount hexpand)
        (.consecutive n) (maxSegments + 1)
      exact ⟨_, .resume ⟨0, none⟩ hdriving hrequest, hinit, hntfn, hcount, rfl, hroom⟩
  -- what is requested is there at the next turn
  obtain ⟨st₂, hdrive, -, -, -, -, -, hone⟩ :=
    driveCspaceExpand_register hinit₁ hntfn₁ hcount₁ hreq hroom₁
  exact ⟨_, st₁, [], ⟨0, none⟩, _, st₂, [], hin, act_drive hdrive _ _, by omega⟩

theorem not_thrifty (hlt : 2 ^ slotExpandBitsDefault < n) (hinit : st.initialized = true)
    (hsearch : (slotAllocConsecutiveFast st n).1 = none) (hcan : ¬st.CannotExpand) :
    ¬Thrifty n st := by
  intro h
  have hn : 0 < n := (Nat.zero_le _).trans_lt hlt
  obtain ⟨pc, st₁, es, r, pc', st₂, es', hin, hact, hcount⟩ :=
    exists_completes hn.ne' hinit hsearch hcan
  have hsome := h.completes _ _ _ _ _ _ _ hin hact hcount
  exact absurd ((segmentAllocContiguous_fresh_isSome (by decide) hn).1 hsome) hlt.not_ge

end

/-- In a state with right counters, a call spends expansions on what they cannot satisfy exactly
    when it is for more slots than an expansion has, no segment has them in a row, and an expansion
    can be had. -/
theorem thrifty_iff {n : ℕ} {st : SlotAllocState} (hc : st.Counted) :
    Thrifty n st ↔ n ≤ 2 ^ slotExpandBitsDefault ∨ st.initialized = false ∨ st.HasRun n ∨
      st.CannotExpand := by
  have hsearch : 2 ^ slotExpandBitsDefault < n → st.initialized = true →
      ((slotAllocConsecutiveFast st n).1 = none ↔ ¬st.HasRun n) := fun hlt hinit =>
    hc.consecutive_eq_none_iff hinit ((Nat.zero_le _).trans_lt hlt)
  constructor
  · intro h
    by_contra hno
    obtain ⟨hlt, hinit, hrun, hcan⟩ := by simpa only [not_or, not_le] using hno
    have hinit := Bool.eq_true_of_not_eq_false hinit
    exact not_thrifty hlt hinit ((hsearch hlt hinit).2 hrun) hcan h
  · intro h
    rcases le_or_gt n (2 ^ slotExpandBitsDefault) with hle | hlt
    · refine ⟨fun pc st₁ es r pc' st₂ es' hin hact _ => ?_, fun hlt => absurd hle hlt.not_ge⟩
      have hn := hin.pos.resolve_left fun hidle => by
        rw [hidle] at hact
        cases hact
      exact (segmentAllocContiguous_fresh_isSome (by decide) hn).2 hle
    · have hno : st.initialized = false ∨ (slotAllocConsecutiveFast st n).1.isSome ∨
          st.CannotExpand := by
        rcases h.resolve_left hlt.not_ge with hinit | hrun | hcan
        · exact .inl hinit
        · cases hinit : st.initialized with
          | false => exact .inl rfl
          | true =>
            exact .inr (.inl (Option.isSome_iff_ne_none.2 fun hnone =>
              (hsearch hlt hinit).1 hnone hrun))
        · exact .inr (.inr hcan)
      refine ⟨fun pc st₁ es r pc' st₂ es' hin hact hlt => ?_, fun _ st' hin => ?_⟩
      · have hcount := (hin.stay hno).1
        have hcount' := ((InConsecutive.resume r hin hact).stay hno).1
        omega
      · exact ⟨(hin.stay hno).1, (hin.stay hno).2.1 rfl⟩

/-- A process with 1500 slots gets 1025 of them. -/
theorem thrifty_roomy : Thrifty 1025 (slotAllocInit 64 1500 5) :=
  (thrifty_iff (slotAllocInit_counted 64 1500 5)).2
    (.inr (.inr (.inl ⟨_, .head _, 0, by decide, fun j _ _ => Bitmap.test_empty j⟩)))

/-- A call for 1025 slots, of a process with one slot, completes an expansion. -/
theorem wastes_expansion : ¬Thrifty 1025 (slotAllocInit 64 1 5) := by
  refine not_thrifty (by decide) (by decide) (by decide) ?_
  rw [CannotExpand]
  decide

end Trona
