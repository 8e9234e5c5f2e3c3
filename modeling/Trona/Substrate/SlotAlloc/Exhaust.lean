import Trona.Substrate.SlotAlloc.Expand

/-!
# Exhaustion of the slot allocator

An allocator with no free slot left asks for an expansion, and when there can be
no expansion its callers fail. In `slot_alloc` the search that finds no slot and
the request for an expansion are two critical sections, and between the two
another thread may free a slot or complete an expansion.

* `SlotAllocState.Full`: every slot of every segment is handed out. A search for
  one slot fails exactly then (`allocSingleLocked_eq_none`);
* `Undisturbed`: no step gives the allocator a free slot while another thread is
  between its failed search and the end of its drive. Then an allocator in which a
  thread drives is full (`drivers_full`);
* `slotAlloc_requests_full`, `slotAlloc_fails_exhausted`: in undisturbed runs an
  expansion is requested by a full allocator only, and a call fails only when the
  allocator is full and cannot expand. In other runs neither is so
  (`slotAlloc_requests_early`, `slotAlloc_fails_early`).
-/

namespace Trona

/-! ## Segments -/

namespace Segment

/-- Every slot of the segment is handed out. -/
def Full (s : Segment) : Prop := ∀ i < s.count, s.bits.test i = true

/-- The part of the invariant of a segment that does not depend on its place. -/
structure Counted (s : Segment) : Prop where
  count_le : s.count ≤ maxSegmentSlots
  used_eq : s.used = s.bits.card s.count

/-- `s'` is `s` with some more slots handed out. -/
structure Grows (s s' : Segment) : Prop where
  counted : s'.Counted
  count_eq : s'.count = s.count
  test : ∀ i, s.bits.test i = true → s'.bits.test i = true

variable {s s' : Segment}

theorem Grows.full (h : s.Grows s') (hfull : s.Full) : s'.Full := fun i hi =>
  h.test i (hfull i (h.count_eq ▸ hi))

theorem counted_fresh {base count : ℕ} (h : count ≤ maxSegmentSlots) : (fresh base count).Counted :=
  ⟨h, (Bitmap.card_empty count).symm⟩

variable (hs : s.Counted)

include hs

theorem Counted.grows {slot n : ℕ} (h : s.Takes slot n s') : s.Grows s' := by
  obtain ⟨i, -, hrun, -, rfl⟩ := h
  obtain ⟨hu, hcard, htest⟩ := hrun.markRun hs.count_le
  refine ⟨⟨?_, ?_⟩, markRun_count .., fun j hj => ?_⟩
  · simpa using hs.count_le
  · simp only [markRun_count, hu, hcard, hs.used_eq]
  · simp only [htest, hj, Bool.or_true]

theorem Counted.free (idx : ℕ) : (segmentFree s idx).2.Counted := by
  unfold segmentFree
  split
  · exact hs
  · rename_i hused
    rw [not_or, not_le, Bool.not_eq_true', Bool.not_eq_false] at hused
    have hcard := Bitmap.card_erase s.bits (word_lt hs.count_le hused.1) hused.1 hused.2
    refine ⟨hs.count_le, ?_⟩
    simp only [segmentMarkFree, hs.used_eq]
    omega

/-- A segment has no slot to hand out exactly when it is full. -/
theorem Counted.allocSingle_eq_none : (segmentAllocSingle s).1 = none ↔ s.Full := by
  constructor
  · intro h
    unfold segmentAllocSingle at h
    split at h
    · rename_i hused
      -- As many bits are set as there are slots.
      have hcount : s.bits.card s.count = s.count :=
        le_antisymm (s.bits.card_le s.count) (hs.used_eq ▸ hused)
      exact fun i hi => Nat.count_iff_forall.1 hcount i hi
    · split at h
      · rename_i hnone
        unfold segmentFirstFree at hnone
        split at hnone
        · cases hnone
        · rename_i hupper
          intro i hi
          by_contra hfree
          by_cases hlow : i < min s.allocHint s.count
          · have := List.find?_eq_none.1 hnone i (by simp [List.mem_range'_1]; omega)
            simp [segmentIsUsed, hfree] at this
          · have := List.find?_eq_none.1 hupper i (by simp [List.mem_range'_1]; omega)
            simp [segmentIsUsed, hfree] at this
      · cases h
  · intro hfull
    have hcount : s.bits.card s.count = s.count := Nat.count_iff_forall.2 hfull
    rw [segmentAllocSingle, if_pos (by rw [hs.used_eq, hcount])]

/-- A full segment has no run of slots to hand out. -/
theorem Counted.allocContiguous_eq_none (hfull : s.Full) (count : ℕ) :
    (segmentAllocContiguous s count).1 = none := by
  have hcount : s.bits.card s.count = s.count := Nat.count_iff_forall.2 hfull
  rw [segmentAllocContiguous, if_pos]
  rw [hs.used_eq, hcount]
  omega

end Segment

/-! ## The allocator -/

namespace SlotAllocState

/-- Every slot of every segment is handed out. -/
def Full (st : SlotAllocState) : Prop := ∀ seg ∈ st.segments, seg.Full

/-- The counters of the segments fit their bitmaps. -/
def Counted (st : SlotAllocState) : Prop := ∀ seg ∈ st.segments, seg.Counted

variable {st st' : SlotAllocState} {r : ProbeReply}

/-- Every index is reached within one turn from an arbitrary start. -/
private theorem add_turn_mod (a : ℕ) {i n : ℕ} (hi : i < n) :
    (a + (i + (n - a % n)) % n) % n = i := by
  have hsum : a + (i + (n - a % n)) = i + n * (a / n + 1) := by
    have hdiv := Nat.div_add_mod a n
    have hlt := Nat.mod_lt a (show n > 0 by omega)
    rw [Nat.mul_succ]
    omega
  rw [Nat.add_mod_mod, hsum, Nat.add_mul_mod_self_left, Nat.mod_eq_of_lt hi]

/-- A search is in vain exactly when it is in vain in each of the segments. -/
theorem scanOffsets_eq_none {n : ℕ} {alloc : Segment → Option ℕ × Segment}
    (halloc : ∀ seg, Segment.Attempt seg n (alloc seg)) (offs : List ℕ) :
    (scanOffsets alloc offs st).1 = none ↔ ∀ off ∈ offs, ∀ seg,
      st.segments[(st.activeSeg + off) % st.segments.length]? = some seg →
        (alloc seg).1 = none := by
  induction offs with
  | nil => exact iff_of_true rfl fun _ hoff => absurd hoff List.not_mem_nil
  | cons off offs ih =>
    rw [scanOffsets, List.forall_mem_cons]
    split
    · rename_i hidx
      simp only [hidx, reduceCtorEq, false_imp_iff, implies_true, true_and, ih]
    · rename_i seg hidx
      simp only [hidx, Option.some.injEq, forall_eq']
      split
      · rename_i hseg
        simp [hseg]
      · rename_i seg' hseg
        rw [set_segment_of_none halloc hidx hseg, ih, hseg]
        exact (and_iff_right rfl).symm

/-- Every segment is searched. -/
theorem scanSegments_eq_none {n : ℕ} {alloc : Segment → Option ℕ × Segment}
    (halloc : ∀ seg, Segment.Attempt seg n (alloc seg)) :
    (st.scanSegments alloc).1 = none ↔ ∀ seg ∈ st.segments, (alloc seg).1 = none := by
  rw [scanSegments, scanOffsets_eq_none halloc]
  constructor
  · intro h seg hseg
    obtain ⟨i, hi, hget⟩ := List.mem_iff_getElem.1 hseg
    refine h _ (List.mem_range.2 (Nat.mod_lt
      (i + (st.segments.length - st.activeSeg % st.segments.length)) (by omega))) seg ?_
    rw [add_turn_mod st.activeSeg hi, List.getElem?_eq_getElem hi, hget]
  · exact fun h off _ seg hidx => h seg (List.mem_of_getElem? hidx)

/-- A search for one slot fails exactly when the allocator is full. -/
theorem Counted.allocSingleLocked_eq_none (hc : st.Counted) :
    (allocSingleLocked st).1 = none ↔ st.Full := by
  rw [allocSingleLocked]
  split
  · rename_i hlen
    rw [List.length_eq_zero_iff] at hlen
    exact iff_of_true rfl fun seg hseg => absurd (hlen ▸ hseg) List.not_mem_nil
  · rw [scanSegments_eq_none segmentAllocSingle_attempt]
    exact forall₂_congr fun seg hseg => (hc seg hseg).allocSingle_eq_none

/-- Changing one segment. -/
theorem forall_set {P : Segment → Prop} {idx : ℕ} {seg' : Segment}
    (h : ∀ seg ∈ st.segments, P seg) (h' : P seg') : ∀ seg ∈ st.segments.set idx seg', P seg :=
  fun seg hseg => (List.mem_or_eq_of_mem_set hseg).elim (h seg) fun e => e ▸ h'

/-- A search that finds slots hands out some more. -/
theorem Counted.takes (hc : st.Counted) {slot n : ℕ} (h : st.Takes slot n st') :
    st'.Counted ∧ (st.Full → st'.Full) := by
  obtain ⟨idx, seg, seg', hidx, hseg', rfl⟩ := h
  have hseg := List.mem_of_getElem? hidx
  have hgrows := (hc seg hseg).grows hseg'
  exact ⟨forall_set hc hgrows.counted,
    fun hfull => forall_set hfull (hgrows.full (hfull seg hseg))⟩

theorem Counted.slotFreeLocked (hc : st.Counted) (slot : ℕ) :
    (slotFreeLocked st slot).2.Counted := by
  rcases slotFreeLocked_cases st slot with ⟨heq, -⟩ | ⟨idx, seg, active, hidx, -, -, heq⟩ <;>
    rw [heq]
  · exact hc
  · exact forall_set hc ((hc seg (List.mem_of_getElem? hidx)).free _)

/-- An attempt to free a slot that fails changes nothing. -/
theorem slotFreeLocked_eq_self {slot : ℕ} (h : (slotFreeLocked st slot).1 = false) :
    (slotFreeLocked st slot).2 = st := by
  rcases slotFreeLocked_cases st slot with ⟨heq, -⟩ | ⟨idx, seg, active, -, -, -, heq⟩ <;>
    rw [heq] at h ⊢
  cases h

theorem Counted.slotFreeRangeFrom (hc : st.Counted) (base off todo : ℕ) :
    (slotFreeRangeFrom st base off todo).1.Counted := by
  induction todo generalizing st off with
  | zero => exact hc
  | succ todo ih => exact ih (hc.slotFreeLocked _) (off + 1)

/-- Freeing a range in which no slot can be freed changes nothing. -/
theorem slotFreeRangeFrom_eq_self {base off todo : ℕ}
    (h : ∀ i < todo, (slotFreeLocked st ((base + (off + i)) % 2 ^ 64)).1 = false) :
    (slotFreeRangeFrom st base off todo).1 = st := by
  induction todo generalizing off with
  | zero => rfl
  | succ todo ih =>
    have hfirst : (slotFreeLocked st ((base + off) % 2 ^ 64)).2 = st :=
      slotFreeLocked_eq_self (h 0 (Nat.succ_pos todo))
    simp only [slotFreeRangeFrom, hfirst]
    refine ih fun i hi => ?_
    rw [Nat.add_assoc off 1 i, Nat.add_comm 1 i]
    exact h (i + 1) (Nat.succ_lt_succ hi)

/-! ### The drivers -/

theorem Counted.congr (hc : st.Counted) (h : st'.segments = st.segments) : st'.Counted := by
  rw [Counted, h]
  exact hc

theorem Full.congr (hf : st.Full) (h : st'.segments = st.segments) : st'.Full := by
  rw [Full, h]
  exact hf

theorem Counted.pollRequestedExpandLocked (hc : st.Counted) (r : ProbeReply) :
    (pollRequestedExpandLocked st r).2.Counted := by
  unfold Trona.pollRequestedExpandLocked
  split
  · exact hc
  · split
    · exact hc
    · intro seg hseg
      rcases List.mem_append.1 hseg with hseg | hseg
      · exact hc seg hseg
      · rw [List.mem_singleton.1 hseg]
        exact Segment.counted_fresh (by decide)

theorem Counted.drive (hc : st.Counted) {p : ExpandProgress} (h : DriveCase st r p st') :
    st'.Counted := by
  have hroots := hc.congr (ensureRootBits_segments st r)
  cases h with
  | refuse => exact hc
  | request | failed => exact hroots
  | probe => exact hroots.pollRequestedExpandLocked r

theorem Counted.async (hc : st.Counted) {res : SlotResult} (h : AsyncCase st r res st') :
    st'.Counted := by
  have hpoll := hc.pollRequestedExpandLocked r
  cases h with
  | find halloc => exact (hc.takes ((allocSingleLocked_attempt _).takes halloc)).1
  | refuse => exact hc
  | request => exact hc.congr (ensureRootBits_segments st r)
  | probe => exact hpoll
  | expand _ _ halloc => exact (hpoll.takes ((allocSingleLocked_attempt _).takes halloc)).1

variable {p : ExpandProgress} {res : SlotResult}

/-- A probe that does not find the expansion adds no segment. -/
theorem DriveCase.segments_eq (hd : DriveCase st r p st')
    (h : st.expandState = .requested → r.copyErr ≠ 0) : st'.segments = st.segments := by
  have hroots := ensureRootBits_segments st r
  cases hd with
  | refuse => rfl
  | request | failed => exact hroots
  | probe _ _ hreq => rwa [pollRequestedExpandLocked, if_pos (h hreq)]

/-- A full allocator whose probe does not find the expansion keeps its segments. -/
theorem AsyncCase.segments_eq (ha : AsyncCase st r res st') (hc : st.Counted) (hfull : st.Full)
    (h : st.expandState = .requested → r.copyErr ≠ 0) : st'.segments = st.segments := by
  have hnone := hc.allocSingleLocked_eq_none.2 hfull
  cases ha with
  | find halloc => cases hnone.symm.trans (congrArg Prod.fst halloc)
  | refuse => rfl
  | request => exact ensureRootBits_segments st r
  | probe hreq => rw [pollRequestedExpandLocked, if_pos (h hreq)]
  | expand _ hreq halloc =>
    rw [pollRequestedExpandLocked, if_pos (h hreq)] at halloc
    cases hnone.symm.trans (congrArg Prod.fst halloc)

/-! ### Actions -/

/-- The action gives the allocator a free slot: it frees one, or completes an
    expansion. -/
def Disturbs (st : SlotAllocState) (pc : Pc) (a : Action) : Prop :=
  (∃ slot, a = .slotFree slot ∧ (slotFreeLocked st slot).1 = true) ∨
    (∃ base count, a = .slotFreeRange base count ∧
      ∃ i < count, (slotFreeLocked st ((base + i) % 2 ^ 64)).1 = true) ∨
    (st.expandState = .requested ∧ ∃ r ∈ reply pc a, r.copyErr = 0)

variable {pc pc' : Pc} {a : Action} {es : List SlotEvent}

theorem act_counted (hc : st.Counted) (h : act st pc a = some (pc', st', es)) : st'.Counted := by
  cases act_section h with
  | refuse | start | giveUp | miss => exact hc
  | find req hsearch => exact (hc.takes ((req.search_attempt _).takes hsearch)).1
  | async r => exact hc.async (slotAllocAsyncInner_cases st r)
  | free slot => exact hc.slotFreeLocked slot
  | freeRange base count => exact hc.slotFreeRangeFrom base 0 count
  | drive req left r => exact hc.drive (driveCspaceExpand_cases st r)

/-- A full allocator stays full under an action that gives it no free slot. -/
theorem act_full (hc : st.Counted) (hfull : st.Full) (hno : ¬st.Disturbs pc a)
    (h : act st pc a = some (pc', st', es)) : st'.Full := by
  cases act_section h with
  | refuse | start | giveUp | miss => exact hfull
  | find req hsearch => exact (hc.takes ((req.search_attempt _).takes hsearch)).2 hfull
  | async r =>
    exact hfull.congr <| (slotAllocAsyncInner_cases st r).segments_eq hc hfull fun hreq h0 =>
      hno (.inr (.inr ⟨hreq, r, rfl, h0⟩))
  | free slot =>
    have hfalse : (slotFreeLocked st slot).1 = false :=
      Bool.eq_false_iff.2 fun htrue => hno (.inl ⟨slot, rfl, htrue⟩)
    rwa [slotFreeLocked_eq_self hfalse]
  | freeRange base count =>
    rw [slotFreeRangeFrom_eq_self]
    · exact hfull
    · intro i hi
      rw [Nat.zero_add]
      exact Bool.eq_false_iff.2 fun htrue => hno (.inr (.inl ⟨base, count, rfl, i, hi, htrue⟩))
  | drive req left r =>
    exact hfull.congr <| (driveCspaceExpand_cases st r).segments_eq fun hreq h0 =>
      hno (.inr (.inr ⟨hreq, r, rfl, h0⟩))

theorem AsyncCase.full_of_request (h : AsyncCase st r res st') (hidle : st.expandState = .idle)
    (hreq : st'.expandState = .requested) : (allocSingleLocked st).1 = none := by
  cases h with
  | find halloc =>
    rw [((allocSingleLocked_attempt _).takes halloc).quiet.state, hidle] at hreq
    cases hreq
  | refuse => cases hidle.symm.trans hreq
  | request hfull | expand hfull => exact hfull
  | probe hpending => cases hidle.symm.trans hpending

/-- Only a driver, or an asynchronous allocation that finds no slot, requests an
    expansion. -/
theorem act_requests (h : act st pc a = some (pc', st', es)) (hidle : st.expandState = .idle)
    (hreq : st'.expandState = .requested) :
    (∃ req left, pc = .driving req left) ∨ (allocSingleLocked st).1 = none := by
  have hquiet : ¬st.Quiet st' := fun hq => by
    rw [hq.state, hidle] at hreq
    cases hreq
  cases act_section h with
  | refuse | start | giveUp | miss => exact absurd .refl hquiet
  | find req hsearch => exact absurd ((req.search_attempt _).takes hsearch).quiet hquiet
  | async r => exact .inr ((slotAllocAsyncInner_cases st r).full_of_request hidle hreq)
  | free slot => exact absurd (slotFreeLocked_quiet st slot) hquiet
  | freeRange base count => exact absurd (slotFreeRangeFrom_quiet st base 0 count) hquiet
  | drive req left r => exact .inl ⟨req, left, rfl⟩

/-! ### The turns of a driver -/

/-- There can be no further expansion. -/
def CannotExpand (st : SlotAllocState) : Prop :=
  st.cspaceNtfn = 0 ∨ maxCspaceExpansions ≤ st.cspaceExpandCount ∨
    maxSegments ≤ st.segments.length ∨ st.expandState = .failed

/-- What a turn of the driver does, by its result. -/
theorem DriveCase.turn (h : DriveCase st r p st') (hready : st.initialized = true) :
    (p = .completed ∧ ¬st.CannotExpand ∧ st'.cspaceExpandCount = st.cspaceExpandCount + 1) ∨
      st'.segments = st.segments ∧ st'.cspaceExpandCount = st.cspaceExpandCount ∧
      (p = .pending ∧ (st.CannotExpand → st'.CannotExpand) ∨ p = .failed ∧ st.CannotExpand) := by
  have hseg := ensureRootBits_segments st r
  have hcount := ensureRootBits_cspaceExpandCount st r
  -- with a notification and an expansion left, only the table or an earlier failure is in the way
  have hcannot (hn : st.cspaceNtfn ≠ 0) (hc : st.cspaceExpandCount < maxCspaceExpansions)
      (hne : st.expandState ≠ .failed) (h : st.CannotExpand) : maxSegments ≤ st.segments.length :=
    ((h.resolve_left hn).resolve_left hc.not_ge).resolve_right hne
  cases h with
  | refuse hno => exact .inr ⟨rfl, rfl, .inr ⟨rfl, (hno hready).imp_right .inl⟩⟩
  | request hn hc hidle =>
    exact .inr ⟨hseg, hcount, .inl ⟨rfl, fun h => .inr (.inr (.inl
      (hseg ▸ hcannot hn hc (by simp [hidle]) h)))⟩⟩
  | probe hn hc hreq =>
    have hfull := hcannot hn hc (by simp [hreq])
    unfold pollRequestedExpandLocked
    split
    · exact .inr ⟨hseg, hcount, .inl ⟨rfl, fun h => .inr (.inr (.inl (hseg ▸ hfull h)))⟩⟩
    split
    · rename_i hroom
      exact .inr ⟨hseg, hcount, .inr ⟨rfl, .inr (.inr (.inl (hseg ▸ hroom)))⟩⟩
    · rename_i hroom
      exact .inl ⟨rfl, fun h => hroom (hseg ▸ hfull h), congrArg (· + 1) hcount⟩
  | failed hfailed => exact .inr ⟨hseg, hcount, .inr ⟨rfl, .inr (.inr (.inr hfailed))⟩⟩

end SlotAllocState

/-! ## Runs -/

open SlotAllocState

section

variable {base count ntfn : ℕ} {C : SlotSystem → ℕ → Action → Prop} {s s' : SlotSystem}
  {h es : List SlotEvent}

theorem slotAllocInit_counted (base count ntfn : ℕ) :
    (slotAllocInit base count ntfn).Counted := by
  have hloop (room b r : ℕ) : ∀ seg ∈ (initSegments room b r).1, seg.Counted := by
    induction room generalizing b r with
    | zero => exact fun seg hseg => absurd hseg List.not_mem_nil
    | succ room ih =>
      unfold initSegments
      split
      · exact fun seg hseg => absurd hseg List.not_mem_nil
      · intro seg hseg
        rcases List.mem_cons.1 hseg with rfl | hseg
        · exact Segment.counted_fresh (Nat.min_le_right _ _)
        · exact ih _ _ seg hseg
  unfold slotAllocInit
  intro seg hseg
  simp only at hseg
  split_ifs at hseg
  · rcases List.mem_append.1 hseg with hseg | hseg
    · rw [List.mem_singleton.1 hseg]
      exact Segment.counted_fresh (Nat.zero_le _)
    · exact hloop _ _ _ seg hseg
  · exact absurd hseg List.not_mem_nil
  · exact hloop _ _ _ seg hseg
  · exact absurd hseg List.not_mem_nil

variable {st st' : SlotAllocState}

/-- The allocator stays initialized, and its expansions are counted up. -/
theorem ExpandMove.mono {o : Option ProbeReply} (h : ExpandMove o st st') :
    st'.initialized = st.initialized ∧
      st.cspaceExpandCount ≤ st'.cspaceExpandCount := by
  cases h with
  | keep k | request k | fail k => exact ⟨k.initialized, k.count.ge⟩
  | complete _ _ _ hi _ _ hc => exact ⟨hi, hc ▸ Nat.le_succ _⟩

/-- What holds of a thread in a call: the allocator is initialized, and the call
    has made as many turns as there are expansions, at most. -/
def InCall (st : SlotAllocState) : Pc → Prop
  | .idle => True
  | .trying _ left => st.initialized = true ∧ maxSegments + 2 ≤ left + st.cspaceExpandCount
  | .driving _ left => st.initialized = true ∧ maxSegments + 1 ≤ left + st.cspaceExpandCount

theorem InCall.mono {pc : Pc} (h : InCall st pc) (hi : st'.initialized = st.initialized)
    (hc : st.cspaceExpandCount ≤ st'.cspaceExpandCount) : InCall st' pc := by
  cases pc with
  | idle => trivial
  | trying _ left | driving _ left => exact ⟨hi.trans h.1, h.2.trans (Nat.add_le_add_left hc left)⟩

theorem act_inCall {pc pc' : Pc} {a : Action} (hc : InCall st pc)
    (h : act st pc a = some (pc', st', es)) : InCall st' pc' := by
  obtain ⟨hinit, hcount⟩ := ExpandMove.mono (act_move h)
  cases act_section h with
  | refuse | find | async | free | freeRange | giveUp => trivial
  | start req hready => exact ⟨hready, Nat.le_add_right _ _⟩
  | miss req left => exact ⟨hc.1, by have := hc.2; omega⟩
  | drive req left r =>
    rcases (driveCspaceExpand_cases st r).turn hc.1 with
      ⟨hp, -, hone⟩ | ⟨-, -, ⟨hp, -⟩ | ⟨hp, -⟩⟩ <;> rw [hp]
    · refine ⟨hinit.trans hc.1, ?_⟩
      have := hc.2
      omega
    · exact hc.mono hinit hcount
    · trivial

/-- What holds of the threads in every run. -/
structure Calls (s : SlotSystem) : Prop where
  counted : s.alloc.Counted
  inCall : ∀ u, InCall s.alloc (s.pc u)

theorem Calls.step (hs : Calls s) (hstep : (slotAllocRuns base count ntfn C).step s es s') :
    Calls s' := by
  obtain ⟨t, a, pc', st', -, hact, rfl⟩ := hstep
  obtain ⟨hinit, hcount⟩ := ExpandMove.mono (act_move hact)
  refine ⟨act_counted hs.counted hact, fun u => ?_⟩
  rcases eq_or_ne u t with rfl | hu
  · simp only [Function.update_self]
    exact act_inCall (hs.inCall u) hact
  · simp only [Function.update_of_ne hu]
    exact (hs.inCall u).mono hinit hcount

theorem calls_reaches (hreach : (slotAllocRuns base count ntfn C).Reaches s h) : Calls s := by
  refine hreach.invariant (P := fun s _ => Calls s) ?_ fun s h es s' hs hstep => hs.step hstep
  rintro s rfl
  exact ⟨slotAllocInit_counted base count ntfn, fun _ => trivial⟩

/-- No step gives the allocator a free slot while another thread is between a
    search for one slot in vain and the end of its drive. -/
def Undisturbed (s : SlotSystem) (t : ℕ) (a : Action) : Prop :=
  s.alloc.Disturbs (s.pc t) a → ∀ u ≠ t, ∀ left, s.pc u ≠ .driving .single left

/-- In an undisturbed run an allocator in which a thread drives for one slot is
    full. -/
theorem drivers_full (hC : ∀ s t a, C s t a → Undisturbed s t a)
    (hreach : (slotAllocRuns base count ntfn C).Reaches s h) {u left : ℕ}
    (hu : s.pc u = .driving .single left) : s.alloc.Full := by
  have hinv := hreach.invariant (P := fun s _ => Calls s ∧
    ∀ u left, s.pc u = .driving .single left → s.alloc.Full) ?_ ?_
  · exact hinv.2 u left hu
  · rintro s rfl
    exact ⟨⟨slotAllocInit_counted base count ntfn, fun _ => trivial⟩, fun _ _ hu => by cases hu⟩
  · rintro s h es s' ⟨hs, hfull⟩ hstep
    refine ⟨hs.step hstep, fun u left hu => ?_⟩
    obtain ⟨t, a, pc', st', hc, hact, rfl⟩ := hstep
    by_cases hut : u = t
    · -- The thread comes from a search in vain, or waits on in the same drive.
      subst hut
      simp only [Function.update_self] at hu
      have hcall := hs.inCall u
      have hown := hfull u
      generalize s.pc u = pc at hact hcall hown
      cases act_section hact with
      | refuse | start | find | async | free | freeRange | giveUp => cases hu
      | miss req left hsearch =>
        cases hu
        rw [Request.search, slotAllocFast, if_neg (by simp [hcall.1])] at hsearch
        exact hs.counted.allocSingleLocked_eq_none.1 hsearch
      | drive req left r =>
        rcases (driveCspaceExpand_cases s.alloc r).turn hcall.1 with
          ⟨hp, -⟩ | ⟨hseg, -, ⟨hp, -⟩ | ⟨hp, -⟩⟩ <;> rw [hp] at hu <;> cases hu
        exact (hown _ rfl).congr hseg
    · -- Another thread gives it no free slot.
      simp only [Function.update_of_ne hut] at hu
      exact act_full hs.counted (hfull u left hu)
        (fun hdist => hC s t a hc hdist u hut left hu) hact

/-! ## Requests -/

/-- The calls of `slot_alloc`, `slot_alloc_async` and `slot_free`. -/
def Action.Basic : Action → Prop
  | .slotAlloc | .slotAllocAsync _ | .slotFree _ | .resume _ => True
  | .slotAllocConsecutive _ | .slotAllocNoExpand | .slotFreeRange _ _ => False

/-- Threads that make these calls only look for one slot at a time. -/
theorem single_reaches (hC : ∀ s t a, C s t a → a.Basic)
    (hreach : (slotAllocRuns base count ntfn C).Reaches s h) {u left : ℕ} {req : Request}
    (hu : s.pc u = .trying req left ∨ s.pc u = .driving req left) : req = .single := by
  refine hreach.invariant (P := fun s _ => ∀ u req left,
    s.pc u = .trying req left ∨ s.pc u = .driving req left → req = .single) ?_ ?_ u req left hu
  · rintro s rfl u req left (hu | hu) <;> cases hu
  · rintro s h es s' hs ⟨t, a, pc', st', hc, hact, rfl⟩ u req left hu
    rcases eq_or_ne u t with rfl | hut
    · simp only [Function.update_self] at hu
      have hbasic := hC s u a hc
      have hown := hs u
      generalize s.pc u = pc at hact hown
      cases act_section hact with
      | refuse | find | async | free | freeRange | giveUp => rcases hu with hu | hu <;> cases hu
      | start req' =>
        rcases hu with hu | hu <;> cases hu
        cases req with
        | single => rfl
        | consecutive => exact hbasic.elim
      | miss req' left' =>
        rcases hu with hu | hu <;> cases hu
        exact hown req _ (.inl rfl)
      | drive req' left' r =>
        refine hown req left' (.inr (congrArg (Pc.driving · left') ?_))
        cases hp : (driveCspaceExpand s.alloc r).1 <;> rw [hp] at hu <;>
          rcases hu with hu | hu <;> cases hu <;> rfl
    · simp only [Function.update_of_ne hut] at hu
      exact hs u req left hu

/-- Any number of threads call `slot_alloc`, `slot_alloc_async` and `slot_free`. If
    no step gives the allocator a free slot while another thread is between a search
    in vain and the end of its drive, then an expansion is requested only when no
    segment has a free slot. -/
theorem slotAlloc_requests_full
    (hreach : (slotAllocRuns base count ntfn fun s t a => a.Basic ∧ Undisturbed s t a).Reaches s h)
    (hstep : (slotAllocRuns base count ntfn fun s t a => a.Basic ∧ Undisturbed s t a).step s es s')
    (hidle : s.alloc.expandState = .idle) (hreq : s'.alloc.expandState = .requested) :
    s.alloc.Full := by
  obtain ⟨t, a, pc', st', hc, hact, rfl⟩ := hstep
  rcases act_requests hact hidle hreq with ⟨req, left, hpc⟩ | hnone
  · obtain rfl := single_reaches (fun _ _ _ hc => hc.1) hreach (.inr hpc)
    exact drivers_full (fun _ _ _ hc => hc.2) hreach hpc
  · exact (calls_reaches hreach).counted.allocSingleLocked_eq_none.1 hnone

end

/-- While no expansion is requested, an allocation disturbs no other thread. -/
theorem undisturbed_of_idle {s : SlotSystem} {t : ℕ} (a : Action)
    (ha : a = .slotAlloc ∨ a = .resume ⟨0, none⟩) (hs : s.alloc.expandState = .idle) :
    Undisturbed s t a := by
  rintro (⟨slot, rfl, -⟩ | ⟨base, count, rfl, -⟩ | ⟨hreq, -⟩)
  · rcases ha with ha | ha <;> cases ha
  · rcases ha with ha | ha <;> cases ha
  · rw [hs] at hreq
    cases hreq

/-- Two threads and one slot. The second finds no slot and requests an expansion
    while the first holds the slot. -/
theorem slotAlloc_requests_full_one_slot :
    ∃ s s' h es, (slotAllocRuns 64 1 5 fun s t a => a.Basic ∧ Undisturbed s t a).Reaches s h ∧
      (slotAllocRuns 64 1 5 fun s t a => a.Basic ∧ Undisturbed s t a).step s es s' ∧
      s.alloc.expandState = .idle ∧ s'.alloc.expandState = .requested ∧ s.alloc.Full := by
  have hcall {s : SlotSystem} {t : ℕ} (hs : s.alloc.expandState = .idle) :
      Action.slotAlloc.Basic ∧ Undisturbed s t .slotAlloc :=
    ⟨trivial, undisturbed_of_idle _ (.inl rfl) hs⟩
  have hresume {s : SlotSystem} {t : ℕ} (hs : s.alloc.expandState = .idle) :
      (Action.resume ⟨0, none⟩).Basic ∧ Undisturbed s t (.resume ⟨0, none⟩) :=
    ⟨trivial, undisturbed_of_idle _ (.inr rfl) hs⟩
  have h₀ := Lts.Reaches.init (m := slotAllocRuns 64 1 5 fun s t a =>
    a.Basic ∧ Undisturbed s t a) rfl
  have h₁ := h₀.step ⟨0, _, _, _, hcall rfl, rfl, rfl⟩
  have h₂ := h₁.step ⟨0, _, _, _, hresume rfl, rfl, rfl⟩
  have h₃ := h₂.step ⟨1, _, _, _, hcall rfl, rfl, rfl⟩
  have h₄ := h₃.step ⟨1, _, _, _, hresume rfl, rfl, rfl⟩
  refine ⟨_, _, _, _, h₄, ⟨1, _, _, _, hresume rfl, rfl, rfl⟩, rfl, rfl, ?_⟩
  exact slotAlloc_requests_full h₄ ⟨1, _, _, _, hresume rfl, rfl, rfl⟩ rfl rfl

/-- Two threads and one slot. The second finds no slot, the first frees it, and the
    second requests an expansion all the same. -/
theorem slotAlloc_requests_early :
    ∃ s s' h es, (slotAllocRuns 64 1 5 fun _ _ a => a.Basic).Reaches s h ∧
      (slotAllocRuns 64 1 5 fun _ _ a => a.Basic).step s es s' ∧
      s.alloc.expandState = .idle ∧ s'.alloc.expandState = .requested ∧ ¬s.alloc.Full := by
  have h₀ := Lts.Reaches.init (m := slotAllocRuns 64 1 5 fun _ _ a => a.Basic) rfl
  have h₁ := h₀.step ⟨0, .slotAlloc, _, _, trivial, rfl, rfl⟩
  have h₂ := h₁.step ⟨0, .resume ⟨0, none⟩, _, _, trivial, rfl, rfl⟩
  have h₃ := h₂.step ⟨1, .slotAlloc, _, _, trivial, rfl, rfl⟩
  have h₄ := h₃.step ⟨1, .resume ⟨0, none⟩, _, _, trivial, rfl, rfl⟩
  have h₅ := h₄.step ⟨0, .slotFree 64, _, _, trivial, rfl, rfl⟩
  refine ⟨_, _, _, _, h₅, ⟨1, .resume ⟨0, none⟩, _, _, trivial, rfl, rfl⟩, rfl, rfl,
    fun hfull => ?_⟩
  have hbit := hfull _ (.head _) 0 Nat.one_pos
  revert hbit
  decide

/-! ## Failed calls -/

/-- A thread is in a call of `slot_alloc`. -/
def InSlotAlloc : Pc → Prop
  | .trying .single _ | .driving .single _ => True
  | _ => False

section

variable {base count ntfn : ℕ} {C : SlotSystem → ℕ → Action → Prop} {t : ℕ} {s : SlotSystem}
  {h : List SlotEvent} {l : List SlotSystem}

/-- The call of `slot_alloc` that the thread `t` is in will fail: it returns from
    `s`, or some thread takes a step before. The list has the states from `s` to the
    return. -/
inductive Fails (base count ntfn : ℕ) (C : SlotSystem → ℕ → Action → Prop) (t : ℕ) :
    SlotSystem → List SlotSystem → Prop
  | ret {s : SlotSystem} {r : ProbeReply} {st' : SlotAllocState} (hin : InSlotAlloc (s.pc t))
      (cond : C s t (.resume r)) (hact : act s.alloc (s.pc t) (.resume r) = some (.idle, st', [])) :
      Fails base count ntfn C t s [s, ⟨st', Function.update s.pc t .idle⟩]
  | step {s s' : SlotSystem} {es : List SlotEvent} {l : List SlotSystem}
      (hin : InSlotAlloc (s.pc t)) (hstep : (slotAllocRuns base count ntfn C).step s es s')
      (rest : Fails base count ntfn C t s' l) : Fails base count ntfn C t s (s :: l)

/-- A call of `slot_alloc` that the thread `t` makes in `s`, on an initialized
    allocator, and that fails. The list has the states from its start to its
    return. -/
structure SlotAllocFails (base count ntfn : ℕ) (C : SlotSystem → ℕ → Action → Prop) (t : ℕ)
    (s : SlotSystem) (l : List SlotSystem) : Prop where
  idle : s.pc t = .idle
  ready : s.alloc.initialized = true
  cond : C s t .slotAlloc
  fails : ∃ l', l = s :: l' ∧ Fails base count ntfn C t
    ⟨s.alloc, Function.update s.pc t (.trying .single (maxSegments + 2))⟩ l'

/-- A thread that returns from `slot_alloc` with no slot comes from its drive, and
    there can be no expansion. -/
theorem returns_failed (hreach : (slotAllocRuns base count ntfn C).Reaches s h) {r : ProbeReply}
    {st' : SlotAllocState} (hin : InSlotAlloc (s.pc t))
    (hact : act s.alloc (s.pc t) (.resume r) = some (.idle, st', [])) :
    (∃ left, s.pc t = .driving .single left) ∧ s.alloc.CannotExpand := by
  have hcall := (calls_reaches hreach).inCall t
  have hcount := (protocol_reaches hreach).count_le
  generalize s.pc t = pc at hin hact hcall
  generalize hpc' : Pc.idle = pc' at hact
  generalize hes : [] = es at hact
  generalize ha : Action.resume r = a at hact
  cases act_section hact with
  | refuse | start | async | free | freeRange => exact hin.elim
  | find => cases hes
  | giveUp =>
    -- The loop has more turns than there can be expansions.
    have := hcall.2
    simp only [maxSegments, maxCspaceExpansions] at *
    omega
  | miss => cases hpc'
  | drive req left r =>
    cases req with
    | consecutive => exact hin.elim
    | single =>
      refine ⟨⟨left, rfl⟩, ?_⟩
      rcases (driveCspaceExpand_cases s.alloc r).turn hcall.1 with
        ⟨hp, -⟩ | ⟨-, -, ⟨hp, -⟩ | ⟨-, hcannot⟩⟩
      · rw [hp] at hpc'
        cases hpc'
      · rw [hp] at hpc'
        cases hpc'
      · exact hcannot

theorem Fails.exhausted (hC : ∀ s t a, C s t a → Undisturbed s t a)
    (hfails : Fails base count ntfn C t s l)
    (hreach : (slotAllocRuns base count ntfn C).Reaches s h) :
    ∃ s' ∈ l, s'.alloc.Full ∧ s'.alloc.CannotExpand := by
  induction hfails generalizing h with
  | ret hin _ hact =>
    obtain ⟨⟨left, hpc⟩, hcannot⟩ := returns_failed hreach hin hact
    exact ⟨_, .head _, drivers_full hC hreach hpc, hcannot⟩
  | step _ hstep _ ih =>
    obtain ⟨s', hmem, hs'⟩ := ih (hreach.step hstep)
    exact ⟨s', .tail _ hmem, hs'⟩

/-- If no step gives the allocator a free slot while another thread is between a
    search for one slot in vain and the end of its drive, then a call of
    `slot_alloc` fails only if at some instant of the call every slot of every
    segment was handed out and no further expansion was possible. -/
theorem slotAlloc_fails_exhausted
    (hreach : (slotAllocRuns base count ntfn Undisturbed).Reaches s h)
    (hfails : SlotAllocFails base count ntfn Undisturbed t s l) :
    ∃ s' ∈ l, s'.alloc.Full ∧ s'.alloc.CannotExpand := by
  obtain ⟨l', rfl, hfails'⟩ := hfails.fails
  have hstart : act s.alloc (s.pc t) .slotAlloc =
      some (.trying .single (maxSegments + 2), s.alloc, []) := by
    simp [act, hfails.idle, hfails.ready]
  obtain ⟨s', hmem, hs'⟩ := hfails'.exhausted (fun _ _ _ hc => hc)
    (hreach.step ⟨t, .slotAlloc, _, _, hfails.cond, hstart, rfl⟩)
  exact ⟨s', .tail _ hmem, hs'⟩

end

/-- Two threads and one slot, and no expansions: the second thread gets none. -/
theorem slotAlloc_fails_exhausted_one_slot :
    ∃ s h l, (slotAllocRuns 64 1 0 Undisturbed).Reaches s h ∧
      SlotAllocFails 64 1 0 Undisturbed 1 s l ∧
      ∃ s' ∈ l, s'.alloc.Full ∧ s'.alloc.CannotExpand := by
  suffices hfails : ∃ s h l, (slotAllocRuns 64 1 0 Undisturbed).Reaches s h ∧
      SlotAllocFails 64 1 0 Undisturbed 1 s l by
    obtain ⟨s, h, l, hreach, hfails⟩ := hfails
    exact ⟨s, h, l, hreach, hfails, slotAlloc_fails_exhausted hreach hfails⟩
  have hcall {s : SlotSystem} {t : ℕ} (hs : s.alloc.expandState = .idle) :
      Undisturbed s t .slotAlloc := undisturbed_of_idle _ (.inl rfl) hs
  have hresume {s : SlotSystem} {t : ℕ} (hs : s.alloc.expandState = .idle) :
      Undisturbed s t (.resume ⟨0, none⟩) := undisturbed_of_idle _ (.inr rfl) hs
  have h₀ := Lts.Reaches.init (m := slotAllocRuns 64 1 0 Undisturbed) rfl
  have h₁ := h₀.step ⟨0, _, _, _, hcall rfl, rfl, rfl⟩
  have h₂ := h₁.step ⟨0, _, _, _, hresume rfl, rfl, rfl⟩
  exact ⟨_, _, _, h₂, rfl, rfl, hcall rfl, _, rfl, .step trivial
    ⟨1, _, _, _, hresume rfl, rfl, rfl⟩ (.ret trivial (hresume rfl) rfl)⟩

/-! ### A call that fails while there are free slots -/

section

variable {st : SlotAllocState}

section

variable (hready : st.initialized = true) (hn : st.cspaceNtfn ≠ 0)
  (hc : st.cspaceExpandCount < maxCspaceExpansions)

include hready hn hc

/-- Where an expansion is possible, the driver requests it. -/
theorem driveCspaceExpand_request (hidle : st.expandState = .idle) :
    driveCspaceExpand st ⟨0, none⟩ = (.pending, { st with expandState := .requested }) := by
  have hroots : ensureRootBits st ⟨0, none⟩ = st := by simp [ensureRootBits]
  simp [driveCspaceExpand, hready, hn, hc, hroots, hidle]

/-- The driver registers the segment of a requested expansion that it finds. -/
theorem driveCspaceExpand_register (hreq : st.expandState = .requested)
    (hroom : st.segments.length < maxSegments) :
    ∃ st', driveCspaceExpand st ⟨0, none⟩ = (.completed, st') ∧
      st'.segments = st.segments ++ [Segment.fresh (probeAddr st) (2 ^ slotExpandBitsDefault)] ∧
      st'.activeSeg = st.segments.length ∧ st'.initialized = true ∧
      st'.cspaceNtfn = st.cspaceNtfn ∧ st'.expandState = .idle ∧
      st'.cspaceExpandCount = st.cspaceExpandCount + 1 := by
  have hroots : ensureRootBits st ⟨0, none⟩ = st := by simp [ensureRootBits]
  simp [driveCspaceExpand, hready, hn, hc, hroots, hreq, pollRequestedExpandLocked,
    not_le.2 hroom]

end

/-- The scan of a segment with no slot handed out finds its run at once. -/
theorem segmentFindRun_free {seg : Segment} (hfree : ∀ i, segmentIsUsed seg i = false)
    {count todo idx runStart runLen : ℕ} (hlt : runLen < count) (hle : count ≤ runLen + todo) :
    segmentFindRun seg count todo idx runStart runLen =
      some (if runLen = 0 then idx else runStart) := by
  induction todo generalizing idx runStart runLen with
  | zero => omega
  | succ todo ih =>
    simp only [segmentFindRun, hfree, Bool.not_false, ↓reduceIte]
    split
    · rfl
    · rw [ih (by omega) (by omega), if_neg (Nat.succ_ne_zero _)]

/-- All indices of a fresh segment are free. -/
theorem Segment.freeRun_fresh (base count : ℕ) : (fresh base count).FreeRun 0 count :=
  ⟨(Nat.zero_add count).le, fun j _ _ => Bitmap.test_empty j⟩

/-- A fresh segment hands out all its slots at once. -/
theorem segmentAllocContiguous_fresh {base count : ℕ} (h₁ : 1 < count) :
    segmentAllocContiguous (.fresh base count) count =
      (some (base % 2 ^ 64), (Segment.fresh base count).markRun 0 count) := by
  have hfree (i : ℕ) : segmentIsUsed (.fresh base count) i = false := Bitmap.test_empty i
  have hrun : segmentFindRun (.fresh base count) count count 0 0 0 = some 0 :=
    segmentFindRun_free hfree (by omega) (by omega)
  rw [segmentAllocContiguous, if_neg (by simp [Segment.fresh]; omega), if_neg (by omega)]
  simp only [Segment.fresh] at hrun ⊢
  rw [hrun]
  rfl

/-- Then it is full. -/
theorem Segment.full_markRun_fresh {base count : ℕ} (h : count ≤ maxSegmentSlots) :
    ((fresh base count).markRun 0 count).Full := by
  intro i hi
  obtain ⟨-, -, htest⟩ := (freeRun_fresh base count).markRun h
  rw [markRun_count] at hi
  rw [htest, Nat.zero_add, decide_eq_true ⟨Nat.zero_le i, hi⟩, Bool.true_or]

/-- An allocator whose last segment is fresh, and the active one, hands out all its
    slots at once. -/
theorem search_fresh {l : List Segment} {base count : ℕ} (hready : st.initialized = true)
    (hsegs : st.segments = l ++ [Segment.fresh base count]) (hactive : st.activeSeg = l.length)
    (h₁ : 1 < count) :
    (Request.consecutive count).search st =
      (some (base % 2 ^ 64), { st with
        segments := l ++ [(Segment.fresh base count).markRun 0 count]
        activeSeg := l.length }) := by
  rw [Request.search, slotAllocConsecutiveFast, if_neg (by simp [hready]; omega), scanSegments,
    hsegs, List.length_append, List.length_singleton, List.range_succ_eq_map, scanOffsets]
  simp [hsegs, hactive, segmentAllocContiguous_fresh h₁]

/-- A search in a full allocator is in vain. -/
theorem search_full (hc : st.Counted) (hfull : st.Full) (req : Request) :
    (req.search st).1 = none := by
  cases req with
  | single =>
    rw [Request.search, slotAllocFast, apply_ite Prod.fst, hc.allocSingleLocked_eq_none.2 hfull,
      ite_self]
  | consecutive count =>
    have hscan := (@scanSegments_eq_none st _ _ (segmentAllocContiguous_attempt · count)).2
      fun seg hseg => (hc seg hseg).allocContiguous_eq_none (hfull seg hseg) count
    rw [Request.search, slotAllocConsecutiveFast, apply_ite Prod.fst, hscan, ite_self]

theorem act_call (hready : st.initialized = true) {req : Request} (hreq : req ≠ .consecutive 0) :
    act st .idle req.call = some (.trying req (maxSegments + 2), st, []) := by
  cases req with
  | single => simp [Request.call, act, hready]
  | consecutive count =>
    have hcount : count ≠ 0 := fun h => hreq (h ▸ rfl)
    simp [Request.call, act, hready, hcount]

variable {st' : SlotAllocState} {req : Request}

theorem act_miss (h : (req.search st).1 = none) (left : ℕ) (r : ProbeReply) :
    act st (.trying req (left + 1)) (.resume r) = some (.driving req left, st, []) := by
  simp only [act, (req.search_attempt st).eq_none h]

theorem act_find {slot : ℕ} (h : req.search st = (some slot, st')) (left : ℕ) (r : ProbeReply) :
    act st (.trying req (left + 1)) (.resume r) = some (.idle, st', [.handed slot req.size]) := by
  simp only [act, h]

theorem act_drive {r : ProbeReply} {progress : ExpandProgress}
    (h : driveCspaceExpand st r = (progress, st')) (req : Request) (left : ℕ) :
    act st (.driving req left) (.resume r) = some (progress.next req left, st', []) := by
  cases progress <;> simp only [act, h, ExpandProgress.next]

/-- A thread goes on, whatever the others do. -/
theorem step_update {base count ntfn t : ℕ} {pc : ℕ → Pc} {p p' : Pc} {a : Action}
    {es : List SlotEvent} (h : act st p a = some (p', st', es)) :
    (slotAllocRuns base count ntfn fun _ _ _ => True).step ⟨st, Function.update pc t p⟩ es
      ⟨st', Function.update pc t p'⟩ := by
  refine ⟨t, a, p', st', trivial, ?_, ?_⟩
  · simp only [Function.update_self]
    exact h
  · simp only [Function.update_idem]

/-- The allocator is full, after `k` expansions, and all threads are out of calls. -/
structure Filled (k : ℕ) (s : SlotSystem) : Prop where
  pc : s.pc = fun _ => .idle
  ready : s.alloc.initialized = true
  full : s.alloc.Full
  idle : s.alloc.expandState = .idle
  ntfn : s.alloc.cspaceNtfn ≠ 0
  count : s.alloc.cspaceExpandCount = k
  length : s.alloc.segments.length = k + 1

/-- A process that starts with an empty range gets an expansion and hands out all
    its slots at once, again and again. -/
theorem filled_reaches {k : ℕ} (hk : k ≤ maxCspaceExpansions) :
    ∃ s h, (slotAllocRuns 64 0 5 fun _ _ _ => True).Reaches s h ∧ Filled k s := by
  induction k with
  | zero =>
    refine ⟨_, _, .init rfl, rfl, rfl, fun seg hseg => ?_, rfl, by decide, rfl, rfl⟩
    rw [List.mem_singleton.1 hseg]
    exact fun i hi => absurd hi (Nat.not_lt_zero i)
  | succ k ih =>
    obtain ⟨⟨st, pc⟩, h, hreach, rfl, hready, hfull, hidle, hn, hcount, hlen⟩ := ih (by omega)
    simp only at hready hfull hidle hn hcount hlen
    have hlt : st.cspaceExpandCount < maxCspaceExpansions := by omega
    have hroom : st.segments.length < maxSegments := by
      simp only [maxSegments, maxCspaceExpansions] at *
      omega
    have hmiss := search_full (calls_reaches hreach).counted hfull (.consecutive 1024)
    obtain ⟨st₂, hdrive, hsegs, hactive, hready₂, hn₂, hidle₂, hcount₂⟩ :=
      @driveCspaceExpand_register { st with expandState := .requested } hready hn hlt rfl hroom
    have hfind := search_fresh hready₂ hsegs hactive (by decide)
    have hquiet := ((Request.search_attempt _ _).takes hfind).quiet
    -- The thread 0 asks for 1024 slots, expands, and gets the whole expansion.
    have h₀ : (slotAllocRuns 64 0 5 fun _ _ _ => True).Reaches
        ⟨st, Function.update (fun _ => .idle) 0 .idle⟩ h := by
      rwa [Function.update_eq_self]
    have h₅ := ((((h₀.step (step_update (act_call hready (by decide)))).step
      (step_update (act_miss hmiss _ ⟨0, none⟩))).step (step_update (act_drive
        (driveCspaceExpand_request hready hn hlt hidle) _ _))).step (step_update
          (act_drive hdrive _ _))).step (step_update (act_find hfind _ ⟨0, none⟩))
    rw [Function.update_eq_self] at h₅
    refine ⟨_, _, h₅, rfl, hquiet.initialized.trans hready₂, fun seg hseg => ?_,
      hquiet.state.trans hidle₂, ?_, ?_, ?_⟩
    · rcases List.mem_append.1 hseg with hseg | hseg
      · exact hfull seg hseg
      · rw [List.mem_singleton.1 hseg]
        exact Segment.full_markRun_fresh (by decide)
    · rw [hquiet.ntfn, hn₂]
      exact hn
    · rw [hquiet.count, hcount₂]
      exact congrArg (· + 1) hcount
    · rw [← length_ranges, hquiet.ranges, length_ranges, hsegs, List.length_append]
      exact congrArg (· + 1) hlen

end

/-- After seven expansions every slot is handed out. The thread 1 finds no slot. The
    thread 0 completes the eighth expansion, with 1024 free slots. Then the drive of
    the thread 1 sees that there are eight expansions, and fails: there was no
    instant at which the allocator was full and could not expand. -/
theorem slotAlloc_fails_early :
    ∃ s h l, (slotAllocRuns 64 0 5 fun _ _ _ => True).Reaches s h ∧
      SlotAllocFails 64 0 5 (fun _ _ _ => True) 1 s l ∧
      ∀ s' ∈ l, ¬(s'.alloc.Full ∧ s'.alloc.CannotExpand) := by
  obtain ⟨⟨st, pc⟩, h, hreach, rfl, hready, hfull, hidle, hn, hcount, hlen⟩ :=
    @filled_reaches 7 (by decide)
  simp only at hready hfull hidle hn hcount hlen
  have hlt : st.cspaceExpandCount < maxCspaceExpansions := by rw [hcount]; decide
  have hroom : st.segments.length < maxSegments := by rw [hlen]; decide
  have hmiss := search_full (calls_reaches hreach).counted hfull .single
  obtain ⟨st₂, hdrive, hsegs, -, hready₂, -, -, hcount₂⟩ :=
    @driveCspaceExpand_register { st with expandState := .requested } hready hn hlt rfl hroom
  have hfail : driveCspaceExpand st₂ ⟨0, none⟩ = (.failed, st₂) := by
    simp only at hcount₂
    simp [driveCspaceExpand, hready₂, hcount₂, hcount, maxCspaceExpansions]
  -- Until the expansion is there, it is possible; then there are free slots.
  have hcan (e : ExpandState) (he : e ≠ .failed) :
      ¬SlotAllocState.CannotExpand { st with expandState := e } := by
    rintro (h | h | h | h)
    · exact hn h
    · exact absurd h (not_le.2 hlt)
    · exact absurd h (not_le.2 hroom)
    · exact he h
  have hfree : ¬st₂.Full := by
    intro hfull₂
    have hlast := hfull₂ (.fresh _ _) (hsegs ▸ List.mem_append_right _ (.head _)) 0
      (Nat.two_pow_pos slotExpandBitsDefault)
    rw [Segment.fresh, Bitmap.test_empty] at hlast
    cases hlast
  -- The thread 1 in its drive, and the thread 0 at `p`.
  let pc (p : Pc) : ℕ → Pc :=
    Function.update (Function.update (fun _ => .idle) 1 (.driving .single 17)) 0 p
  have hpc : Function.update (fun _ => .idle) 1 (.driving .single 17) = pc .idle :=
    (Function.update_eq_self _ _).symm
  have hfails : Fails 64 0 5 (fun _ _ _ => True) 1
      ⟨st, Function.update (fun _ => .idle) 1 (.trying .single (maxSegments + 2))⟩
      [⟨st, Function.update (fun _ => .idle) 1 (.trying .single (maxSegments + 2))⟩,
        ⟨st, pc .idle⟩, ⟨st, pc (.trying .single 18)⟩, ⟨st, pc (.driving .single 17)⟩,
        ⟨{ st with expandState := .requested }, pc (.driving .single 17)⟩,
        ⟨st₂, pc (.trying .single 17)⟩,
        ⟨st₂, Function.update (pc (.trying .single 17)) 1 .idle⟩] := by
    refine .step trivial (hpc ▸ step_update (act_miss hmiss 17 ⟨0, none⟩)) ?_
    refine .step trivial (step_update (@act_call st hready .single (by decide))) ?_
    refine .step trivial (step_update (act_miss hmiss 17 ⟨0, none⟩)) ?_
    refine .step trivial (step_update (act_drive
      (driveCspaceExpand_request hready hn hlt hidle) .single 17)) ?_
    refine .step trivial (step_update (act_drive hdrive .single 17)) ?_
    exact .ret trivial trivial (act_drive hfail .single 17)
  refine ⟨_, h, _, hreach, ⟨rfl, hready, trivial, _, rfl, hfails⟩, ?_⟩
  simp only [List.mem_cons, List.not_mem_nil, or_false]
  rintro s' (rfl | rfl | rfl | rfl | rfl | rfl | rfl | rfl) ⟨hfull', hcannot⟩
  iterate 5
    · exact hcan st.expandState (by simp [hidle]) hcannot
  · exact hcan .requested (by decide) hcannot
  · exact hfree hfull'
  · exact hfree hfull'

end Trona
