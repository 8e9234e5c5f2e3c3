import Mathlib.Data.List.Pairwise
import Trona.Substrate.SlotAlloc.Segment

/-!
# The state of the slot allocator

The per-process allocator of capability slots (`substrate/slot_alloc.rs`): a
table of segments, searched from the active one on, and the expansion protocol
by which a process asks procmgr for a new sub-CNode and probes for it at a
deterministic address.

The functions here are the critical sections of the source, the code between
`slot_lock_acquire` and `slot_lock_release`. What a section does to the
allocator is one of three things, each said once:

* `Hands`: it hands out consecutive free slots of one segment;
* `slotFreeLocked_spec`: it takes one slot back;
* `pollRequestedExpandLocked_spec`: it registers the next expansion segment.

All three keep the invariant `SlotAllocState.Valid`.
-/

namespace Trona

/-- The segments the allocator has at most: `MAX_SEGMENTS`. -/
def maxSegments : ℕ := 16

/-- The size, in bits, of an expansion segment: `SLOT_EXPAND_BITS_DEFAULT`. -/
def slotExpandBitsDefault : ℕ := 10

/-- The root slot of the first expansion: `CSPACE_EXPAND_BASE`. -/
def cspaceExpandBase : ℕ := 1008

/-- The expansions a process gets at most: `MAX_CSPACE_EXPANSIONS`. -/
def maxCspaceExpansions : ℕ := 8

/-- The state machine of the expansion protocol. -/
inductive ExpandState
  | idle
  | requested
  | failed
  deriving DecidableEq

/-- How far a critical section got with an expansion. -/
inductive ExpandProgress
  | completed
  | pending
  | failed
  deriving DecidableEq

/-- The result of an asynchronous allocation. -/
inductive SlotResult
  | ok (slot : ℕ)
  | wouldBlock
  | exhausted
  deriving DecidableEq

/-- The state of the allocator. The first `seg_count` entries of the segment
    table are the list `segments`. -/
structure SlotAllocState where
  segments : List Segment
  activeSeg : ℕ
  initialized : Bool
  cspaceNtfn : ℕ
  expandState : ExpandState
  rootBits : ℕ
  expandedDepth : ℕ
  cspaceExpandCount : ℕ

/-- What the kernel answers during one critical section: the error of
    `cnode_copy_depth`, and the size in bits of the root CNode when
    `cnode_get_info` succeeds and the thread has an IPC buffer. -/
structure ProbeReply where
  copyErr : ℕ
  rootInfo : Option ℕ

/-! ## Initialisation -/

/-- The loop of `slot_alloc_init`: the segments it registers, in chunks of at
    most `MAX_SEGMENT_SLOTS`, and the slots that remain when the table has no
    more than `room` free entries. -/
def initSegments : (room nextBase remaining : ℕ) → List Segment × ℕ
  | 0, _, remaining => ([], remaining)
  | room + 1, nextBase, remaining =>
    if remaining = 0 then ([], 0)
    else
      let chunk := min remaining maxSegmentSlots
      let rest := initSegments room ((nextBase + chunk) % 2 ^ 64) (remaining - chunk)
      (Segment.fresh nextBase chunk :: rest.1, rest.2)

/-- Initialise the allocator with the slots from `base` to `base + count`. -/
def slotAllocInit (base count cspaceNtfn : ℕ) : SlotAllocState :=
  let first := if count = 0 ∧ base ≠ 0 then [Segment.fresh base 0] else []
  let loop := initSegments (maxSegments - first.length) base count
  let initialized := decide (loop.2 = 0 ∧ (count ≠ 0 ∨ base ≠ 0))
  { segments := if initialized then first ++ loop.1 else []
    activeSeg := 0
    initialized := initialized
    cspaceNtfn := cspaceNtfn
    expandState := .idle
    rootBits := 0
    expandedDepth := 0
    cspaceExpandCount := 0 }

/-! ## The critical sections -/

namespace SlotAllocState

/-- Try segments in turn with `alloc`, at the given offsets from the active one: the loop of
    `alloc_single_locked` and `slot_alloc_consecutive_fast`. -/
def scanOffsets (alloc : Segment → Option ℕ × Segment) :
    (offs : List ℕ) → SlotAllocState → Option ℕ × SlotAllocState
  | [], st => (none, st)
  | off :: offs, st =>
    let idx := (st.activeSeg + off) % st.segments.length
    match st.segments[idx]? with
    | none => scanOffsets alloc offs st
    | some seg =>
      match alloc seg with
      | (some slot, seg') =>
        (some slot, { st with segments := st.segments.set idx seg', activeSeg := idx })
      | (none, seg') => scanOffsets alloc offs { st with segments := st.segments.set idx seg' }

/-- Try all segments, from the active one on. -/
def scanSegments (st : SlotAllocState) (alloc : Segment → Option ℕ × Segment) :
    Option ℕ × SlotAllocState :=
  scanOffsets alloc (List.range st.segments.length) st

end SlotAllocState

open SlotAllocState

section

variable (st : SlotAllocState)

def allocSingleLocked : Option ℕ × SlotAllocState :=
  if st.segments.length = 0 then (none, st) else st.scanSegments segmentAllocSingle

def slotAllocFast : Option ℕ × SlotAllocState :=
  if !st.initialized then (none, st) else allocSingleLocked st

def slotAllocConsecutiveFast (count : ℕ) : Option ℕ × SlotAllocState :=
  if !st.initialized ∨ count = 0 then (none, st)
  else st.scanSegments fun seg => segmentAllocContiguous seg count

/-- Take a slot back. The first segment whose range has the slot decides. -/
def slotFreeLocked (slot : ℕ) : Bool × SlotAllocState :=
  if !st.initialized then (false, st)
  else
    match st.segments.findIdx? fun seg => (segmentSlotIndex seg slot).isSome with
    | none => (false, st)
    | some idx =>
      match st.segments[idx]? with
      | none => (false, st)
      | some seg =>
        match segmentFree seg (slot - seg.base) with
        | (false, _) => (false, st)
        | (true, seg') =>
          (true, { st with
            segments := st.segments.set idx seg'
            activeSeg := if idx < st.activeSeg then idx else st.activeSeg })

variable (r : ProbeReply)

/-- Populate `root_bits` on the first expansion. -/
def ensureRootBits : SlotAllocState :=
  if st.rootBits = 0 then
    match r.rootInfo with
    | none => st
    | some bits => { st with rootBits := bits % 2 ^ 8 }
  else st

/-- The address at which the next expansion is probed. -/
def probeAddr : ℕ :=
  (cspaceExpandBase + st.cspaceExpandCount) * 2 ^ slotExpandBitsDefault % 2 ^ 64

/-- Probe for the requested sub-CNode and, when it is there, register it. -/
def pollRequestedExpandLocked : ExpandProgress × SlotAllocState :=
  if r.copyErr ≠ 0 then (.pending, st)
  else if st.segments.length ≥ maxSegments then (.failed, { st with expandState := .failed })
  else
    (.completed, { st with
      segments := st.segments ++ [Segment.fresh (probeAddr st) (2 ^ slotExpandBitsDefault)]
      activeSeg := st.segments.length
      cspaceExpandCount := st.cspaceExpandCount + 1
      expandState := .idle
      expandedDepth := if st.rootBits > 0 then (st.rootBits + slotExpandBitsDefault) % 2 ^ 8
        else st.expandedDepth })

/-- The critical section of `slot_alloc_async`. -/
def slotAllocAsyncInner : SlotResult × SlotAllocState :=
  if !st.initialized then (.exhausted, st)
  else
    match allocSingleLocked st with
    | (some slot, st) => (.ok slot, st)
    | (none, st) =>
      match st.expandState with
      | .idle =>
        if st.cspaceNtfn = 0 ∨ st.cspaceExpandCount ≥ maxCspaceExpansions then (.exhausted, st)
        else (.wouldBlock, { ensureRootBits st r with expandState := .requested })
      | .requested =>
        match pollRequestedExpandLocked st r with
        | (.completed, st₁) =>
          match allocSingleLocked st₁ with
          | (some slot, st₂) => (.ok slot, st₂)
          | (none, st₂) => (.exhausted, st₂)
        | (.pending, st₁) => (.wouldBlock, st₁)
        | (.failed, st₁) => (.exhausted, st₁)
      | .failed => (.exhausted, st)

/-- One turn of the loop of `drive_cspace_expand_blocking`. -/
def driveCspaceExpand : ExpandProgress × SlotAllocState :=
  if !st.initialized then (.failed, st)
  else if st.cspaceNtfn ≠ 0 ∧ st.cspaceExpandCount < maxCspaceExpansions then
    let st := ensureRootBits st r
    match st.expandState with
    | .idle => (.pending, { st with expandState := .requested })
    | .requested => pollRequestedExpandLocked st r
    | .failed => (.failed, st)
  else (.failed, st)

end

/-! ## The invariant -/

namespace Segment

/-- The segments `a` and `b` have no slot in common. -/
def Apart (a b : Segment) : Prop := ∀ x, ¬(a.Covers x ∧ b.Covers x)

instance : Std.Symm Apart where
  symm _ _ h := fun x hx => h x hx.symm

theorem covers_congr {a b : Segment} (hb : a.base = b.base) (hc : a.count = b.count) (x : ℕ) :
    a.Covers x ↔ b.Covers x := by
  rw [Covers, Covers, hb, hc]

end Segment

namespace SlotAllocState

/-- The bit of the slot `x` is set, in the segment that has it. -/
def Marked (st : SlotAllocState) (x : ℕ) : Prop := ∃ seg ∈ st.segments, seg.Marked x

/-- The invariant of an allocator that accepted its range. Besides the segments,
    the expansion protocol keeps the addresses from the next one to be probed on
    free. -/
structure Valid (st : SlotAllocState) : Prop where
  ready : st.initialized = true
  segs : ∀ seg ∈ st.segments, seg.Valid
  apart : st.segments.Pairwise Segment.Apart
  active_lt : st.segments ≠ [] → st.activeSeg < st.segments.length
  below : st.cspaceNtfn ≠ 0 → ∀ seg ∈ st.segments,
    seg.base + seg.count ≤ (cspaceExpandBase + st.cspaceExpandCount) * 2 ^ slotExpandBitsDefault
  requested : st.expandState = .requested →
    st.cspaceNtfn ≠ 0 ∧ st.cspaceExpandCount < maxCspaceExpansions

variable {st st' : SlotAllocState} {slot x n : ℕ}

/-- At most one segment has a slot. -/
theorem Valid.eq_of_covers (h : st.Valid) {a b : Segment} (ha : a ∈ st.segments)
    (hb : b ∈ st.segments) (hax : a.Covers x) (hbx : b.Covers x) : a = b := by
  by_contra hne
  exact h.apart.forall ha hb hne x ⟨hax, hbx⟩

/-- Whether a slot is marked is decided by the segment that has it. -/
theorem Valid.marked_iff (h : st.Valid) {seg : Segment} (hseg : seg ∈ st.segments)
    (hx : seg.Covers x) : st.Marked x ↔ seg.Marked x := by
  constructor
  · rintro ⟨seg', hseg', hm⟩
    rwa [h.eq_of_covers hseg hseg' hx hm.1]
  · exact fun hm => ⟨seg, hseg, hm⟩

/-- A slot in no segment is not marked. -/
theorem not_marked_of_not_covers (hx : ∀ seg ∈ st.segments, ¬seg.Covers x) : ¬st.Marked x := by
  rintro ⟨seg, hseg, hm⟩
  exact hx seg hseg hm.1

/-! ## Changing one segment -/

section SetSegment

variable {idx active : ℕ} {seg seg' : Segment}

/-- The segment table with the segment `idx` changed to `seg'`. -/
private theorem mem_set_of_ne {l : List Segment} (hidx : l[idx]? = some seg) {a : Segment}
    (ha : a ∈ l) (hne : a ≠ seg) : a ∈ l.set idx seg' := by
  obtain ⟨j, hj⟩ := List.mem_iff_getElem?.1 ha
  refine List.mem_iff_getElem?.2 ⟨j, ?_⟩
  rw [List.getElem?_set_ne, hj]
  rintro rfl
  exact hne (Option.some.inj (hj.symm.trans hidx))

variable (h : st.Valid) (hidx : st.segments[idx]? = some seg) (hv : seg'.Valid)
  (hb : seg'.base = seg.base) (hc : seg'.count = seg.count)
  (ha : active < st.segments.length)

include h hidx hv hb hc ha

/-- Changing a segment, but not its range, keeps the invariant. -/
theorem Valid.set_segment :
    Valid { st with segments := st.segments.set idx seg', activeSeg := active } where
  ready := h.ready
  segs a hm := (List.mem_or_eq_of_mem_set hm).elim (h.segs a) fun e => e ▸ hv
  apart := by
    -- The ranges of the segments are unchanged, and `Apart` only looks at these.
    have hpair : ∀ {l : List Segment} {i : ℕ}, l.Pairwise Segment.Apart → l[i]? = some seg →
        (l.set i seg').Pairwise Segment.Apart := by
      intro l
      induction l with
      | nil => intro i _ hi; cases hi
      | cons a l ih =>
        intro i hl hi
        rw [List.pairwise_cons] at hl
        cases i with
        | zero =>
          obtain rfl : a = seg := Option.some.inj hi
          refine List.pairwise_cons.2 ⟨fun b hbl x hx => hl.1 b hbl x ⟨?_, hx.2⟩, hl.2⟩
          exact (Segment.covers_congr hb hc x).1 hx.1
        | succ i =>
          refine List.pairwise_cons.2 ⟨fun b hbl x hx => ?_, ih hl.2 hi⟩
          rcases List.mem_or_eq_of_mem_set hbl with hbl | rfl
          · exact hl.1 b hbl x hx
          · exact hl.1 seg (List.mem_of_getElem? hi) x
              ⟨hx.1, (Segment.covers_congr hb hc x).1 hx.2⟩
    exact hpair h.apart hidx
  active_lt _ := by simpa using ha
  below hn a hm := (List.mem_or_eq_of_mem_set hm).elim (h.below hn a) fun e => by
    rw [e, hb, hc]
    exact h.below hn seg (List.mem_of_getElem? hidx)
  requested := h.requested

/-- Changing a segment, but not its range, changes the marks of its slots only. -/
theorem Valid.marked_set_segment (x : ℕ) :
    Marked { st with segments := st.segments.set idx seg', activeSeg := active } x ↔
      seg'.Marked x ∨ (¬seg.Covers x ∧ st.Marked x) := by
  have hlt : idx < st.segments.length := (List.getElem?_eq_some_iff.1 hidx).1
  have hseg' : seg' ∈ st.segments.set idx seg' := List.mem_set hlt _
  have hval := h.set_segment hidx hv hb hc ha
  by_cases hx : seg.Covers x
  · rw [hval.marked_iff hseg' ((Segment.covers_congr hb hc x).2 hx)]
    simp [hx]
  · have hx' : ¬seg'.Covers x := fun hx' => hx ((Segment.covers_congr hb hc x).1 hx')
    have hnm : ¬seg'.Marked x := fun hm => hx' hm.1
    simp only [hnm, hx, not_false_eq_true, true_and, false_or]
    constructor
    · rintro ⟨a, ha, hm⟩
      rcases List.mem_or_eq_of_mem_set ha with ha | rfl
      · exact ⟨a, ha, hm⟩
      · exact absurd hm hnm
    · rintro ⟨a, ha, hm⟩
      exact ⟨a, mem_set_of_ne hidx ha fun e => hx (e ▸ hm.1), hm⟩

end SetSegment

/-! ## What the critical sections do -/

/-- `st'` is `st` after handing out the slots from `slot` to `slot + n`. -/
structure Hands (st : SlotAllocState) (slot n : ℕ) (st' : SlotAllocState) : Prop where
  valid : st'.Valid
  free : ∀ x, slot ≤ x → x < slot + n → ¬st.Marked x
  marked : ∀ x, st'.Marked x ↔ (slot ≤ x ∧ x < slot + n) ∨ st.Marked x

/-- `st'` is `st` with the slots from `slot` to `slot + n` taken from one segment, which becomes
    the active one. -/
def Takes (st : SlotAllocState) (slot n : ℕ) (st' : SlotAllocState) : Prop :=
  ∃ idx seg seg', st.segments[idx]? = some seg ∧ seg.Takes slot n seg' ∧
    st' = { st with segments := st.segments.set idx seg', activeSeg := idx }

/-- What a search does: it takes slots from one segment, or finds nothing and changes nothing. -/
def Attempt (st : SlotAllocState) (n : ℕ) (r : Option ℕ × SlotAllocState) : Prop :=
  (∃ slot, r.1 = some slot ∧ st.Takes slot n r.2) ∨ r = (none, st)

theorem attempt_none (st : SlotAllocState) (n : ℕ) : st.Attempt n (none, st) := .inr rfl

theorem Attempt.takes {r : Option ℕ × SlotAllocState} (h : st.Attempt n r)
    (hr : r = (some slot, st')) : st.Takes slot n st' := by
  subst hr
  rcases h with ⟨slot', hslot, htakes⟩ | h
  · obtain rfl := Option.some.inj hslot
    exact htakes
  · cases h

theorem Attempt.eq_none {r : Option ℕ × SlotAllocState} (h : st.Attempt n r) (hr : r.1 = none) :
    r = (none, st) :=
  h.resolve_left fun ⟨_, hslot, _⟩ => Option.some_ne_none _ (hslot.symm.trans hr)

variable {alloc : Segment → Option ℕ × Segment}

/-- A segment that a search goes on from is the one that was there before. -/
theorem set_segment_of_none (halloc : ∀ seg, Segment.Attempt seg n (alloc seg)) {idx : ℕ}
    {seg seg' : Segment} (hidx : st.segments[idx]? = some seg) (h : alloc seg = (none, seg')) :
    { st with segments := st.segments.set idx seg' } = st := by
  rcases halloc seg with ⟨slot, hslot, -⟩ | hsame
  · rw [h] at hslot
    cases hslot
  · obtain ⟨-, rfl⟩ := Prod.mk.inj (h.symm.trans hsame)
    obtain ⟨hlt, rfl⟩ := List.getElem?_eq_some_iff.1 hidx
    rw [List.set_getElem_self]

theorem scanOffsets_attempt (halloc : ∀ seg, Segment.Attempt seg n (alloc seg)) (offs : List ℕ) :
    st.Attempt n (scanOffsets alloc offs st) := by
  induction offs with
  | nil => exact attempt_none st n
  | cons off offs ih =>
    rw [scanOffsets]
    split
    · exact ih
    · rename_i seg hidx
      split
      · rename_i slot seg' hseg
        rcases halloc seg with ⟨slot', hslot, htakes⟩ | hsame
        · rw [hseg] at hslot htakes
          obtain rfl := Option.some.inj hslot
          exact .inl ⟨slot, rfl, _, seg, seg', hidx, htakes, rfl⟩
        · cases hseg.symm.trans hsame
      · rename_i seg' hseg
        rw [set_segment_of_none halloc hidx hseg]
        exact ih

theorem allocSingleLocked_attempt (st : SlotAllocState) : st.Attempt 1 (allocSingleLocked st) := by
  unfold allocSingleLocked
  split
  · exact attempt_none st 1
  · exact scanOffsets_attempt segmentAllocSingle_attempt _

theorem slotAllocFast_attempt (st : SlotAllocState) : st.Attempt 1 (slotAllocFast st) := by
  unfold slotAllocFast
  split
  · exact attempt_none st 1
  · exact allocSingleLocked_attempt st

theorem slotAllocConsecutiveFast_attempt (st : SlotAllocState) (n : ℕ) :
    st.Attempt n (slotAllocConsecutiveFast st n) := by
  unfold slotAllocConsecutiveFast
  split
  · exact attempt_none st n
  · exact scanOffsets_attempt (segmentAllocContiguous_attempt · n) _

theorem Takes.hands (h : st.Takes slot n st') (hv : st.Valid) : st.Hands slot n st' := by
  obtain ⟨idx, seg, seg', hidx, hseg', rfl⟩ := h
  have hactive : idx < st.segments.length := (List.getElem?_eq_some_iff.1 hidx).1
  have hseg : seg ∈ st.segments := List.mem_of_getElem? hidx
  have hh := hseg'.hands (hv.segs seg hseg)
  refine ⟨hv.set_segment hidx hh.valid hh.base_eq hh.count_eq hactive,
    fun x h₁ h₂ => ?_, fun x => ?_⟩
  · rw [hv.marked_iff hseg (hh.covers x h₁ h₂)]
    exact hh.free x h₁ h₂
  · rw [hv.marked_set_segment hidx hh.valid hh.base_eq hh.count_eq hactive, hh.marked, or_assoc]
    by_cases hx : seg.Covers x
    · simp [hx, hv.marked_iff hseg hx]
    · have hnm : ¬seg.Marked x := fun hm => hx hm.1
      simp [hx, hnm]

/-- What an attempt to take a slot back does: nothing, where the segment of the slot does not have
    its bit set, or it frees the slot in its segment. -/
theorem slotFreeLocked_cases (st : SlotAllocState) (slot : ℕ) :
    (slotFreeLocked st slot = (false, st) ∧ (st.initialized = true →
      (∀ seg ∈ st.segments, ¬seg.Covers slot) ∨
        ∃ seg ∈ st.segments, seg.Covers slot ∧ ¬seg.Marked slot)) ∨
    ∃ idx seg active, st.segments[idx]? = some seg ∧ seg.Marked slot ∧
      (active = idx ∨ active = st.activeSeg) ∧
      slotFreeLocked st slot = (true, { st with
        segments := st.segments.set idx (segmentFree seg (slot - seg.base)).2
        activeSeg := active }) := by
  unfold slotFreeLocked
  split
  · rename_i hinit
    exact .inl ⟨rfl, fun h => by simp [h] at hinit⟩
  split
  · rename_i hnone
    refine .inl ⟨rfl, fun _ => .inl fun seg hseg hcov => ?_⟩
    have := List.findIdx?_eq_none_iff.1 hnone seg hseg
    rw [segmentSlotIndex_isSome.2 hcov] at this
    cases this
  · rename_i idx hfind
    obtain ⟨hlt, hcov, -⟩ := List.findIdx?_eq_some_iff_getElem.1 hfind
    have hcov := segmentSlotIndex_isSome.1 hcov
    have hseg : st.segments[idx] ∈ st.segments := List.getElem_mem hlt
    rw [List.getElem?_eq_getElem hlt]
    simp only
    split
    · rename_i hfree
      refine .inl ⟨rfl, fun _ => .inr ⟨_, hseg, hcov, fun hm => ?_⟩⟩
      have := segmentFree_fst.2 ⟨Nat.sub_lt_left_of_lt_add hcov.1 hcov.2, hm.2⟩
      rw [hfree] at this
      cases this
    · rename_i seg' hfree
      have hok := (segmentFree_fst.1 (congrArg Prod.fst hfree)).2
      refine .inr ⟨idx, st.segments[idx], _, List.getElem?_eq_getElem hlt, ⟨hcov, hok⟩, ?_,
        by rw [hfree]⟩
      exact ite_eq_or_eq _ _ _

/-- Taking a slot back succeeds when it is marked, and unmarks it alone. -/
theorem slotFreeLocked_spec (h : st.Valid) (slot : ℕ) :
    ((slotFreeLocked st slot).1 = true ↔ st.Marked slot) ∧ (slotFreeLocked st slot).2.Valid ∧
      ∀ x, (slotFreeLocked st slot).2.Marked x ↔ st.Marked x ∧ x ≠ slot := by
  rcases slotFreeLocked_cases st slot with ⟨heq, hno⟩ | ⟨idx, seg, active, hidx, hm, hactive, heq⟩
  · have hnm : ¬st.Marked slot := by
      rcases hno h.ready with hno | ⟨seg, hseg, hcov, hnm⟩
      · exact not_marked_of_not_covers hno
      · rwa [h.marked_iff hseg hcov]
    rw [heq]
    exact ⟨by simp [hnm], h, fun x => ⟨fun hm => ⟨hm, fun e => hnm (e ▸ hm)⟩, And.left⟩⟩
  · have hseg := List.mem_of_getElem? hidx
    have hlt : active < st.segments.length := by
      rcases hactive with rfl | rfl
      · exact (List.getElem?_eq_some_iff.1 hidx).1
      · exact h.active_lt (List.ne_nil_of_mem hseg)
    obtain ⟨hv, hb, hc, hmarked⟩ := segmentFree_spec (h.segs _ hseg) hm.1 hm.2
    rw [heq]
    refine ⟨iff_of_true rfl ⟨seg, hseg, hm⟩, h.set_segment hidx hv hb hc hlt, fun x => ?_⟩
    rw [h.marked_set_segment hidx hv hb hc hlt, hmarked]
    by_cases hx : seg.Covers x
    · simp [hx, h.marked_iff hseg hx]
    · have hnm : ¬seg.Marked x := fun hm => hx hm.1
      have hne : x ≠ slot := fun e => hx (e ▸ hm.1)
      simp [hx, hnm, hne]

/-! ## Expansions -/

/-- The invariant does not depend on the cached sizes of the CNodes. -/
theorem Valid.congr (h : st.Valid) (hi : st'.initialized = st.initialized)
    (hs : st'.segments = st.segments)
    (ha : st'.activeSeg = st.activeSeg) (hn : st'.cspaceNtfn = st.cspaceNtfn)
    (hc : st'.cspaceExpandCount = st.cspaceExpandCount)
    (he : st'.expandState = .requested →
      st.cspaceNtfn ≠ 0 ∧ st.cspaceExpandCount < maxCspaceExpansions) : st'.Valid where
  ready := hi.trans h.ready
  segs := hs ▸ h.segs
  apart := hs ▸ h.apart
  active_lt := by rw [hs, ha]; exact h.active_lt
  below := by rw [hs, hn, hc]; exact h.below
  requested := by rw [hn, hc]; exact he

theorem marked_congr (hs : st'.segments = st.segments) (x : ℕ) : st'.Marked x ↔ st.Marked x := by
  rw [Marked, Marked, hs]

section

variable (st) (r : ProbeReply)

/-- Only the cached size of the root CNode changes. -/
theorem ensureRootBits_eq : ∃ bits, ensureRootBits st r = { st with rootBits := bits } := by
  unfold ensureRootBits
  split
  · split
    · exact ⟨st.rootBits, rfl⟩
    · exact ⟨_, rfl⟩
  · exact ⟨st.rootBits, rfl⟩

@[simp] theorem ensureRootBits_segments : (ensureRootBits st r).segments = st.segments := by
  obtain ⟨bits, h⟩ := ensureRootBits_eq st r
  rw [h]

@[simp] theorem ensureRootBits_cspaceNtfn : (ensureRootBits st r).cspaceNtfn = st.cspaceNtfn := by
  obtain ⟨bits, h⟩ := ensureRootBits_eq st r
  rw [h]

@[simp] theorem ensureRootBits_cspaceExpandCount :
    (ensureRootBits st r).cspaceExpandCount = st.cspaceExpandCount := by
  obtain ⟨bits, h⟩ := ensureRootBits_eq st r
  rw [h]

@[simp] theorem ensureRootBits_expandState :
    (ensureRootBits st r).expandState = st.expandState := by
  obtain ⟨bits, h⟩ := ensureRootBits_eq st r
  rw [h]

end

theorem Valid.ensureRootBits (h : st.Valid) (r : ProbeReply) :
    (ensureRootBits st r).Valid := by
  obtain ⟨bits, hbits⟩ := ensureRootBits_eq st r
  rw [hbits]
  exact h.congr rfl rfl rfl rfl rfl h.requested

/-- Asking for an expansion, where this is allowed, keeps the invariant. -/
theorem Valid.request (h : st.Valid) (hn : st.cspaceNtfn ≠ 0)
    (hc : st.cspaceExpandCount < maxCspaceExpansions) :
    Valid { st with expandState := .requested } :=
  h.congr rfl rfl rfl rfl rfl fun _ => ⟨hn, hc⟩

/-- The next expansion is probed above every segment. -/
theorem Valid.probeAddr_eq (h : st.Valid) (hreq : st.expandState = .requested) :
    probeAddr st = (cspaceExpandBase + st.cspaceExpandCount) * 2 ^ slotExpandBitsDefault := by
  have := (h.requested hreq).2
  simp only [probeAddr, cspaceExpandBase, slotExpandBitsDefault, maxCspaceExpansions] at *
  omega

/-- A probe keeps the invariant and the marks: the segment it may register is
    fresh and above all others. -/
theorem pollRequestedExpandLocked_spec (h : st.Valid) (hreq : st.expandState = .requested)
    (r : ProbeReply) :
    (pollRequestedExpandLocked st r).2.Valid ∧
      ∀ x, (pollRequestedExpandLocked st r).2.Marked x ↔ st.Marked x := by
  obtain ⟨hn, hc⟩ := h.requested hreq
  have haddr := h.probeAddr_eq hreq
  unfold pollRequestedExpandLocked
  split
  · exact ⟨h, fun x => Iff.rfl⟩
  · split
    · exact ⟨h.congr rfl rfl rfl rfl rfl (fun he => by cases he), fun x => Iff.rfl⟩
    · have hbelow := h.below hn
      refine ⟨⟨h.ready, ?_, ?_, ?_, ?_, fun he => by cases he⟩, fun x => ?_⟩
      · intro seg hseg
        rcases List.mem_append.1 hseg with hseg | hseg
        · exact h.segs seg hseg
        · obtain rfl := List.mem_singleton.1 hseg
          refine Segment.valid_fresh (by decide) ?_
          simp only [cspaceExpandBase, slotExpandBitsDefault, maxCspaceExpansions] at *
          omega
      · refine List.pairwise_append.2 ⟨h.apart, List.pairwise_singleton _ _, ?_⟩
        intro a ha b hb x hx
        obtain rfl := List.mem_singleton.1 hb
        have hlo := hx.2.1
        have hhi := hx.1.2
        simp only [Segment.fresh, haddr] at hlo
        exact absurd (hbelow a ha) (by omega)
      · intro _
        simp
      · intro _ seg hseg
        have hnext : (cspaceExpandBase + (st.cspaceExpandCount + 1)) * 2 ^ slotExpandBitsDefault =
            probeAddr st + 2 ^ slotExpandBitsDefault := by
          rw [haddr, ← Nat.add_assoc, Nat.succ_mul]
        refine le_of_le_of_eq ?_ hnext.symm
        rcases List.mem_append.1 hseg with hseg | hseg
        · exact (haddr ▸ hbelow seg hseg).trans (Nat.le_add_right _ _)
        · obtain rfl := List.mem_singleton.1 hseg
          exact le_rfl
      · simp only [Marked, List.mem_append, List.mem_singleton]
        constructor
        · rintro ⟨seg, hseg | rfl, hm⟩
          · exact ⟨seg, hseg, hm⟩
          · exact absurd hm (Segment.not_marked_fresh _ _ _)
        · rintro ⟨seg, hseg, hm⟩
          exact ⟨seg, .inl hseg, hm⟩

variable {r : ProbeReply}

/-- What a turn of the driver does. -/
inductive DriveCase (st : SlotAllocState) (r : ProbeReply) :
    ExpandProgress → SlotAllocState → Prop
  | refuse (cannot : st.initialized = true → st.cspaceNtfn = 0 ∨
      maxCspaceExpansions ≤ st.cspaceExpandCount) : DriveCase st r .failed st
  | request (ntfn : st.cspaceNtfn ≠ 0) (count : st.cspaceExpandCount < maxCspaceExpansions)
      (idle : st.expandState = .idle) :
      DriveCase st r .pending { ensureRootBits st r with expandState := .requested }
  | probe (ntfn : st.cspaceNtfn ≠ 0) (count : st.cspaceExpandCount < maxCspaceExpansions)
      (requested : st.expandState = .requested) :
      DriveCase st r (pollRequestedExpandLocked (ensureRootBits st r) r).1
        (pollRequestedExpandLocked (ensureRootBits st r) r).2
  | failed (failed : st.expandState = .failed) : DriveCase st r .failed (ensureRootBits st r)

theorem driveCspaceExpand_cases (st : SlotAllocState) (r : ProbeReply) :
    DriveCase st r (driveCspaceExpand st r).1 (driveCspaceExpand st r).2 := by
  have hstate := ensureRootBits_expandState st r
  unfold driveCspaceExpand
  split
  · rename_i hinit
    exact .refuse fun h => by simp [h] at hinit
  split
  · rename_i hcond
    simp only
    split
    · rename_i hidle
      exact .request hcond.1 hcond.2 (hstate ▸ hidle)
    · rename_i hreq
      exact .probe hcond.1 hcond.2 (hstate ▸ hreq)
    · rename_i hfailed
      exact .failed (hstate ▸ hfailed)
  · rename_i hcond
    exact .refuse fun _ => by rwa [not_and_or, not_not, not_lt] at hcond

/-- A turn of the driver keeps the invariant and the marks. -/
theorem DriveCase.spec {p : ExpandProgress} (h : DriveCase st r p st') (hst : st.Valid) :
    st'.Valid ∧ ∀ x, st'.Marked x ↔ st.Marked x := by
  have hm := marked_congr (ensureRootBits_segments st r)
  have hv := hst.ensureRootBits r
  cases h with
  | refuse => exact ⟨hst, fun _ => Iff.rfl⟩
  | request hn hc => exact ⟨hv.request (by simpa using hn) (by simpa using hc), hm⟩
  | probe _ _ hreq =>
    obtain ⟨hv', hm'⟩ := pollRequestedExpandLocked_spec hv (by simpa using hreq) r
    exact ⟨hv', fun x => (hm' x).trans (hm x)⟩
  | failed => exact ⟨hv, hm⟩

/-- What the critical section of `slot_alloc_async` does. -/
inductive AsyncCase (st : SlotAllocState) (r : ProbeReply) : SlotResult → SlotAllocState → Prop
  | find {slot : ℕ} {st' : SlotAllocState} (alloc : allocSingleLocked st = (some slot, st')) :
      AsyncCase st r (.ok slot) st'
  | refuse : AsyncCase st r .exhausted st
  | request (full : (allocSingleLocked st).1 = none) (idle : st.expandState = .idle)
      (ntfn : st.cspaceNtfn ≠ 0) (count : st.cspaceExpandCount < maxCspaceExpansions) :
      AsyncCase st r .wouldBlock { ensureRootBits st r with expandState := .requested }
  | probe {res : SlotResult} (requested : st.expandState = .requested)
      (notOk : ∀ slot, res ≠ .ok slot) : AsyncCase st r res (pollRequestedExpandLocked st r).2
  | expand {slot : ℕ} {st' : SlotAllocState} (full : (allocSingleLocked st).1 = none)
      (requested : st.expandState = .requested)
      (alloc : allocSingleLocked (pollRequestedExpandLocked st r).2 = (some slot, st')) :
      AsyncCase st r (.ok slot) st'

theorem slotAllocAsyncInner_cases (st : SlotAllocState) (r : ProbeReply) :
    AsyncCase st r (slotAllocAsyncInner st r).1 (slotAllocAsyncInner st r).2 := by
  unfold slotAllocAsyncInner
  split
  · exact .refuse
  split
  · rename_i halloc
    exact .find halloc
  rename_i st₀ hsearch
  have hfull : (allocSingleLocked st).1 = none := congrArg Prod.fst hsearch
  -- the search found nothing, so the section goes on with the same allocator
  obtain ⟨-, rfl⟩ := Prod.mk.inj
    (hsearch.symm.trans ((allocSingleLocked_attempt st).eq_none hfull))
  split
  · rename_i hidle
    split
    · exact .refuse
    · rename_i hallowed
      rw [not_or, not_le] at hallowed
      exact .request hfull hidle hallowed.1 hallowed.2
  · rename_i hreq
    split <;> rename_i heq <;> obtain rfl := congrArg Prod.snd heq
    · split
      · rename_i halloc
        exact .expand hfull hreq halloc
      · rename_i st₂ hnone
        obtain ⟨-, rfl⟩ := Prod.mk.inj (hnone.symm.trans
          ((allocSingleLocked_attempt _).eq_none (congrArg Prod.fst hnone)))
        exact .probe hreq nofun
    · exact .probe hreq nofun
    · exact .probe hreq nofun
  · exact .refuse

/-- An asynchronous allocation hands out its slot, after a probe it may have made,
    or keeps the marks. -/
theorem AsyncCase.spec {res : SlotResult} (h : AsyncCase st r res st') (hst : st.Valid) :
    (∃ slot, res = .ok slot ∧ st.Hands slot 1 st') ∨
      ((∀ slot, res ≠ .ok slot) ∧ st'.Valid ∧ ∀ x, st'.Marked x ↔ st.Marked x) := by
  cases h with
  | find halloc => exact .inl ⟨_, rfl, ((allocSingleLocked_attempt _).takes halloc).hands hst⟩
  | refuse => exact .inr ⟨nofun, hst, fun _ => Iff.rfl⟩
  | request _ _ hn hc =>
    exact .inr ⟨nofun, (hst.ensureRootBits r).request (by simpa using hn) (by simpa using hc),
      marked_congr (ensureRootBits_segments st r)⟩
  | probe hreq hres =>
    obtain ⟨hv, hm⟩ := pollRequestedExpandLocked_spec hst hreq r
    exact .inr ⟨hres, hv, hm⟩
  | expand _ hreq halloc =>
    obtain ⟨hv, hm⟩ := pollRequestedExpandLocked_spec hst hreq r
    have hh := ((allocSingleLocked_attempt _).takes halloc).hands hv
    -- The probe kept the marks, so what was free after it was free before it.
    exact .inl ⟨_, rfl, hh.valid, fun x h₁ h₂ hx => hh.free x h₁ h₂ ((hm x).2 hx),
      fun x => (hh.marked x).trans (or_congr_right (hm x))⟩

end SlotAllocState

/-! ## Initialisation keeps the range -/

/-- The segments registered for a range are fresh, apart, and inside the range. -/
theorem initSegments_spec (room b r : ℕ) (hr : b + r ≤ 2 ^ 64) :
    (∀ seg ∈ (initSegments room b r).1, seg.Valid ∧ b ≤ seg.base ∧ seg.base + seg.count ≤ b + r ∧
      ∀ x, ¬seg.Marked x) ∧ (initSegments room b r).1.Pairwise Segment.Apart := by
  induction room generalizing b r with
  | zero => exact ⟨fun _ h => absurd h List.not_mem_nil, List.Pairwise.nil⟩
  | succ room ih =>
    unfold initSegments
    split
    · exact ⟨fun _ h => absurd h List.not_mem_nil, List.Pairwise.nil⟩
    · rename_i hne
      -- Past the last chunk the next base may have wrapped, but then nothing remains.
      have hrest : (∀ seg ∈ (initSegments room ((b + min r maxSegmentSlots) % 2 ^ 64)
            (r - min r maxSegmentSlots)).1, seg.Valid ∧ b + min r maxSegmentSlots ≤ seg.base ∧
          seg.base + seg.count ≤ b + r ∧ ∀ x, ¬seg.Marked x) ∧
          (initSegments room ((b + min r maxSegmentSlots) % 2 ^ 64)
            (r - min r maxSegmentSlots)).1.Pairwise Segment.Apart := by
        by_cases hz : r - min r maxSegmentSlots = 0
        · rw [hz]
          cases room <;> simp [initSegments]
        · rw [Nat.mod_eq_of_lt (by omega)]
          obtain ⟨h₁, h₂⟩ := ih (b + min r maxSegmentSlots) (r - min r maxSegmentSlots) (by omega)
          refine ⟨fun seg hseg => ?_, h₂⟩
          obtain ⟨hv, hlo, hhi, hm⟩ := h₁ seg hseg
          exact ⟨hv, hlo, by omega, hm⟩
      refine ⟨fun seg hseg => ?_, List.pairwise_cons.2 ⟨fun a ha x hx => ?_, hrest.2⟩⟩
      · rcases List.mem_cons.1 hseg with rfl | hseg
        · exact ⟨Segment.valid_fresh (Nat.min_le_right _ _) (by omega), le_rfl,
            by simp only [Segment.fresh]; omega, Segment.not_marked_fresh _ _⟩
        · obtain ⟨hv, hlo, hhi, hm⟩ := hrest.1 seg hseg
          exact ⟨hv, by omega, hhi, hm⟩
      · have hlo := (hrest.1 a ha).2.1
        have hlt := hx.1.2
        have hge := hx.2.1
        simp only [Segment.fresh] at hlt
        omega

/-- The allocator starts valid, with no slot handed out. -/
theorem slotAllocInit_spec {base count ntfn : ℕ}
    (hok : (slotAllocInit base count ntfn).initialized = true) (hr : base + count ≤ 2 ^ 64)
    (hlow : ntfn ≠ 0 → base + count ≤ cspaceExpandBase * 2 ^ slotExpandBitsDefault) :
    (slotAllocInit base count ntfn).Valid ∧ ∀ x, ¬(slotAllocInit base count ntfn).Marked x := by
  -- Every segment of the table is fresh and inside the range.
  have hsegs : (∀ seg ∈ (slotAllocInit base count ntfn).segments, seg.Valid ∧
      seg.base + seg.count ≤ base + count ∧ ∀ x, ¬seg.Marked x) ∧
      (slotAllocInit base count ntfn).segments.Pairwise Segment.Apart := by
    unfold slotAllocInit
    simp only
    split_ifs with h0
    · have hnil : (initSegments (maxSegments - 1) base 0).1 = [] := rfl
      simp only [List.length_singleton, h0.1, hnil, List.append_nil]
      refine ⟨fun seg hseg => ?_, List.pairwise_singleton _ _⟩
      obtain rfl := List.mem_singleton.1 hseg
      exact ⟨Segment.valid_fresh (by decide) (by omega), by simp [Segment.fresh],
        Segment.not_marked_fresh _ _⟩
    · exact ⟨fun _ h => absurd h List.not_mem_nil, List.Pairwise.nil⟩
    · obtain ⟨h₁, h₂⟩ := initSegments_spec maxSegments base count hr
      exact ⟨fun seg hseg => ⟨(h₁ seg hseg).1, (h₁ seg hseg).2.2⟩, h₂⟩
    · exact ⟨fun _ h => absurd h List.not_mem_nil, List.Pairwise.nil⟩
  refine ⟨⟨hok, fun seg hseg => (hsegs.1 seg hseg).1, hsegs.2, fun hne => ?_, fun hn seg hseg => ?_,
    fun he => by cases he⟩, ?_⟩
  · exact List.length_pos_of_ne_nil hne
  · exact (hsegs.1 seg hseg).2.1.trans (hlow hn)
  · rintro x ⟨seg, hseg, hm⟩
    exact (hsegs.1 seg hseg).2.2 x hm

end Trona
