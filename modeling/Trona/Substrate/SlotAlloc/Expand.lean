import Mathlib.Data.Set.Lattice
import Mathlib.Order.CompletePartialOrder
import Mathlib.Order.Interval.Set.Basic
import Trona.Substrate.SlotAlloc.Run

/-!
# The expansion protocol of the slot allocator

Two drivers share the state machine of an expansion: the critical section of
`slot_alloc_async`, and the loop of `drive_cspace_expand_blocking`. The sections
of several threads interleave, and every probe is answered by the kernel.

* `ExpandMove`: what a critical section does to the protocol, in four cases.
  `act_move` says that there are no others;
* `Protocol`: the invariant. The segments are the initial ones, and then one for
  each completed expansion, in order;
* `Depths`: the cached sizes, when the kernel tells the size of the root CNode;
* `slotAlloc_expansions`: the protocol over every run.
-/

namespace Trona

/-- The invoke depth of a slot address: `slot_invoke_depth`. -/
def slotInvokeDepth (st : SlotAllocState) (slot : ℕ) : ℕ :=
  if st.expandedDepth = 0 then 0
  else if slot / 2 ^ slotExpandBitsDefault ≥ cspaceExpandBase then st.expandedDepth
  else 0

/-- The answer of the kernel that a thread takes into account, if its critical
    section may talk to the kernel. -/
def reply : Pc → Action → Option ProbeReply
  | .idle, .slotAllocAsync r => some r
  | .driving _ _, .resume r => some r
  | _, _ => none

/-- The runs of `slotAllocSystem` all of whose steps meet a condition on the state
    before, the thread that acts, and what it does. -/
def slotAllocRuns (base count ntfn : ℕ) (C : SlotSystem → ℕ → Action → Prop) :
    Lts SlotSystem SlotEvent where
  init s := s = ⟨slotAllocInit base count ntfn, fun _ => .idle⟩
  step s es s' := ∃ t a pc' st', C s t a ∧ act s.alloc (s.pc t) a = some (pc', st', es) ∧
    s' = ⟨st', Function.update s.pc t pc'⟩

/-- The first slot of a segment, and its number of slots. -/
def Segment.range (seg : Segment) : ℕ × ℕ := (seg.base, seg.count)

/-- The range of the segment that the expansion `k` registers. -/
def expansionRange (k : ℕ) : ℕ × ℕ :=
  ((cspaceExpandBase + k) * 2 ^ slotExpandBitsDefault, 2 ^ slotExpandBitsDefault)

/-- The slots of a range. -/
def rangeSlots (p : ℕ × ℕ) : Set ℕ := Set.Ico p.1 (p.1 + p.2)

/-- The slots handed out in a history, freed since or not. -/
def handedOut (h : List SlotEvent) : Set ℕ :=
  {x | ∃ slot n, SlotEvent.handed slot n ∈ h ∧ slot ≤ x ∧ x < slot + n}

namespace SlotAllocState

/-- The ranges of the segments, in the order in which they were registered. -/
def ranges (st : SlotAllocState) : List (ℕ × ℕ) := st.segments.map Segment.range

/-- The slots of the segments. -/
def slots (st : SlotAllocState) : Set ℕ := {x | ∃ p ∈ st.ranges, x ∈ rangeSlots p}

/-- No segment is added, and no counter of the protocol changes. -/
structure Keeps (st st' : SlotAllocState) : Prop where
  initialized : st'.initialized = st.initialized
  ranges : st'.ranges = st.ranges
  ntfn : st'.cspaceNtfn = st.cspaceNtfn
  count : st'.cspaceExpandCount = st.cspaceExpandCount
  depth : st'.expandedDepth = st.expandedDepth

/-- Nothing of the protocol changes. -/
structure Quiet (st st' : SlotAllocState) : Prop extends Keeps st st' where
  state : st'.expandState = st.expandState
  roots : st'.rootBits = st.rootBits

/-- The size of the root CNode is as before, or has been asked for. -/
def Roots (o : Option ProbeReply) (st st' : SlotAllocState) : Prop :=
  st'.rootBits = st.rootBits ∨ ∃ r ∈ o, st'.rootBits = (ensureRootBits st r).rootBits

/-- What a critical section does to the protocol: nothing but to ask for the size
    of the root CNode; it requests an expansion; it finds the expansion, but no room
    in the segment table; or it registers the expansion. -/
inductive ExpandMove (o : Option ProbeReply) (st st' : SlotAllocState) : Prop
  | keep (keeps : st.Keeps st') (state : st'.expandState = st.expandState)
      (roots : Roots o st st')
  | request (keeps : st.Keeps st') (idle : st.expandState = .idle) (ntfn : st.cspaceNtfn ≠ 0)
      (count : st.cspaceExpandCount < maxCspaceExpansions) (state : st'.expandState = .requested)
      (roots : ∃ r ∈ o, st'.rootBits = (ensureRootBits st r).rootBits)
  | fail (keeps : st.Keeps st') (requested : st.expandState = .requested)
      (room : maxSegments ≤ st.segments.length) (state : st'.expandState = .failed)
      (roots : Roots o st st')
  | complete (requested : st.expandState = .requested) (found : ∃ r ∈ o, r.copyErr = 0)
      (room : st.segments.length < maxSegments) (initialized : st'.initialized = st.initialized)
      (ranges : st'.ranges = st.ranges ++ [(probeAddr st, 2 ^ slotExpandBitsDefault)])
      (ntfn : st'.cspaceNtfn = st.cspaceNtfn)
      (count : st'.cspaceExpandCount = st.cspaceExpandCount + 1)
      (depth : st'.expandedDepth = if st'.rootBits > 0 then
        (st'.rootBits + slotExpandBitsDefault) % 2 ^ 8 else st.expandedDepth)
      (state : st'.expandState = .idle) (roots : Roots o st st')

variable {st st' st'' : SlotAllocState} {o : Option ProbeReply} {r : ProbeReply}

@[simp] theorem length_ranges : st.ranges.length = st.segments.length := List.length_map _

theorem Keeps.refl : st.Keeps st := ⟨rfl, rfl, rfl, rfl, rfl⟩

theorem Quiet.refl : st.Quiet st := ⟨.refl, rfl, rfl⟩

theorem Quiet.trans (h : st.Quiet st') (h' : st'.Quiet st'') : st.Quiet st'' where
  initialized := h'.initialized.trans h.initialized
  ranges := h'.ranges.trans h.ranges
  ntfn := h'.ntfn.trans h.ntfn
  count := h'.count.trans h.count
  depth := h'.depth.trans h.depth
  state := h'.state.trans h.state
  roots := h'.roots.trans h.roots

theorem Quiet.move (h : st.Quiet st') : ExpandMove o st st' :=
  .keep h.toKeeps h.state (.inl h.roots)

/-! ## Searching and freeing -/

/-- Changing a segment, but not its range, is quiet. -/
theorem quiet_set {idx active : ℕ} {seg seg' : Segment} (hidx : st.segments[idx]? = some seg)
    (h : seg'.range = seg.range) :
    st.Quiet { st with segments := st.segments.set idx seg', activeSeg := active } := by
  obtain ⟨hlt, hget⟩ := List.getElem?_eq_some_iff.1 hidx
  refine ⟨⟨rfl, ?_, rfl, rfl, rfl⟩, rfl, rfl⟩
  rw [ranges, ranges, List.map_set, h, ← hget]
  exact List.ext_getElem (by simp) fun i h₁ h₂ => by
    rw [List.getElem_set]
    split
    · rename_i e
      subst e
      rw [List.getElem_map]
    · rfl

variable {pc' pc : Pc} {a : Action} {es : List SlotEvent} {initial : List (ℕ × ℕ)}
  {x bits slot n : ℕ}

theorem Takes.quiet (h : st.Takes slot n st') : st.Quiet st' := by
  obtain ⟨idx, seg, seg', hidx, ⟨i, -, -, -, rfl⟩, rfl⟩ := h
  exact quiet_set hidx (Prod.ext (seg.markRun_base i n) (seg.markRun_count i n))

theorem segmentFree_range (seg : Segment) (idx : ℕ) :
    (segmentFree seg idx).2.range = seg.range := by
  unfold segmentFree
  split <;> rfl

theorem slotFreeLocked_quiet (st : SlotAllocState) (slot : ℕ) :
    st.Quiet (slotFreeLocked st slot).2 := by
  rcases slotFreeLocked_cases st slot with ⟨heq, -⟩ | ⟨idx, seg, active, hidx, -, -, heq⟩ <;>
    rw [heq]
  · exact .refl
  · exact quiet_set hidx (segmentFree_range _ _)

theorem slotFreeRangeFrom_quiet (st : SlotAllocState) (base off todo : ℕ) :
    st.Quiet (slotFreeRangeFrom st base off todo).1 := by
  induction todo generalizing st off with
  | zero => exact .refl
  | succ todo ih => exact (slotFreeLocked_quiet st _).trans (ih _ (off + 1))

/-! ## The drivers -/

theorem ensureRootBits_keeps (st : SlotAllocState) (r : ProbeReply) :
    st.Keeps (ensureRootBits st r) := by
  obtain ⟨bits, h⟩ := ensureRootBits_eq st r
  rw [h]
  exact ⟨rfl, rfl, rfl, rfl, rfl⟩

/-- A section that goes on quietly moves the protocol as it did before. -/
theorem ExpandMove.trans_quiet (h : ExpandMove o st st') (h' : st'.Quiet st'') :
    ExpandMove o st st'' := by
  have hkeeps : st.Keeps st' → st.Keeps st'' := fun k =>
    ⟨h'.initialized.trans k.initialized, h'.ranges.trans k.ranges, h'.ntfn.trans k.ntfn,
      h'.count.trans k.count, h'.depth.trans k.depth⟩
  have hroots : Roots o st st' → Roots o st st'' := by
    rintro (k | ⟨r, hr, k⟩)
    · exact .inl (h'.roots.trans k)
    · exact .inr ⟨r, hr, h'.roots.trans k⟩
  cases h with
  | keep k hs hr => exact .keep (hkeeps k) (h'.state.trans hs) (hroots hr)
  | request k hi hn hc hs hr =>
    obtain ⟨r, hr, heq⟩ := hr
    exact .request (hkeeps k) hi hn hc (h'.state.trans hs) ⟨r, hr, h'.roots.trans heq⟩
  | fail k hq hroom hs hr => exact .fail (hkeeps k) hq hroom (h'.state.trans hs) (hroots hr)
  | complete hq hfound hroom hi hrg hn hc hd hs hr =>
    refine .complete hq hfound hroom (h'.initialized.trans hi) (h'.ranges.trans hrg)
      (h'.ntfn.trans hn) (h'.count.trans hc) ?_ (h'.state.trans hs) (hroots hr)
    rw [h'.depth, h'.roots]
    exact hd

theorem ensureRootBits_idem (st : SlotAllocState) (r : ProbeReply) :
    ensureRootBits (ensureRootBits st r) r = ensureRootBits st r := by
  by_cases h0 : st.rootBits = 0
  · cases hr : r.rootInfo <;> simp [ensureRootBits, h0, hr]
  · simp [ensureRootBits, h0]

/-- A section that first asks for the size of the root CNode moves the protocol as
    it does after that. -/
theorem ExpandMove.of_ensureRootBits (h : ExpandMove (some r) (ensureRootBits st r) st')
    (hidle : st.expandState ≠ .idle) : ExpandMove (some r) st st' := by
  have k := ensureRootBits_keeps st r
  have hstate := ensureRootBits_expandState st r
  have hkeeps : (ensureRootBits st r).Keeps st' → st.Keeps st' := fun k' =>
    ⟨k'.initialized.trans k.initialized, k'.ranges.trans k.ranges, k'.ntfn.trans k.ntfn,
      k'.count.trans k.count, k'.depth.trans k.depth⟩
  have hroots : Roots (some r) (ensureRootBits st r) st' → Roots (some r) st st' := by
    rintro (h | ⟨_, ⟨⟩, h⟩)
    · exact .inr ⟨r, rfl, h⟩
    · exact .inr ⟨r, rfl, ensureRootBits_idem st r ▸ h⟩
  have hlen : (ensureRootBits st r).segments.length = st.segments.length := by
    rw [ensureRootBits_segments]
  cases h with
  | keep k' hs hr => exact .keep (hkeeps k') (hs.trans hstate) (hroots hr)
  | request _ hi => exact absurd (hstate.symm.trans hi) hidle
  | fail k' hq hroom hs hr =>
    exact .fail (hkeeps k') (hstate ▸ hq) (hlen ▸ hroom) hs (hroots hr)
  | complete hq hfound hroom hi hrg hn hc hd hs hr =>
    refine .complete (hstate ▸ hq) hfound (hlen ▸ hroom) (hi.trans k.initialized) ?_
      (hn.trans k.ntfn) (by rw [hc, k.count]) ?_ hs (hroots hr)
    · rw [hrg, k.ranges, probeAddr, probeAddr, k.count]
    · rw [hd, k.depth]

theorem pollRequestedExpandLocked_move (hreq : st.expandState = .requested) :
    ExpandMove (some r) st (pollRequestedExpandLocked st r).2 := by
  unfold pollRequestedExpandLocked
  split
  · exact Quiet.refl.move
  · rename_i hfound
    split
    · rename_i hroom
      exact .fail ⟨rfl, rfl, rfl, rfl, rfl⟩ hreq hroom rfl (.inl rfl)
    · rename_i hroom
      exact .complete hreq ⟨r, rfl, not_not.1 hfound⟩ (not_le.1 hroom) rfl
        (by simp [ranges, Segment.range, Segment.fresh]) rfl rfl rfl rfl (.inl rfl)

/-- Where an expansion is possible, the request is a move of the protocol. -/
theorem request_move (hi : st.expandState = .idle) (hn : st.cspaceNtfn ≠ 0)
    (hc : st.cspaceExpandCount < maxCspaceExpansions) :
    ExpandMove (some r) st { ensureRootBits st r with expandState := .requested } := by
  have k := ensureRootBits_keeps st r
  exact .request ⟨k.initialized, k.ranges, k.ntfn, k.count, k.depth⟩ hi hn hc rfl ⟨r, rfl, rfl⟩

theorem DriveCase.move {p : ExpandProgress} (h : DriveCase st r p st') :
    ExpandMove (some r) st st' := by
  cases h with
  | refuse => exact Quiet.refl.move
  | request hn hc hidle => exact request_move hidle hn hc
  | probe _ _ hreq =>
    exact (pollRequestedExpandLocked_move (by simpa using hreq)).of_ensureRootBits (by simp [hreq])
  | failed hfailed => exact Quiet.refl.move.of_ensureRootBits (by simp [hfailed])

theorem AsyncCase.move {res : SlotResult} (h : AsyncCase st r res st') :
    ExpandMove (some r) st st' := by
  cases h with
  | find halloc => exact ((allocSingleLocked_attempt _).takes halloc).quiet.move
  | refuse => exact Quiet.refl.move
  | request _ hidle hn hc => exact request_move hidle hn hc
  | probe hreq => exact pollRequestedExpandLocked_move hreq
  | expand _ hreq halloc =>
    exact (pollRequestedExpandLocked_move hreq).trans_quiet
      ((allocSingleLocked_attempt _).takes halloc).quiet

/-- Every action of a thread, wherever it is in a call, is a move of the
    protocol. -/
theorem act_move (h : act st pc a = some (pc', st', es)) : ExpandMove (reply pc a) st st' := by
  cases act_section h with
  | refuse | start | giveUp | miss => exact Quiet.refl.move
  | find req hsearch => exact ((req.search_attempt _).takes hsearch).quiet.move
  | async r => exact (slotAllocAsyncInner_cases st r).move
  | free slot => exact (slotFreeLocked_quiet st slot).move
  | freeRange base count => exact (slotFreeRangeFrom_quiet st base 0 count).move
  | drive req left r => exact (driveCspaceExpand_cases st r).move

/-! ## The invariant -/

/-- The invariant of the protocol: after the initial segments there is one for each
    completed expansion, in order; the counters are in their bounds; and an
    expansion that has been requested is possible. -/
structure Protocol (initial : List (ℕ × ℕ)) (st : SlotAllocState) : Prop where
  ranges : st.ranges = initial ++ (List.range st.cspaceExpandCount).map expansionRange
  count_le : st.cspaceExpandCount ≤ maxCspaceExpansions
  length_le : st.segments.length ≤ maxSegments
  requested : st.expandState = .requested →
    st.cspaceNtfn ≠ 0 ∧ st.cspaceExpandCount < maxCspaceExpansions

/-- The address probed for a requested expansion is that of its segment. -/
theorem Protocol.probe (h : Protocol initial st) (hreq : st.expandState = .requested) :
    (probeAddr st, 2 ^ slotExpandBitsDefault) = expansionRange st.cspaceExpandCount := by
  have hlt := (h.requested hreq).2
  rw [expansionRange, probeAddr, Nat.mod_eq_of_lt]
  simp only [cspaceExpandBase, slotExpandBitsDefault, maxCspaceExpansions] at *
  omega

/-- What a move does to the segments: nothing, or it registers the next
    expansion. -/
theorem Protocol.registers (h : Protocol initial st) (hmove : ExpandMove o st st') :
    (st'.ranges = st.ranges ∧ st'.cspaceExpandCount = st.cspaceExpandCount) ∨
      (st'.ranges = st.ranges ++ [expansionRange st.cspaceExpandCount] ∧
        st'.cspaceExpandCount = st.cspaceExpandCount + 1) := by
  cases hmove with
  | keep k | request k | fail k => exact .inl ⟨k.ranges, k.count⟩
  | complete hreq _ _ _ hranges _ hcount => exact .inr ⟨h.probe hreq ▸ hranges, hcount⟩

theorem Protocol.move (h : Protocol initial st) (hmove : ExpandMove o st st') :
    Protocol initial st' := by
  -- The segments and the count first: they do not depend on the case.
  have hranges : st'.ranges = initial ++ (List.range st'.cspaceExpandCount).map expansionRange := by
    rcases h.registers hmove with ⟨hr, hc⟩ | ⟨hr, hc⟩
    · rw [hr, hc, h.ranges]
    · rw [hr, hc, h.ranges, List.range_succ, List.map_append, List.append_assoc]
      rfl
  have hkeeps (k : st.Keeps st') :
      st'.cspaceExpandCount ≤ maxCspaceExpansions ∧ st'.segments.length ≤ maxSegments := by
    rw [k.count, ← length_ranges, k.ranges, length_ranges]
    exact ⟨h.count_le, h.length_le⟩
  cases hmove with
  | keep k hs =>
    refine ⟨hranges, (hkeeps k).1, (hkeeps k).2, fun hreq => ?_⟩
    rw [k.ntfn, k.count]
    exact h.requested (hs ▸ hreq)
  | request k _ hn hc =>
    refine ⟨hranges, (hkeeps k).1, (hkeeps k).2, fun _ => ?_⟩
    rw [k.ntfn, k.count]
    exact ⟨hn, hc⟩
  | fail k _ _ hs =>
    refine ⟨hranges, (hkeeps k).1, (hkeeps k).2, fun hreq => ?_⟩
    rw [hs] at hreq
    cases hreq
  | complete hreq _ hroom _ hadd _ hcount _ hs =>
    refine ⟨hranges, ?_, ?_, fun hreq => ?_⟩
    · rw [hcount]
      exact (h.requested hreq).2
    · rw [← length_ranges, hadd, List.length_append, length_ranges]
      exact hroom
    · rw [hs] at hreq
      cases hreq

/-- The cached sizes, when the root CNode has `bits` bits and the kernel says
    so. -/
structure Depths (bits : ℕ) (st : SlotAllocState) : Prop where
  roots : st.rootBits = 0 ∨ st.rootBits = bits
  requested : st.expandState = .requested → st.rootBits = bits
  depth : st.expandedDepth = if st.cspaceExpandCount = 0 then 0 else bits + slotExpandBitsDefault

theorem Depths.ensureRootBits (h : Depths bits st) (hbits : bits < 2 ^ 8)
    (hr : r.rootInfo = some bits) : (ensureRootBits st r).rootBits = bits := by
  unfold Trona.ensureRootBits
  split
  · rw [hr]
    exact Nat.mod_eq_of_lt hbits
  · rename_i hne
    exact h.roots.resolve_left hne

theorem Depths.move (h : Depths bits st) (hpos : 0 < bits) (hbits : bits ≤ 53)
    (ho : ∀ r ∈ o, r.rootInfo = some bits) (hmove : ExpandMove o st st') : Depths bits st' := by
  have hasked : ∀ r ∈ o, (Trona.ensureRootBits st r).rootBits = bits := fun r hr =>
    h.ensureRootBits (by omega) (ho r hr)
  have hroots (hr : Roots o st st') : st'.rootBits = st.rootBits ∨ st'.rootBits = bits := by
    rcases hr with hr | ⟨r, hr, heq⟩
    · exact .inl hr
    · exact .inr (heq.trans (hasked r hr))
  have hroots' (hr : Roots o st st') : st'.rootBits = 0 ∨ st'.rootBits = bits := by
    rcases hroots hr with heq | heq
    · exact heq ▸ h.roots
    · exact .inr heq
  have hreq' (hr : Roots o st st') (hreq : st.expandState = .requested) : st'.rootBits = bits := by
    rcases hroots hr with heq | heq
    · exact heq.trans (h.requested hreq)
    · exact heq
  have hdepth (k : st.Keeps st') : st'.expandedDepth =
      if st'.cspaceExpandCount = 0 then 0 else bits + slotExpandBitsDefault := by
    rw [k.depth, k.count]
    exact h.depth
  cases hmove with
  | keep k hs hr => exact ⟨hroots' hr, fun hreq => hreq' hr (hs ▸ hreq), hdepth k⟩
  | request k _ _ _ _ hr =>
    obtain ⟨r, hr, heq⟩ := hr
    have hbits' := heq.trans (hasked r hr)
    exact ⟨.inr hbits', fun _ => hbits', hdepth k⟩
  | fail k _ _ hs hr =>
    refine ⟨hroots' hr, fun hreq => ?_, hdepth k⟩
    rw [hs] at hreq
    cases hreq
  | complete hreq _ _ _ _ _ hcount hd hs hr =>
    have hbits' := hreq' hr hreq
    refine ⟨.inr hbits', fun hreq => ?_, ?_⟩
    · rw [hs] at hreq
      cases hreq
    · rw [hd, hbits', if_pos hpos, hcount, if_neg (Nat.succ_ne_zero _)]
      simp only [slotExpandBitsDefault]
      omega

/-- The slots are those of the initial segments and of the expansions. -/
theorem Protocol.mem_slots (h : Protocol initial st) :
    x ∈ st.slots ↔ (∃ p ∈ initial, x ∈ rangeSlots p) ∨
      ∃ k < st.cspaceExpandCount, x ∈ rangeSlots (expansionRange k) := by
  simp only [slots, h.ranges, List.mem_append, List.mem_map, List.mem_range, Set.mem_ofPred_eq]
  constructor
  · rintro ⟨p, hp | ⟨k, hk, rfl⟩, hx⟩
    · exact .inl ⟨p, hp, hx⟩
    · exact .inr ⟨k, hk, hx⟩
  · rintro (⟨p, hp, hx⟩ | ⟨k, hk, hx⟩)
    · exact ⟨p, .inl hp, hx⟩
    · exact ⟨_, .inr ⟨k, hk, rfl⟩, hx⟩

/-- The depth of a slot of an expansion. -/
theorem Depths.invoke_expansion {k : ℕ} (h : Depths bits st) (hk : k < st.cspaceExpandCount)
    (hx : x ∈ rangeSlots (expansionRange k)) :
    slotInvokeDepth st x = bits + slotExpandBitsDefault := by
  have hdepth : st.expandedDepth = bits + slotExpandBitsDefault := by
    rw [h.depth, if_neg (by omega)]
  have hge : x / 2 ^ slotExpandBitsDefault ≥ cspaceExpandBase := by
    have hlo := hx.1
    simp only [expansionRange, cspaceExpandBase, slotExpandBitsDefault] at *
    omega
  rw [slotInvokeDepth, hdepth, if_neg (by simp only [slotExpandBitsDefault]; omega), if_pos hge]

/-- The depth of a slot below the expansions. -/
theorem slotInvokeDepth_low (hx : x < cspaceExpandBase * 2 ^ slotExpandBitsDefault) :
    slotInvokeDepth st x = 0 := by
  have hlt : ¬x / 2 ^ slotExpandBitsDefault ≥ cspaceExpandBase :=
    not_le.2 (Nat.div_lt_of_lt_mul (by rwa [Nat.mul_comm]))
  rw [slotInvokeDepth, if_neg hlt, ite_self]

/-! ## What is handed out -/

theorem Marked.mem_slots (h : st.Marked x) : x ∈ st.slots := by
  obtain ⟨seg, hseg, hm⟩ := h
  exact ⟨seg.range, List.mem_map_of_mem hseg, hm.1⟩

/-- A move keeps the slots of the segments. -/
theorem ExpandMove.slots_subset (h : ExpandMove o st st') : st.slots ⊆ st'.slots := by
  rintro x ⟨p, hp, hx⟩
  refine ⟨p, ?_, hx⟩
  cases h with
  | keep k | request k | fail k => rwa [k.ranges]
  | complete _ _ _ _ hranges =>
    rw [hranges]
    exact List.mem_append_left _ hp

/-- Freeing a range hands out nothing. -/
theorem handed_notMem_slotFreeRangeFrom (st : SlotAllocState) (base off todo slot n : ℕ) :
    SlotEvent.handed slot n ∉ (slotFreeRangeFrom st base off todo).2 := by
  induction todo generalizing st off with
  | zero => exact List.not_mem_nil
  | succ todo ih =>
    intro hmem
    rcases List.mem_cons.1 hmem with h | h
    · cases h
    · exact ih _ _ h

/-- An action that hands out slots does nothing else. -/
theorem act_handed (h : act st pc a = some (pc', st', es)) (hmem : .handed slot n ∈ es) :
    es = [.handed slot n] := by
  cases act_section h with
  | refuse | start | giveUp | miss | drive => cases hmem
  | find req hsearch => rw [List.mem_singleton.1 hmem]
  | async r =>
    cases hres : (slotAllocAsyncInner st r).1 with
    | ok slot' =>
      rw [hres] at hmem
      rw [List.mem_singleton.1 hmem, SlotResult.events]
    | wouldBlock | exhausted =>
      rw [hres] at hmem
      cases hmem
  | free slot' => cases List.mem_singleton.1 hmem
  | freeRange base count => exact absurd hmem (handed_notMem_slotFreeRangeFrom _ _ _ _ _ _)

/-- What an action hands out is in a segment. -/
theorem act_handedOut (hv : st.Valid) (h : act st pc a = some (pc', st', es)) :
    handedOut es ⊆ st'.slots := by
  rintro x ⟨slot, n, hmem, hx⟩
  have hmarked : x ∈ st'.marks := by
    rw [(act_refines hv h).marks_eq, act_handed h hmem]
    exact .inr hx
  exact Marked.mem_slots hmarked

/-- An allocator that refused its range hands out nothing. -/
theorem act_refused (hst : st.initialized = false) (h : act st .idle a = some (pc', st', es)) :
    pc' = .idle ∧ st'.initialized = false ∧ ∀ slot n, .handed slot n ∉ es := by
  cases a with
  | slotAlloc | slotAllocConsecutive | slotAllocNoExpand =>
    simp only [act, hst, Bool.not_false, true_or, ↓reduceIte] at h
    cases h
    exact ⟨rfl, hst, fun _ _ => List.not_mem_nil⟩
  | slotAllocAsync r =>
    simp only [act, slotAllocAsyncInner, hst, Bool.not_false, ↓reduceIte] at h
    cases h
    exact ⟨rfl, hst, fun _ _ => List.not_mem_nil⟩
  | slotFree slot =>
    cases h
    refine ⟨rfl, (slotFreeLocked_quiet st slot).initialized.trans hst, fun _ _ hmem => ?_⟩
    cases List.mem_singleton.1 hmem
  | slotFreeRange base count =>
    cases h
    exact ⟨rfl, (slotFreeRangeFrom_quiet st base 0 count).initialized.trans hst,
      handed_notMem_slotFreeRangeFrom st base 0 count⟩
  | resume r => cases h

end SlotAllocState

/-! ## Every run -/

theorem handedOut_append (h h' : List SlotEvent) :
    handedOut (h ++ h') = handedOut h ∪ handedOut h' := by
  ext x
  simp only [handedOut, List.mem_append, Set.mem_ofPred_eq, Set.mem_union]
  constructor
  · rintro ⟨slot, n, hmem | hmem, hx⟩
    · exact .inl ⟨slot, n, hmem, hx⟩
    · exact .inr ⟨slot, n, hmem, hx⟩
  · rintro (⟨slot, n, hmem, hx⟩ | ⟨slot, n, hmem, hx⟩)
    · exact ⟨slot, n, .inl hmem, hx⟩
    · exact ⟨slot, n, .inr hmem, hx⟩

section

variable {base count ntfn : ℕ} {C : SlotSystem → ℕ → Action → Prop} {s : SlotSystem}
  {h : List SlotEvent}

theorem slotAllocInit_length_le (base count ntfn : ℕ) :
    (slotAllocInit base count ntfn).segments.length ≤ maxSegments := by
  have hlen (room b r : ℕ) : (initSegments room b r).1.length ≤ room := by
    induction room generalizing b r with
    | zero => exact le_rfl
    | succ room ih =>
      unfold initSegments
      split
      · exact Nat.zero_le _
      · exact Nat.succ_le_succ (ih _ _)
  unfold slotAllocInit
  simp only
  split_ifs
  · rw [List.length_append]
    exact Nat.add_le_of_le_sub' (show 1 ≤ 16 by decide) (hlen _ _ _)
  · exact Nat.zero_le _
  · exact hlen _ _ _
  · exact Nat.zero_le _

/-- Every state of a run has the invariant of the protocol. -/
theorem protocol_reaches (hreach : (slotAllocRuns base count ntfn C).Reaches s h) :
    s.alloc.Protocol (slotAllocInit base count ntfn).ranges := by
  refine hreach.invariant (P := fun s _ =>
    s.alloc.Protocol (slotAllocInit base count ntfn).ranges) ?_ ?_
  · rintro s rfl
    exact ⟨(List.append_nil _).symm, Nat.zero_le _, slotAllocInit_length_le base count ntfn,
      fun hreq => by cases hreq⟩
  · rintro s h es _ hp ⟨t, a, pc', st', -, hact, rfl⟩
    exact hp.move (SlotAllocState.act_move hact)

/-- What a run hands out is in a segment. -/
theorem handedOut_reaches (hr : base + count ≤ 2 ^ 64)
    (hlow : ntfn ≠ 0 → base + count ≤ 1008 <<< 10)
    (hreach : (slotAllocRuns base count ntfn C).Reaches s h) : handedOut h ⊆ s.alloc.slots := by
  cases hok : (slotAllocInit base count ntfn).initialized with
  | true =>
    have hinv := hreach.invariant (P := fun s h => s.alloc.Valid ∧ handedOut h ⊆ s.alloc.slots)
      ?_ ?_
    · exact hinv.2
    · rintro s rfl
      refine ⟨(slotAllocInit_spec hok hr hlow).1, ?_⟩
      rintro x ⟨_, _, hmem, -⟩
      cases hmem
    · rintro s h es _ ⟨hv, hsub⟩ ⟨t, a, pc', st', -, hact, rfl⟩
      refine ⟨(SlotAllocState.act_refines hv hact).valid, ?_⟩
      rw [handedOut_append]
      exact Set.union_subset (hsub.trans (SlotAllocState.act_move hact).slots_subset)
        (SlotAllocState.act_handedOut hv hact)
  | false =>
    -- No call gets past its first check.
    have hinv := hreach.invariant (P := fun s h => s.alloc.initialized = false ∧
      (∀ t, s.pc t = .idle) ∧ ∀ slot n, SlotEvent.handed slot n ∉ h) ?_ ?_
    · rintro x ⟨slot, n, hmem, -⟩
      exact absurd hmem (hinv.2.2 slot n)
    · rintro s rfl
      exact ⟨hok, fun _ => rfl, fun _ _ => List.not_mem_nil⟩
    · rintro s h es _ ⟨hst, hpc, hnone⟩ ⟨t, a, pc', st', -, hact, rfl⟩
      rw [hpc t] at hact
      obtain ⟨rfl, hst', hes⟩ := SlotAllocState.act_refused hst hact
      refine ⟨hst', fun u => ?_, fun slot n hmem => ?_⟩
      · show Function.update s.pc t .idle u = .idle
        rw [← hpc t, Function.update_eq_self, hpc u, hpc t]
      · exact (List.mem_append.1 hmem).elim (hnone slot n) (hes slot n)

/-- The initial segments are apart, and below the expansions. -/
theorem slotAllocInit_ranges (hlow : base + count ≤ 1008 <<< 10) :
    ((slotAllocInit base count ntfn).ranges.Pairwise fun p q =>
        Disjoint (rangeSlots p) (rangeSlots q)) ∧
      ∀ p ∈ (slotAllocInit base count ntfn).ranges, p.1 + p.2 ≤ 1008 <<< 10 := by
  cases hok : (slotAllocInit base count ntfn).initialized with
  | true =>
    -- The segments do not depend on the notification.
    have hv := (@slotAllocInit_spec base count 1 hok (by omega) fun _ => hlow).1
    refine ⟨List.pairwise_map.2 (hv.apart.imp fun hapart => ?_), fun p hp => ?_⟩
    · exact Set.disjoint_left.2 fun x hx hx' => hapart x ⟨hx, hx'⟩
    · obtain ⟨seg, hseg, rfl⟩ := List.mem_map.1 hp
      have hle : seg.base + seg.count ≤ (cspaceExpandBase + 0) * 2 ^ slotExpandBitsDefault :=
        hv.below Nat.one_ne_zero seg hseg
      exact hle.trans (by decide)
  | false =>
    have hnil : (slotAllocInit base count ntfn).ranges = [] := by
      simp only [slotAllocInit] at hok
      simp only [SlotAllocState.ranges, slotAllocInit, hok, Bool.false_eq_true, ↓reduceIte,
        List.map_nil]
    rw [hnil]
    exact ⟨List.Pairwise.nil, fun _ hp => absurd hp List.not_mem_nil⟩

/-- No two segments of a run have a slot in common. -/
theorem ranges_disjoint (hlow : base + count ≤ 1008 <<< 10)
    (hreach : (slotAllocRuns base count ntfn C).Reaches s h) :
    s.alloc.ranges.Pairwise fun p q => Disjoint (rangeSlots p) (rangeSlots q) := by
  obtain ⟨hinit, hbelow⟩ := @slotAllocInit_ranges base count ntfn hlow
  rw [(protocol_reaches hreach).ranges]
  refine List.pairwise_append.2 ⟨hinit, List.pairwise_map.2 ?_, fun p hp q hq => ?_⟩
  · refine List.pairwise_lt_range.imp fun {j k} hjk => Set.disjoint_left.2 fun x hx hx' => ?_
    have hlt := hx.2
    have hle := hx'.1
    simp only [expansionRange, cspaceExpandBase, slotExpandBitsDefault] at hlt hle
    omega
  · obtain ⟨k, -, rfl⟩ := List.mem_map.1 hq
    refine Set.disjoint_left.2 fun x hx hx' => ?_
    have hlt := hx.2
    have hle := hx'.1
    have := hbelow p hp
    simp only [expansionRange, cspaceExpandBase, slotExpandBitsDefault] at hlt hle
    omega

theorem depths_reaches {bits : ℕ} (hpos : 1 ≤ bits) (hbits : bits ≤ 53)
    (hC : ∀ s t a, C s t a → ∀ r ∈ reply (s.pc t) a, r.rootInfo = some bits)
    (hreach : (slotAllocRuns base count ntfn C).Reaches s h) : s.alloc.Depths bits := by
  refine hreach.invariant (P := fun s _ => s.alloc.Depths bits) ?_ ?_
  · rintro s rfl
    exact ⟨.inl rfl, (fun hreq => by cases hreq), rfl⟩
  · rintro s h es _ hd ⟨t, a, pc', st', hc, hact, rfl⟩
    exact hd.move hpos hbits (hC s t a hc) (SlotAllocState.act_move hact)

/-- The expansion protocol. Over every run, whatever the two drivers do and
    whatever the kernel answers, there are at most 8 expansions and 16 segments, and
    the segments are the initial ones and then those of the completed expansions,
    each at its own place; a step that completes one registers the next.

    If moreover the kernel tells the size of the root CNode, from 1 to 53 bits, and
    the initial range is below the expansions, then no slot is in two segments, and
    the invoke depth tells the slots of expansions from the initial ones. -/
theorem slotAlloc_expansions (hreach : (slotAllocRuns base count ntfn C).Reaches s h) :
    s.alloc.cspaceExpandCount ≤ 8 ∧ s.alloc.segments.length ≤ 16 ∧
      s.alloc.ranges = (slotAllocInit base count ntfn).ranges ++
        (List.range s.alloc.cspaceExpandCount).map expansionRange ∧
      ((List.range s.alloc.cspaceExpandCount).map expansionRange).Nodup ∧
      (∀ k, rangeSlots (expansionRange k) = Set.Ico ((1008 + k) <<< 10) ((1008 + k + 1) <<< 10)) ∧
      (∀ es s', (slotAllocRuns base count ntfn C).step s es s' →
        (s'.alloc.ranges = s.alloc.ranges ∧
          s'.alloc.cspaceExpandCount = s.alloc.cspaceExpandCount) ∨
        (s'.alloc.ranges = s.alloc.ranges ++ [expansionRange s.alloc.cspaceExpandCount] ∧
          s'.alloc.cspaceExpandCount = s.alloc.cspaceExpandCount + 1)) ∧
      ∀ bits, 1 ≤ bits → bits ≤ 53 → base + count ≤ 1008 <<< 10 →
        (∀ s t a, C s t a → ∀ r ∈ reply (s.pc t) a, r.rootInfo = some bits) →
        s.alloc.ranges.Pairwise (fun p q => Disjoint (rangeSlots p) (rangeSlots q)) ∧
          ∀ x ∈ handedOut h,
            (slotInvokeDepth s.alloc x = bits + 10 ↔
              ∃ k < s.alloc.cspaceExpandCount, x ∈ rangeSlots (expansionRange k)) ∧
            (x ∈ Set.Ico base (base + count) → slotInvokeDepth s.alloc x = 0) := by
  have hp := protocol_reaches hreach
  refine ⟨hp.count_le, hp.length_le, hp.ranges, ?_, fun k => ?_, ?_, ?_⟩
  · refine List.nodup_range.map fun j k hjk => ?_
    have := congrArg Prod.fst hjk
    simp only [expansionRange, cspaceExpandBase, slotExpandBitsDefault] at this
    omega
  · simp only [rangeSlots, expansionRange, cspaceExpandBase, slotExpandBitsDefault,
      Nat.shiftLeft_eq, Nat.succ_mul]
  · rintro es _ ⟨t, a, pc', st', -, hact, rfl⟩
    exact hp.registers (SlotAllocState.act_move hact)
  · intro bits hpos hbits hlow hC
    have hd := depths_reaches hpos hbits hC hreach
    refine ⟨ranges_disjoint hlow hreach, fun x hx => ⟨⟨fun hdepth => ?_, ?_⟩, fun hinit => ?_⟩⟩
    · rcases hp.mem_slots.1 (handedOut_reaches (by omega) (fun _ => hlow) hreach hx) with
        ⟨p, hmem, hxp⟩ | hexp
      · -- a slot of an initial segment has depth 0
        have hlt := hxp.2.trans_le ((@slotAllocInit_ranges base count ntfn hlow).2 p hmem)
        rw [SlotAllocState.slotInvokeDepth_low hlt] at hdepth
        omega
      · exact hexp
    · rintro ⟨k, hk, hxk⟩
      exact hd.invoke_expansion hk hxk
    · exact SlotAllocState.slotInvokeDepth_low (hinit.2.trans_le hlow)

end

/-- One slot, then an expansion of a root CNode of 10 bits: the depth of the slot
    64 is 0, that of the first slot of the expansion is 20. -/
theorem slotAlloc_expansions_first :
    ∃ s h, (slotAllocRuns 64 1 5 fun s t a =>
        ∀ r ∈ reply (s.pc t) a, r.rootInfo = some 10).Reaches s h ∧
      h = [.handed 64 1, .handed (1008 <<< 10) 1] ∧
      slotInvokeDepth s.alloc (1008 <<< 10) = 20 ∧ slotInvokeDepth s.alloc 64 = 0 := by
  have hreply (e : ℕ) : ∀ r ∈ reply .idle (.slotAllocAsync ⟨e, some 10⟩), r.rootInfo = some 10 := by
    rintro _ ⟨⟩
    rfl
  have h₀ := Lts.Reaches.init (m := slotAllocRuns 64 1 5 fun s t a =>
    ∀ r ∈ reply (s.pc t) a, r.rootInfo = some 10) rfl
  have h₁ := h₀.step ⟨0, .slotAllocAsync ⟨0, some 10⟩, _, _, hreply 0, rfl, rfl⟩
  have h₂ := h₁.step ⟨1, .slotAllocAsync ⟨1, some 10⟩, _, _, hreply 1, rfl, rfl⟩
  have h₃ := h₂.step ⟨0, .slotAllocAsync ⟨0, some 10⟩, _, _, hreply 0, rfl, rfl⟩
  obtain ⟨-, -, -, -, -, -, hdepth⟩ := slotAlloc_expansions h₃
  have hall := (hdepth 10 (by decide) (by decide) (by decide) fun _ _ _ hc => hc).2
  refine ⟨_, _, h₃, rfl, ?_, ?_⟩
  · exact (hall _ ⟨1008 <<< 10, 1, .tail _ (.head _), le_rfl, Nat.lt_succ_self _⟩).1.2
      ⟨0, Nat.one_pos, by constructor <;> decide⟩
  · exact (hall 64 ⟨64, 1, .head _, le_rfl, Nat.lt_succ_self _⟩).2 (by constructor <;> decide)

end Trona
