import Mathlib.Data.Set.Lattice
import Mathlib.Order.CompletePartialOrder
import Mathlib.Order.Interval.Set.Disjoint
import Trona.Substrate.SlotAlloc.State

/-!
# The CSpace layout of a child process

`compute_cspace_layout` (`substrate/layout.rs`): which slots of its CNode a child hands out
itself, which ones receive capabilities, and which ones take the sub-CNodes of its expansions.
The child starts its slot allocator on the first of these ranges.

* `computeCspaceLayout_sound_iff`: the ranges are apart, and above the slots that are taken from
  the start, only if the CNode is large enough for what is reserved at its top, and the taken
  slots end below the expansions;
* `slotAllocInit_cspaceLayout_iff`: the allocator takes a range of at most 65536 slots.
-/

namespace Trona

/-- `CspaceLayoutProfile`. -/
inductive CspaceLayoutProfile
  | defaultService
  | pager
  | bootstrapAuthority
  deriving DecidableEq

/-- `TronaCspaceLayoutV1`. -/
structure CspaceLayout where
  version : ℕ
  flags : ℕ
  cnodeBits : ℕ
  frameSlotBase : ℕ
  allocBase : ℕ
  allocLimit : ℕ
  recvBase : ℕ
  recvLimit : ℕ
  expandBase : ℕ
  expandLimit : ℕ
  deriving DecidableEq

/-- `AUTHORITY_RECV_SLOT_COUNT`. -/
def authorityRecvSlotCount : ℕ := 1024

/-- `CHILD_FRAME_SLOT_BASE`. -/
def childFrameSlotBase : ℕ := 64

/-- The size of the CNode, and none if it is too large. -/
def totalSlots (cnodeBits : ℕ) : ℕ := if cnodeBits ≥ 63 then 0 else 2 ^ cnodeBits

/-- The first slot for the frames of the dynamic linker. -/
def frameSlotBase (frameSlotFloor : ℕ) : ℕ :=
  if frameSlotFloor > childFrameSlotBase then frameSlotFloor else childFrameSlotBase

/-- The range for incoming capabilities, at the top of the CNode. -/
def recvRange (total : ℕ) (profile : CspaceLayoutProfile) : ℕ × ℕ :=
  if (profile = .pager ∨ profile = .bootstrapAuthority) ∧ total ≠ 0 then
    let reserve := if total > authorityRecvSlotCount then authorityRecvSlotCount else total
    (total - reserve, total)
  else (0, 0)

/-- The range for expansions. -/
def expandRange (total : ℕ) (hasExpandWindow : Bool) : ℕ × ℕ :=
  if hasExpandWindow then
    let base := if total > cspaceExpandBase then cspaceExpandBase else total
    let requested := cspaceExpandBase + maxCspaceExpansions
    let limit := if total < requested then total else requested
    if limit > base then (base, limit) else (0, 0)
  else (0, 0)

/-- The end of the slots that the child hands out: a range that is not empty is cut off. -/
def cutOff (limit : ℕ) (range : ℕ × ℕ) : ℕ :=
  if range.2 > range.1 ∧ range.1 < limit then range.1 else limit

/-- Compute the layout of a child. -/
def computeCspaceLayout (cnodeBits frameSlotFloor : ℕ) (profile : CspaceLayoutProfile)
    (hasExpandWindow : Bool) : CspaceLayout :=
  let total := totalSlots cnodeBits
  let frameBase := frameSlotBase frameSlotFloor
  let recv := recvRange total profile
  let expand := expandRange total hasExpandWindow
  let allocLimit := cutOff (cutOff total expand) recv
  { version := 1
    flags := (if recv.2 > recv.1 then 1 else 0) ||| (if expand.2 > expand.1 then 2 else 0)
    cnodeBits := cnodeBits
    frameSlotBase := frameBase
    allocBase := if frameBase < allocLimit then frameBase else allocLimit
    allocLimit := allocLimit
    recvBase := recv.1
    recvLimit := recv.2
    expandBase := expand.1
    expandLimit := expand.2 }

namespace CspaceLayout

variable (l : CspaceLayout)

/-- The slots that the child hands out. -/
def alloc : Set ℕ := Set.Ico l.allocBase l.allocLimit

/-- The slots for incoming capabilities. -/
def recv : Set ℕ := Set.Ico l.recvBase l.recvLimit

/-- The slots for expansions. -/
def expand : Set ℕ := Set.Ico l.expandBase l.expandLimit

/-- The ranges are apart, inside of the CNode, and above the slots that are taken from the
    start. -/
structure Sound : Prop where
  alloc_recv : Disjoint l.alloc l.recv
  alloc_expand : Disjoint l.alloc l.expand
  recv_expand : Disjoint l.recv l.expand
  inside : ∀ x ∈ l.alloc ∪ l.recv ∪ l.expand, x < 2 ^ l.cnodeBits
  empty : 63 ≤ l.cnodeBits → l.alloc ∪ l.recv ∪ l.expand = ∅
  above : ∀ x ∈ l.alloc ∪ l.recv ∪ l.expand, l.frameSlotBase ≤ x

end CspaceLayout

/-- There is room: above the slots that are taken from the start, for what is reserved at the top
    of the CNode; and for these slots, below the expansions. -/
def HasRoom (cnodeBits frameSlotFloor : ℕ) (profile : CspaceLayoutProfile)
    (hasExpandWindow : Bool) : Prop :=
  (profile ≠ .defaultService → cnodeBits < 63 →
      max frameSlotFloor childFrameSlotBase + authorityRecvSlotCount ≤ 2 ^ cnodeBits) ∧
    (hasExpandWindow → 10 ≤ cnodeBits → cnodeBits < 63 →
      max frameSlotFloor childFrameSlotBase ≤ cspaceExpandBase)

/-! ## The ranges -/

section

variable {cnodeBits frameSlotFloor total : ℕ} {profile : CspaceLayoutProfile}
  {hasExpandWindow : Bool}

theorem frameSlotBase_eq :
    frameSlotBase frameSlotFloor = max frameSlotFloor childFrameSlotBase := by
  rw [frameSlotBase]
  split <;> omega

/-- A power of two is below the expansions, or at least 1024. -/
theorem totalSlots_cases :
    (63 ≤ cnodeBits ∧ totalSlots cnodeBits = 0) ∨
      (cnodeBits < 10 ∧ totalSlots cnodeBits = 2 ^ cnodeBits ∧ totalSlots cnodeBits ≤ 512) ∨
      (cnodeBits = 10 ∧ totalSlots cnodeBits = 1024) ∨
      (10 < cnodeBits ∧ cnodeBits < 63 ∧ totalSlots cnodeBits = 2 ^ cnodeBits ∧
        2048 ≤ totalSlots cnodeBits) := by
  rw [totalSlots]
  split
  · exact .inl ⟨‹_›, rfl⟩
  · rcases Nat.lt_trichotomy cnodeBits 10 with hlt | rfl | hgt
    · exact .inr (.inl ⟨hlt, rfl, Nat.pow_le_pow_right (by decide) (Nat.le_of_lt_succ hlt)⟩)
    · exact .inr (.inr (.inl ⟨rfl, rfl⟩))
    · exact .inr (.inr (.inr ⟨hgt, by omega, rfl, Nat.pow_le_pow_right (n := 2) (by decide) hgt⟩))

theorem recvRange_eq :
    recvRange (totalSlots cnodeBits) profile =
      if profile ≠ .defaultService ∧ cnodeBits < 63 then
        (2 ^ cnodeBits - authorityRecvSlotCount, 2 ^ cnodeBits)
      else (0, 0) := by
  have hreserves :
      (profile = .pager ∨ profile = .bootstrapAuthority) ↔ profile ≠ .defaultService := by
    cases profile <;> decide
  simp only [recvRange, hreserves]
  by_cases hbits : cnodeBits < 63
  · have htotal : totalSlots cnodeBits = 2 ^ cnodeBits := if_neg (by omega)
    have hpos := Nat.two_pow_pos cnodeBits
    rw [htotal]
    by_cases hprofile : profile = .defaultService
    · simp [hprofile]
    · simp only [ne_eq, hprofile, not_false_eq_true, hbits, and_self, hpos.ne', ↓reduceIte,
        Prod.mk.injEq, and_true]
      split <;> omega
  · have htotal : totalSlots cnodeBits = 0 := if_pos (by omega)
    simp [htotal, hbits]

theorem expandRange_eq :
    expandRange (totalSlots cnodeBits) hasExpandWindow =
      if hasExpandWindow ∧ 10 ≤ cnodeBits ∧ cnodeBits < 63 then (1008, 1016) else (0, 0) := by
  simp only [expandRange, cspaceExpandBase, maxCspaceExpansions]
  rcases @totalSlots_cases cnodeBits with ⟨hbits, htotal⟩ | ⟨hbits, -, htotal⟩ | ⟨rfl, htotal⟩ |
    ⟨hbits, hbits', -, htotal⟩
  · simp [htotal, show ¬cnodeBits < 63 by omega]
  · have : ¬totalSlots cnodeBits > 1008 ∧ totalSlots cnodeBits < 1016 := by omega
    simp [this, show ¬10 ≤ cnodeBits by omega]
  · simp [htotal]
  · have : totalSlots cnodeBits > 1008 ∧ ¬totalSlots cnodeBits < 1016 := by omega
    simp [this, hbits.le, hbits']

variable {limit : ℕ} {range : ℕ × ℕ}

theorem cutOff_le : cutOff limit range ≤ limit := by
  rw [cutOff]
  split <;> omega

theorem cutOff_eq_min (h : range.1 < range.2) : cutOff limit range = min limit range.1 := by
  rw [cutOff]
  split <;> omega

theorem cutOff_le_base (h : range.1 < range.2) : cutOff limit range ≤ range.1 := by
  rw [cutOff_eq_min h]
  exact Nat.min_le_right _ _

/-- What the layout of a child is. The slots that it hands out end before the other ranges, and
    begin above the slots that are taken, if there are any. -/
structure CspaceLayout.Computed (l : CspaceLayout) (cnodeBits frameSlotFloor : ℕ)
    (profile : CspaceLayoutProfile) (hasExpandWindow : Bool) : Prop where
  bits : l.cnodeBits = cnodeBits
  frame : l.frameSlotBase = max frameSlotFloor childFrameSlotBase
  recv : l.recv = if profile ≠ .defaultService ∧ cnodeBits < 63 then
    Set.Ico (2 ^ cnodeBits - authorityRecvSlotCount) (2 ^ cnodeBits) else ∅
  expand : l.expand = if hasExpandWindow ∧ 10 ≤ cnodeBits ∧ cnodeBits < 63 then
    Set.Ico 1008 1016 else ∅
  limit_total : l.allocLimit ≤ totalSlots cnodeBits
  limit_recv : ∀ x ∈ l.recv, l.allocLimit ≤ x
  limit_expand : ∀ x ∈ l.expand, l.allocLimit ≤ x
  base : ∀ x ∈ l.alloc, l.frameSlotBase ≤ x

theorem computeCspaceLayout_computed :
    (computeCspaceLayout cnodeBits frameSlotFloor profile hasExpandWindow).Computed cnodeBits
      frameSlotFloor profile hasExpandWindow where
  bits := rfl
  frame := frameSlotBase_eq
  recv := by
    change Set.Ico (recvRange _ _).1 (recvRange _ _).2 = _
    rw [recvRange_eq]
    split <;> simp
  expand := by
    change Set.Ico (expandRange _ _).1 (expandRange _ _).2 = _
    rw [expandRange_eq]
    split <;> simp
  limit_total := cutOff_le.trans cutOff_le
  limit_recv := fun x hx => (cutOff_le_base (hx.1.trans_lt hx.2)).trans hx.1
  limit_expand := fun x hx =>
    cutOff_le.trans ((cutOff_le_base (hx.1.trans_lt hx.2)).trans hx.1)
  base := by
    intro x hx
    have hlt := hx.1.trans_lt hx.2
    refine le_trans ?_ hx.1
    revert hlt
    simp only [computeCspaceLayout]
    split <;> omega

namespace CspaceLayout.Computed

variable {l : CspaceLayout} {x : ℕ}

variable (hl : l.Computed cnodeBits frameSlotFloor profile hasExpandWindow)

include hl

theorem lt_of_mem_alloc (hx : x ∈ l.alloc) : x < 2 ^ cnodeBits ∧ cnodeBits < 63 := by
  have hlt := hx.2.trans_le hl.limit_total
  rw [totalSlots] at hlt
  split at hlt
  · exact absurd hlt (Nat.not_lt_zero x)
  · exact ⟨hlt, by omega⟩

theorem mem_recv :
    x ∈ l.recv ↔ (profile ≠ .defaultService ∧ cnodeBits < 63) ∧
      2 ^ cnodeBits - authorityRecvSlotCount ≤ x ∧ x < 2 ^ cnodeBits := by
  rw [hl.recv]
  split <;> simp_all

theorem mem_expand :
    x ∈ l.expand ↔ (hasExpandWindow ∧ 10 ≤ cnodeBits ∧ cnodeBits < 63) ∧ 1008 ≤ x ∧ x < 1016 := by
  rw [hl.expand]
  split <;> simp_all

end CspaceLayout.Computed

/-- The ranges of the layout of a child are apart, inside of its CNode and above the slots that are
    taken from the start, exactly when there is room. -/
theorem computeCspaceLayout_sound_iff :
    (computeCspaceLayout cnodeBits frameSlotFloor profile hasExpandWindow).Sound ↔
      HasRoom cnodeBits frameSlotFloor profile hasExpandWindow := by
  have hl := @computeCspaceLayout_computed cnodeBits frameSlotFloor profile hasExpandWindow
  generalize computeCspaceLayout cnodeBits frameSlotFloor profile hasExpandWindow = l at hl
  have hpos := Nat.two_pow_pos cnodeBits
  constructor
  · -- the first slot of a range is above the taken ones
    intro h
    have habove := h.above
    rw [hl.frame] at habove
    refine ⟨fun hprofile hbits => ?_, fun hwindow hbits hbits' => ?_⟩
    · have hmem : 2 ^ cnodeBits - authorityRecvSlotCount ∈ l.recv :=
        hl.mem_recv.2 ⟨⟨hprofile, hbits⟩, le_rfl, Nat.sub_lt hpos (by decide)⟩
      have := habove _ (.inl (.inr hmem))
      simp only [authorityRecvSlotCount, childFrameSlotBase] at *
      omega
    · exact habove 1008 (.inr (hl.mem_expand.2 ⟨⟨hwindow, hbits, hbits'⟩, by decide⟩))
  · rintro ⟨hrecv, hexpand⟩
    -- with room for what is reserved the CNode has at least 2048 slots
    have hr : ∀ x ∈ l.recv, max frameSlotFloor childFrameSlotBase ≤ x ∧ 1024 ≤ x ∧
        x < 2 ^ cnodeBits ∧ cnodeBits < 63 := by
      intro x hx
      obtain ⟨⟨hprofile, hbits⟩, hlo, hhi⟩ := hl.mem_recv.1 hx
      have hroom := hrecv hprofile hbits
      have hcases := @totalSlots_cases cnodeBits
      simp only [authorityRecvSlotCount, childFrameSlotBase] at *
      rcases hcases with ⟨h, -⟩ | ⟨-, heq, hle⟩ | ⟨rfl, -⟩ | ⟨-, -, heq, hle⟩ <;> omega
    have he : ∀ x ∈ l.expand, max frameSlotFloor childFrameSlotBase ≤ x ∧ x < 1016 ∧
        x < 2 ^ cnodeBits ∧ cnodeBits < 63 := by
      intro x hx
      obtain ⟨⟨hwindow, hbits, hbits'⟩, hlo, hhi⟩ := hl.mem_expand.1 hx
      have hroom := hexpand hwindow hbits hbits'
      have hle : 2 ^ 10 ≤ 2 ^ cnodeBits := Nat.pow_le_pow_right (by decide) hbits
      exact ⟨hroom.trans hlo, hhi, by omega, hbits'⟩
    have hall : ∀ x ∈ l.alloc ∪ l.recv ∪ l.expand, x < 2 ^ cnodeBits ∧ cnodeBits < 63 ∧
        l.frameSlotBase ≤ x := by
      rintro x ((hx | hx) | hx)
      · exact ⟨(hl.lt_of_mem_alloc hx).1, (hl.lt_of_mem_alloc hx).2, hl.base x hx⟩
      · obtain ⟨hlo, -, hhi, hbits⟩ := hr x hx
        exact ⟨hhi, hbits, hl.frame.trans_le hlo⟩
      · obtain ⟨hlo, -, hhi, hbits⟩ := he x hx
        exact ⟨hhi, hbits, hl.frame.trans_le hlo⟩
    refine ⟨?_, ?_, ?_, ?_, ?_, fun x hx => (hall x hx).2.2⟩
    · exact Set.disjoint_left.2 fun x hx hx' => absurd hx.2 (not_lt.2 (hl.limit_recv x hx'))
    · exact Set.disjoint_left.2 fun x hx hx' => absurd hx.2 (not_lt.2 (hl.limit_expand x hx'))
    · refine Set.disjoint_left.2 fun x hx hx' => ?_
      have := (hr x hx).2.1
      have := (he x hx').2.1
      omega
    · exact fun x hx => hl.bits ▸ (hall x hx).1
    · intro hbits
      refine Set.eq_empty_of_forall_notMem fun x hx => ?_
      have := (hall x hx).2.1
      have := hl.bits
      omega

/-- A pager with a CNode of 1024 slots and an expansion window: the whole CNode is for incoming
    capabilities, also the slots that are taken from the start and the ones for expansions. -/
theorem computeCspaceLayout_overlap :
    0 ∈ (computeCspaceLayout 10 64 .pager true).recv ∧
      1008 ∈ (computeCspaceLayout 10 64 .pager true).recv ∧
      1008 ∈ (computeCspaceLayout 10 64 .pager true).expand ∧
      ¬(computeCspaceLayout 10 64 .pager true).Sound := by
  have hrecv : 1008 ∈ (computeCspaceLayout 10 64 .pager true).recv := by
    constructor <;> decide
  have hexpand : 1008 ∈ (computeCspaceLayout 10 64 .pager true).expand := by
    constructor <;> decide
  exact ⟨by constructor <;> decide, hrecv, hexpand,
    fun h => Set.disjoint_left.1 h.recv_expand hrecv hexpand⟩

/-! ## The allocator -/

/-- The segments of an allocator cover a set of slots, each slot once. -/
structure SlotAllocState.CoversOnce (st : SlotAllocState) (slots : Set ℕ) : Prop where
  covers : ∀ x, x ∈ slots ↔ ∃ seg ∈ st.segments, seg.Covers x
  once : st.segments.Pairwise Segment.Apart

/-- There are at most as many slots to hand out as the segments of an allocator have. An
    expansion window leaves fewer than 1008. -/
def FitsAllocator (cnodeBits frameSlotFloor : ℕ) (profile : CspaceLayoutProfile)
    (hasExpandWindow : Bool) : Prop :=
  hasExpandWindow ∨ 2 ^ cnodeBits ≤ max frameSlotFloor childFrameSlotBase +
    (if profile = .defaultService then 0 else authorityRecvSlotCount) +
      maxSegments * maxSegmentSlots

instance : Decidable (FitsAllocator cnodeBits frameSlotFloor profile hasExpandWindow) :=
  inferInstanceAs (Decidable (_ ∨ _))

/-- What remains is what the table has no room for. -/
theorem initSegments_remaining (room b r : ℕ) :
    (initSegments room b r).2 = r - room * maxSegmentSlots := by
  induction room generalizing b r with
  | zero => simp [initSegments]
  | succ room ih =>
    rw [initSegments]
    split
    · simp [*]
    · rw [ih, Nat.succ_mul]
      omega

theorem initSegments_zero (room b : ℕ) : (initSegments room b 0).1 = [] := by
  cases room <;> rfl

/-- A range that there is room for is covered. -/
theorem initSegments_covers {room b r x : ℕ} (hr : b + r ≤ 2 ^ 64)
    (hroom : r ≤ room * maxSegmentSlots) :
    (∃ seg ∈ (initSegments room b r).1, seg.Covers x) ↔ b ≤ x ∧ x < b + r := by
  induction room generalizing b r with
  | zero =>
    simp [initSegments]
    omega
  | succ room ih =>
    rw [initSegments]
    split
    · simp
      omega
    · rename_i hne
      rw [Nat.succ_mul] at hroom
      -- the rest of the range; past the last chunk its base may have wrapped
      have hrest : (∃ seg ∈ (initSegments room ((b + min r maxSegmentSlots) % 2 ^ 64)
            (r - min r maxSegmentSlots)).1, seg.Covers x) ↔
          b + min r maxSegmentSlots ≤ x ∧ x < b + r := by
        by_cases hz : r - min r maxSegmentSlots = 0
        · rw [hz, initSegments_zero]
          simp
          omega
        · rw [Nat.mod_eq_of_lt (by omega), ih (by omega) (by omega)]
          omega
      simp only [List.exists_mem_cons_iff, hrest]
      simp only [Segment.Covers, Segment.fresh]
      omega

/-- The allocator takes the range exactly if its segments have room for it, and then they cover
    it. -/
theorem slotAllocInit_covers_iff {base count ntfn : ℕ} (hcount : count ≠ 0)
    (hr : base + count ≤ 2 ^ 64) :
    ((slotAllocInit base count ntfn).initialized = true ∧
        (slotAllocInit base count ntfn).CoversOnce (Set.Ico base (base + count))) ↔
      count ≤ maxSegments * maxSegmentSlots := by
  have hinit : (slotAllocInit base count ntfn).initialized = true ↔
      count ≤ maxSegments * maxSegmentSlots := by
    simp [slotAllocInit, hcount, initSegments_remaining]
    omega
  rw [hinit, and_iff_left_iff_imp]
  intro hle
  have hsegs : (slotAllocInit base count ntfn).segments =
      (initSegments maxSegments base count).1 := by
    have hrem : (initSegments maxSegments base count).2 = 0 := by
      rw [initSegments_remaining]
      omega
    simp [slotAllocInit, hcount, hrem]
  refine ⟨fun x => ?_, ?_⟩
  · rw [hsegs, initSegments_covers hr hle]
    rfl
  · rw [hsegs]
    exact (initSegments_spec maxSegments base count hr).2

/-- An expansion window leaves at most the slots below it. -/
theorem computeCspaceLayout_allocLimit_window :
    (computeCspaceLayout cnodeBits frameSlotFloor profile true).allocLimit ≤ 1008 := by
  refine cutOff_le.trans ?_
  rcases @totalSlots_cases cnodeBits with ⟨-, htotal⟩ | ⟨-, -, htotal⟩ | ⟨rfl, htotal⟩ |
    ⟨hbits, hbits', -, -⟩
  · exact cutOff_le.trans (by omega)
  · exact cutOff_le.trans (by omega)
  · rw [expandRange_eq, if_pos (by decide)]
    exact cutOff_le_base (by decide)
  · rw [expandRange_eq, if_pos ⟨rfl, hbits.le, hbits'⟩]
    exact cutOff_le_base (by decide)

/-- Without a window there are all slots but those that are reserved. -/
theorem computeCspaceLayout_allocLimit (hbits : cnodeBits < 63) :
    (computeCspaceLayout cnodeBits frameSlotFloor profile false).allocLimit =
      2 ^ cnodeBits - if profile = .defaultService then 0 else authorityRecvSlotCount := by
  have htotal : totalSlots cnodeBits = 2 ^ cnodeBits := if_neg (by omega)
  have hpos := Nat.two_pow_pos cnodeBits
  change cutOff (cutOff _ (0, 0)) (recvRange _ _) = _
  by_cases hprofile : profile = .defaultService
  · rw [recvRange_eq, if_neg (fun h => h.1 hprofile), if_pos hprofile, htotal]
    rfl
  · rw [recvRange_eq, if_pos ⟨hprofile, hbits⟩, if_neg hprofile, htotal,
      cutOff_eq_min (Nat.sub_lt hpos (by decide))]
    exact Nat.min_eq_right (Nat.sub_le _ _)

/-- If a child has slots to hand out then its allocator takes them, and covers each of them once,
    exactly when its segments have room for them. -/
theorem slotAllocInit_cspaceLayout_iff {l : CspaceLayout} {ntfn : ℕ}
    (hl : l = computeCspaceLayout cnodeBits frameSlotFloor profile hasExpandWindow)
    (hne : l.alloc.Nonempty) :
    ((slotAllocInit l.allocBase (l.allocLimit - l.allocBase) ntfn).initialized = true ∧
        (slotAllocInit l.allocBase (l.allocLimit - l.allocBase) ntfn).CoversOnce l.alloc) ↔
      FitsAllocator cnodeBits frameSlotFloor profile hasExpandWindow := by
  have hcomputed := @computeCspaceLayout_computed cnodeBits frameSlotFloor profile hasExpandWindow
  rw [← hl] at hcomputed
  obtain ⟨x, hx⟩ := hne
  obtain ⟨-, hbits⟩ := hcomputed.lt_of_mem_alloc hx
  have hlt : l.allocBase < l.allocLimit := hx.1.trans_lt hx.2
  have hbase : l.allocBase = max frameSlotFloor childFrameSlotBase := by
    rw [← hcomputed.frame]
    refine le_antisymm ?_ (hcomputed.base _ ⟨le_rfl, hlt⟩)
    rw [hl]
    simp only [computeCspaceLayout]
    split <;> omega
  have hsize : 2 ^ cnodeBits ≤ 2 ^ 62 := Nat.pow_le_pow_right (by decide) (by omega)
  have hlimit : l.allocLimit ≤ 2 ^ cnodeBits := by
    have := hcomputed.limit_total
    rwa [totalSlots, if_neg (by omega)] at this
  have hrange : l.alloc = Set.Ico l.allocBase (l.allocBase + (l.allocLimit - l.allocBase)) := by
    rw [Nat.add_sub_cancel' hlt.le]
    rfl
  rw [hrange, slotAllocInit_covers_iff (by omega) (by omega), FitsAllocator, ← hbase]
  cases hasExpandWindow with
  | true =>
    have hwindow := @computeCspaceLayout_allocLimit_window cnodeBits frameSlotFloor profile
    rw [← hl] at hwindow
    simp only [maxSegments, maxSegmentSlots]
    simp
    omega
  | false =>
    have hall := @computeCspaceLayout_allocLimit cnodeBits frameSlotFloor profile hbits
    rw [← hl] at hall
    simp only [Bool.false_eq_true, false_or]
    omega

/-- A service with a CNode of 4096 slots. -/
theorem slotAllocInit_cspaceLayout_iff_service :
    (computeCspaceLayout 12 64 .defaultService false).alloc.Nonempty ∧
      (slotAllocInit (computeCspaceLayout 12 64 .defaultService false).allocBase
        ((computeCspaceLayout 12 64 .defaultService false).allocLimit -
          (computeCspaceLayout 12 64 .defaultService false).allocBase) 0).CoversOnce
        (computeCspaceLayout 12 64 .defaultService false).alloc := by
  have hne : (computeCspaceLayout 12 64 .defaultService false).alloc.Nonempty :=
    ⟨64, by constructor <;> decide⟩
  have hiff := @slotAllocInit_cspaceLayout_iff 12 64 .defaultService false _ 0 rfl hne
  exact ⟨hne, (hiff.2 (by decide)).2⟩

/-- A service with a CNode of 131072 slots and no expansion window has no allocator at all. -/
theorem slotAllocInit_cspaceLayout_refused :
    (computeCspaceLayout 17 64 .defaultService false).alloc = Set.Ico 64 131072 ∧
      (slotAllocInit 64 (131072 - 64) 0).initialized = false := by
  refine ⟨rfl, ?_⟩
  simp [slotAllocInit, initSegments_remaining, maxSegments, maxSegmentSlots]

end

end Trona
