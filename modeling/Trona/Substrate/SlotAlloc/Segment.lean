import Trona.Lib.Bitmap

/-!
# Segments of the slot allocator

A *segment* is a contiguous range of CNode slots with a bitmap of the slots
handed out (`substrate/slot_alloc.rs`). It also keeps the number of these slots
(`used`) and a rotating hint, the index at which the next search starts.

The operations are those of the source: handing out one slot
(`segmentAllocSingle`), a run of consecutive slots (`segmentAllocContiguous`),
and taking a slot back (`segmentFree`). What they do is said once:

* `Segment.Takes s slot n s'` is what the code does to hand out the slots from
  `slot` to `slot + n`: it marks a run of free indices;
* `Segment.Valid` is the invariant of a segment, `Segment.Marked` the slots it
  has handed out;
* `Segment.Hands s slot n s'` is the effect: the slots were free, they are marked,
  and nothing else changes.
-/

namespace Trona

/-- The slots a segment has at most: `MAX_SEGMENT_SLOTS`. -/
def maxSegmentSlots : ℕ := 4096

/-- The words of the bitmap of a segment: `SEGMENT_BITMAP_WORDS`. -/
def segmentBitmapWords : ℕ := 64

/-- A contiguous range of CNode slots available for allocation. -/
structure Segment where
  base : ℕ
  count : ℕ
  allocHint : ℕ
  used : ℕ
  bits : Bitmap segmentBitmapWords

/-- A segment with no slot handed out. -/
def Segment.fresh (base count : ℕ) : Segment where
  base := base
  count := count
  allocHint := 0
  used := 0
  bits := Bitmap.empty _

/-! ## The operations -/

section

variable (seg : Segment)

/-- The index of a slot in a segment. -/
def segmentSlotIndex (slot : ℕ) : Option ℕ :=
  if slot < seg.base then none
  else if slot - seg.base ≥ seg.count then none
  else some (slot - seg.base)

def segmentIsUsed (idx : ℕ) : Bool := seg.bits.test idx

def segmentMarkUsed (idx : ℕ) : Segment :=
  { seg with bits := seg.bits.insert idx, used := seg.used + 1 }

def segmentMarkFree (idx : ℕ) : Segment :=
  { seg with bits := seg.bits.erase idx, used := seg.used - 1 }

/-- The first free index from `start` on, and then from `0` to `start`: the two
    loops of `segment_alloc_single`. -/
def segmentFirstFree (start : ℕ) : Option ℕ :=
  match (List.range' start (seg.count - start)).find? fun idx => !segmentIsUsed seg idx with
  | some idx => some idx
  | none => (List.range' 0 start).find? fun idx => !segmentIsUsed seg idx

/-- Hand out one slot of a segment, if there is one. -/
def segmentAllocSingle : Option ℕ × Segment :=
  if seg.used ≥ seg.count then (none, seg)
  else
    match segmentFirstFree seg (min seg.allocHint seg.count) with
    | none => (none, seg)
    | some idx =>
      (some ((seg.base + idx) % 2 ^ 64), { segmentMarkUsed seg idx with allocHint := idx + 1 })

/-- The scan of `segment_alloc_contiguous` for a run of `count` free indices:
    `todo` indices are left from `idx` on, and the `runLen` indices from
    `runStart` on are free. -/
def segmentFindRun (count : ℕ) : (todo idx runStart runLen : ℕ) → Option ℕ
  | 0, _, _, _ => none
  | todo + 1, idx, runStart, runLen =>
    if !segmentIsUsed seg idx then
      let runStart := if runLen = 0 then idx else runStart
      if runLen + 1 = count then some runStart
      else segmentFindRun count todo (idx + 1) runStart (runLen + 1)
    else segmentFindRun count todo (idx + 1) runStart 0

/-- Hand out `count` consecutive slots of a segment, if there are any. -/
def segmentAllocContiguous (count : ℕ) : Option ℕ × Segment :=
  if count = 0 ∨ count > seg.count - seg.used then (none, seg)
  else if count = 1 then segmentAllocSingle seg
  else
    match segmentFindRun seg count seg.count 0 0 0 with
    | none => (none, seg)
    | some runStart =>
      let marked := (List.range' runStart count).foldl segmentMarkUsed seg
      (some ((seg.base + runStart) % 2 ^ 64), { marked with allocHint := runStart + count })

/-- Take back the slot at an index. -/
def segmentFree (idx : ℕ) : Bool × Segment :=
  if idx ≥ seg.count ∨ !segmentIsUsed seg idx then (false, seg)
  else
    let freed := segmentMarkFree seg idx
    (true, { freed with allocHint := if idx ≤ freed.allocHint then idx else freed.allocHint })

end

/-! ## The invariant of a segment -/

namespace Segment

section

variable (s : Segment)

/-- The invariant of a segment. -/
structure Valid : Prop where
  count_le : s.count ≤ maxSegmentSlots
  no_wrap : s.base + s.count ≤ 2 ^ 64
  used_eq : s.used = s.bits.card s.count
  hint_le : s.allocHint ≤ s.count

/-- The slot `x` is in the range of the segment. -/
def Covers (x : ℕ) : Prop := s.base ≤ x ∧ x < s.base + s.count

/-- The bit of the slot `x` is set. -/
def Marked (x : ℕ) : Prop := s.Covers x ∧ s.bits.test (x - s.base) = true

/-- `s'` is `s` after handing out the slots from `slot` to `slot + n`. -/
structure Hands (slot n : ℕ) (s' : Segment) : Prop where
  valid : s'.Valid
  base_eq : s'.base = s.base
  count_eq : s'.count = s.count
  covers : ∀ x, slot ≤ x → x < slot + n → s.Covers x
  free : ∀ x, slot ≤ x → x < slot + n → ¬s.Marked x
  marked : ∀ x, s'.Marked x ↔ (slot ≤ x ∧ x < slot + n) ∨ s.Marked x

/-- The `n` indices of the segment from `i` on are free. -/
def FreeRun (i n : ℕ) : Prop :=
  i + n ≤ s.count ∧ ∀ j, i ≤ j → j < i + n → s.bits.test j = false

/-- The segment with the `n` indices from `i` on marked, and the hint at their end. -/
def markRun (i n : ℕ) : Segment :=
  { (List.range' i n).foldl segmentMarkUsed s with allocHint := i + n }

/-- `s'` is `s` with a run of `n` free indices marked, and `slot` is the slot of the first. -/
def Takes (slot n : ℕ) (s' : Segment) : Prop :=
  ∃ i, 0 < n ∧ s.FreeRun i n ∧ slot = (s.base + i) % 2 ^ 64 ∧ s' = s.markRun i n

end

theorem valid_fresh {base count : ℕ} (hcount : count ≤ maxSegmentSlots)
    (hwrap : base + count ≤ 2 ^ 64) : (fresh base count).Valid where
  count_le := hcount
  no_wrap := hwrap
  used_eq := (Bitmap.card_empty count).symm
  hint_le := Nat.zero_le _

theorem not_marked_fresh (base count x : ℕ) : ¬(fresh base count).Marked x := by
  simp [Marked, fresh]

/-- The word of an index of a segment exists. -/
theorem word_lt {s : Segment} (h : s.count ≤ maxSegmentSlots) {idx : ℕ} (hidx : idx < s.count) :
    idx / 64 < segmentBitmapWords := by
  simp only [maxSegmentSlots, segmentBitmapWords] at *
  omega

end Segment

/-! ## Handing out slots -/

open Segment

variable {s : Segment} {slot idx n i : ℕ} {s' : Segment}

theorem segmentFirstFree_spec {start : ℕ} (hstart : start ≤ s.count)
    (h : segmentFirstFree s start = some idx) : idx < s.count ∧ s.bits.test idx = false := by
  unfold segmentFirstFree at h
  split at h
  · rename_i i hi
    obtain rfl : i = idx := Option.some.inj h
    have hmem := List.mem_of_find?_eq_some hi
    have hfree := List.find?_some hi
    rw [List.mem_range'_1] at hmem
    exact ⟨by omega, by simpa [segmentIsUsed] using hfree⟩
  · have hmem := List.mem_of_find?_eq_some h
    have hfree := List.find?_some h
    rw [List.mem_range'_1] at hmem
    exact ⟨by omega, by simpa [segmentIsUsed] using hfree⟩

theorem Segment.foldl_markUsed (l : List ℕ) (s : Segment) :
    (l.foldl segmentMarkUsed s).base = s.base ∧ (l.foldl segmentMarkUsed s).count = s.count := by
  induction l generalizing s with
  | nil => exact ⟨rfl, rfl⟩
  | cons i l ih => exact ih (segmentMarkUsed s i)

@[simp] theorem Segment.markRun_base (s : Segment) (i n : ℕ) : (s.markRun i n).base = s.base :=
  (foldl_markUsed _ s).1

@[simp] theorem Segment.markRun_count (s : Segment) (i n : ℕ) : (s.markRun i n).count = s.count :=
  (foldl_markUsed _ s).2

/-- What marking a run of free indices does to the bitmap and the counter. -/
theorem Segment.FreeRun.markRun (h : s.FreeRun i n) (hs : s.count ≤ maxSegmentSlots) :
    (s.markRun i n).used = s.used + n ∧
      (s.markRun i n).bits.card s.count = s.bits.card s.count + n ∧
      ∀ j, (s.markRun i n).bits.test j = (decide (i ≤ j ∧ j < i + n) || s.bits.test j) := by
  obtain ⟨hn, hfree⟩ := h
  induction n with
  | zero =>
    simp [Segment.markRun]
  | succ n ih =>
    obtain ⟨hu, hcard, htest⟩ := ih (by omega) fun j h₁ h₂ => hfree j h₁ (by omega)
    have hword := word_lt hs (show i + n < s.count by omega)
    -- The last index of the run is free in the segment marked so far.
    have hlast : (s.markRun i n).bits.test (i + n) = false := by
      rw [htest, hfree (i + n) (by omega) (by omega)]
      simp
    simp only [Segment.markRun, List.range'_1_concat, List.foldl_append, List.foldl_cons,
      List.foldl_nil, segmentMarkUsed] at *
    refine ⟨by omega, ?_, fun j => ?_⟩
    · rw [Bitmap.card_insert _ hword (by omega) hlast, hcard]
      omega
    · rw [Bitmap.test_insert _ hword, htest]
      by_cases hj : j = i + n
      · simp [hj]
      · have : (i ≤ j ∧ j < i + (n + 1)) ↔ (i ≤ j ∧ j < i + n) := by omega
        simp [hj, this]

/-- Marking a run of free indices and moving the hint to its end hands out the
    run. -/
theorem Segment.Takes.hands (h : s.Takes slot n s') (hs : s.Valid) : s.Hands slot n s' := by
  obtain ⟨i, hpos, hrun, rfl, rfl⟩ := h
  obtain ⟨hu, hcard, htest⟩ := hrun.markRun hs.count_le
  obtain ⟨hn, hfree⟩ := hrun
  have hb := s.markRun_base i n
  have hc := s.markRun_count i n
  have hwrap := hs.no_wrap
  refine ⟨⟨?_, ?_, ?_, ?_⟩, hb, hc, fun x h₁ h₂ => ⟨by omega, by omega⟩, fun x h₁ h₂ hm => ?_,
    fun x => ?_⟩
  · simpa only [hc] using hs.count_le
  · simpa only [hb, hc] using hs.no_wrap
  · simp only [hc, hu, hcard, hs.used_eq]
  · rw [hc]
    exact hn
  · have := hm.2
    rw [hfree (x - s.base) (by omega) (by omega)] at this
    exact Bool.false_ne_true this
  · simp only [Marked, Covers, hb, hc, htest, Bool.or_eq_true, decide_eq_true_eq]
    constructor
    · rintro ⟨⟨h₁, h₂⟩, h₃ | h₃⟩
      · exact .inl ⟨by omega, by omega⟩
      · exact .inr ⟨⟨h₁, h₂⟩, h₃⟩
    · rintro (⟨h₁, h₂⟩ | ⟨⟨h₁, h₂⟩, h₃⟩)
      · exact ⟨⟨by omega, by omega⟩, .inl (by omega)⟩
      · exact ⟨⟨h₁, h₂⟩, .inr h₃⟩

/-- What an attempt to hand out slots does to a segment: a run of free slots is taken, or
    nothing changes. -/
def Segment.Attempt (s : Segment) (n : ℕ) (r : Option ℕ × Segment) : Prop :=
  (∃ slot, r.1 = some slot ∧ s.Takes slot n r.2) ∨ r = (none, s)

theorem segmentAllocSingle_attempt (s : Segment) : s.Attempt 1 (segmentAllocSingle s) := by
  unfold segmentAllocSingle
  split
  · exact .inr rfl
  split
  · exact .inr rfl
  · rename_i idx hidx
    obtain ⟨hlt, hfree⟩ := segmentFirstFree_spec (Nat.min_le_right _ _) hidx
    refine .inl ⟨_, rfl, idx, Nat.one_pos, ⟨hlt, fun j h₁ h₂ => ?_⟩, rfl, rfl⟩
    obtain rfl : j = idx := by omega
    exact hfree

/-- The scan returns the start of a run of free indices: the indices from
    `runStart` to `idx` are free all along. -/
theorem segmentFindRun_spec {count todo runStart runLen r : ℕ} (hcount : runLen < count)
    (hrun : 0 < runLen → runStart + runLen = idx)
    (hfree : ∀ j, idx - runLen ≤ j → j < idx → s.bits.test j = false) (hle : runLen ≤ idx)
    (h : segmentFindRun s count todo idx runStart runLen = some r) :
    r + count ≤ idx + todo ∧ ∀ j, r ≤ j → j < r + count → s.bits.test j = false := by
  induction todo generalizing idx runStart runLen with
  | zero => cases h
  | succ todo ih =>
    rw [segmentFindRun] at h
    by_cases hused : segmentIsUsed s idx
    · -- A used index ends the run.
      simp only [hused, Bool.not_true, Bool.false_eq_true, ↓reduceIte] at h
      obtain ⟨h₁, h₂⟩ := ih (by omega) (by omega) (fun j _ _ => by omega) (by omega) h
      exact ⟨by omega, h₂⟩
    · simp only [hused, Bool.not_false, ↓reduceIte] at h
      have hidx : s.bits.test idx = false := by simpa [segmentIsUsed] using hused
      have hfree' : ∀ j, idx + 1 - (runLen + 1) ≤ j → j < idx + 1 → s.bits.test j = false := by
        intro j h₁ h₂
        rcases Nat.lt_succ_iff_lt_or_eq.1 h₂ with hlt | rfl
        · exact hfree j (by omega) hlt
        · exact hidx
      have hstart : (if runLen = 0 then idx else runStart) + (runLen + 1) = idx + 1 := by
        split <;> omega
      by_cases hdone : runLen + 1 = count
      · simp only [hdone, ↓reduceIte] at h
        obtain rfl := Option.some.inj h
        exact ⟨by omega, fun j h₁ h₂ => hfree' j (by omega) (by omega)⟩
      · simp only [hdone, ↓reduceIte] at h
        obtain ⟨h₁, h₂⟩ := ih (by omega) (fun _ => hstart) hfree' (by omega) h
        exact ⟨by omega, h₂⟩

theorem segmentFindRun_freeRun (hn : 0 < n) (h : segmentFindRun s n s.count 0 0 0 = some i) :
    s.FreeRun i n := by
  obtain ⟨hle, hfree⟩ := segmentFindRun_spec hn (by omega)
    (fun j _ hj => absurd hj (Nat.not_lt_zero j)) (Nat.le_refl 0) h
  exact ⟨by omega, hfree⟩

theorem segmentAllocContiguous_attempt (s : Segment) (n : ℕ) :
    s.Attempt n (segmentAllocContiguous s n) := by
  unfold segmentAllocContiguous
  split
  · exact .inr rfl
  split
  · rename_i hone
    rw [hone]
    exact segmentAllocSingle_attempt s
  split
  · exact .inr rfl
  · rename_i i hrun
    have hn : 0 < n := by omega
    exact .inl ⟨_, rfl, i, hn, segmentFindRun_freeRun hn hrun, rfl, rfl⟩

/-! ## Taking slots back -/

theorem segmentSlotIndex_eq_some :
    segmentSlotIndex s slot = some idx ↔ s.Covers slot ∧ idx = slot - s.base := by
  unfold segmentSlotIndex Covers
  split
  · simp; omega
  · split
    · simp; omega
    · simp only [Option.some.injEq]
      constructor
      · intro h; omega
      · intro h; exact h.2.symm

theorem segmentSlotIndex_isSome : (segmentSlotIndex s slot).isSome = true ↔ s.Covers slot := by
  rw [Option.isSome_iff_exists]
  simp [segmentSlotIndex_eq_some]

/-- Taking back a slot of the segment succeeds when its bit is set. -/
theorem segmentFree_fst :
    (segmentFree s idx).1 = true ↔ idx < s.count ∧ s.bits.test idx = true := by
  unfold segmentFree
  split
  · rename_i hno
    refine iff_of_false Bool.false_ne_true fun h => ?_
    simp [segmentIsUsed, h.2, not_le.2 h.1] at hno
  · rename_i hused
    rw [not_or, not_le, Bool.not_eq_true', Bool.not_eq_false] at hused
    exact iff_of_true rfl hused

/-- Then it unmarks the slot and nothing else. -/
theorem segmentFree_spec (hs : s.Valid) (hcov : s.Covers slot)
    (hused : s.bits.test (slot - s.base) = true) :
    let s' := (segmentFree s (slot - s.base)).2
    s'.Valid ∧ s'.base = s.base ∧ s'.count = s.count ∧
      ∀ x, s'.Marked x ↔ s.Marked x ∧ x ≠ slot := by
  have hidx : slot - s.base < s.count := by have := hcov.2; have := hcov.1; omega
  have hword := word_lt hs.count_le hidx
  have hcard := Bitmap.card_erase s.bits hword hidx hused
  have hmarked : ∀ x, (s.Covers x ∧ (s.bits.erase (slot - s.base)).test (x - s.base) = true) ↔
      s.Marked x ∧ x ≠ slot := by
    intro x
    rw [Bitmap.test_erase _ hword]
    constructor
    · rintro ⟨hx, ht⟩
      simp only [Bool.and_eq_true, Bool.not_eq_true', decide_eq_false_iff_not] at ht
      exact ⟨⟨hx, ht.2⟩, fun h => ht.1 (by rw [h])⟩
    · rintro ⟨⟨hx, ht⟩, hne⟩
      have : x - s.base ≠ slot - s.base := by
        have := hx.1; have := hcov.1; omega
      exact ⟨hx, by simp [this, ht]⟩
  have hnot : ¬(slot - s.base ≥ s.count ∨ (!segmentIsUsed s (slot - s.base)) = true) := by
    simp [segmentIsUsed, hused, hidx]
  rw [segmentFree, if_neg hnot]
  refine ⟨⟨hs.count_le, hs.no_wrap, ?_, ?_⟩, rfl, rfl, hmarked⟩
  · simp only [segmentMarkFree, hs.used_eq]
    omega
  · have := hs.hint_le
    show (if slot - s.base ≤ s.allocHint then slot - s.base else s.allocHint) ≤ s.count
    split <;> omega

end Trona
