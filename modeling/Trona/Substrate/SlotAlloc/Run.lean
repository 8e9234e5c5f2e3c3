import Mathlib.Data.Set.Insert
import Mathlib.Logic.Function.Basic
import Trona.Lib.Run
import Trona.Substrate.SlotAlloc.State

/-!
# Runs of the slot allocator

The threads of a process share one allocator. A call takes the lock for each of
its critical sections and gives it up between them, so the calls of several
threads interleave section by section: a synchronous allocation that waits for an
expansion has other threads allocate, free and complete expansions in between.

* `act`: what a thread does next, one critical section at a time. `act_section`
  lists the sections;
* `slotAllocSystem`: all threads together, as a transition system whose events are
  the slots handed out and the slots freed;
* `slotAlloc_safe`: over every run the allocator is valid, its bitmaps are the set
  of live slots, no live slot is handed out, and exactly the live slots are freed.
-/

namespace Trona

/-- What a synchronous allocation asks for. -/
inductive Request
  | single
  | consecutive (count : ℕ)
  deriving DecidableEq

/-- How many slots a request is for. -/
def Request.size : Request → ℕ
  | single => 1
  | consecutive count => count

/-- Where a thread is: in no call, or in a synchronous allocation that has `left`
    turns of its loop to go and is about to search the segments, or to drive an
    expansion. -/
inductive Pc
  | idle
  | trying (req : Request) (left : ℕ)
  | driving (req : Request) (left : ℕ)
  deriving DecidableEq

/-- What a thread does: it makes a call, or goes on with the one it is in. A
    section that may talk to the kernel takes the kernel's answer. -/
inductive Action
  | slotAlloc
  | slotAllocConsecutive (count : ℕ)
  | slotAllocNoExpand
  | slotAllocAsync (r : ProbeReply)
  | slotFree (slot : ℕ)
  | slotFreeRange (base count : ℕ)
  | resume (r : ProbeReply)

/-- What the callers see: consecutive slots handed out, and a slot freed with the
    result of the attempt. -/
inductive SlotEvent
  | handed (slot count : ℕ)
  | freed (slot : ℕ) (ok : Bool)
  deriving DecidableEq

/-- The search of one turn of the loop of a synchronous allocation. -/
def Request.search (st : SlotAllocState) : Request → Option ℕ × SlotAllocState
  | single => slotAllocFast st
  | consecutive count => slotAllocConsecutiveFast st count

/-- The loop of `slot_free_range`, from the offset `off` on, inside one critical
    section. -/
def slotFreeRangeFrom (st : SlotAllocState) (base off : ℕ) :
    (todo : ℕ) → SlotAllocState × List SlotEvent
  | 0 => (st, [])
  | todo + 1 =>
    let slot := (base + off) % 2 ^ 64
    let res := slotFreeLocked st slot
    let rest := slotFreeRangeFrom res.2 base (off + 1) todo
    (rest.1, .freed slot res.1 :: rest.2)

/-- One step of a thread: a call up to its first critical section, or the next
    critical section of the call. -/
def act (st : SlotAllocState) : Pc → Action → Option (Pc × SlotAllocState × List SlotEvent)
  | .idle, .slotAlloc =>
    some (if !st.initialized then .idle else .trying .single (maxSegments + 2), st, [])
  | .idle, .slotAllocConsecutive count =>
    some (if !st.initialized ∨ count = 0 then .idle
      else .trying (.consecutive count) (maxSegments + 2), st, [])
  | .idle, .slotAllocNoExpand =>
    if !st.initialized then some (.idle, st, [])
    else
      match slotAllocFast st with
      | (some slot, st') => some (.idle, st', [.handed slot 1])
      | (none, st') => some (.idle, st', [])
  | .idle, .slotAllocAsync r =>
    match slotAllocAsyncInner st r with
    | (.ok slot, st') => some (.idle, st', [.handed slot 1])
    | (.wouldBlock, st') => some (.idle, st', [])
    | (.exhausted, st') => some (.idle, st', [])
  | .idle, .slotFree slot =>
    let res := slotFreeLocked st slot
    some (.idle, res.2, [.freed slot res.1])
  | .idle, .slotFreeRange base count =>
    let res := slotFreeRangeFrom st base 0 count
    some (.idle, res.1, res.2)
  | .trying _ 0, .resume _ => some (.idle, st, [])
  | .trying req (left + 1), .resume _ =>
    match req.search st with
    | (some slot, st') => some (.idle, st', [.handed slot req.size])
    | (none, st') => some (.driving req left, st', [])
  | .driving req left, .resume r =>
    match driveCspaceExpand st r with
    | (.completed, st') => some (.trying req left, st', [])
    | (.pending, st') => some (.driving req left, st', [])
    | (.failed, st') => some (.idle, st', [])
  | _, _ => none

/-- The allocator with the threads that share it. -/
structure SlotSystem where
  alloc : SlotAllocState
  pc : ℕ → Pc

/-- The runs of a process that initialises its allocator with the slots from
    `base` to `base + count`: in each step one thread acts. -/
def slotAllocSystem (base count ntfn : ℕ) : Lts SlotSystem SlotEvent where
  init s := s = ⟨slotAllocInit base count ntfn, fun _ => .idle⟩
  step s es s' := ∃ t a pc' st', act s.alloc (s.pc t) a = some (pc', st', es) ∧
    s' = ⟨st', Function.update s.pc t pc'⟩

/-! ## The live slots -/

/-- The live slots after an event: those handed out and not freed since. -/
def observe (live : Set ℕ) : SlotEvent → Set ℕ
  | .handed slot count => live ∪ {x | slot ≤ x ∧ x < slot + count}
  | .freed slot true => live \ {slot}
  | .freed _ false => live

/-- An event is right, with the slots live before it: what is handed out is not
    live, and exactly a live slot can be freed. -/
def SlotEvent.Sound (live : Set ℕ) : SlotEvent → Prop
  | .handed slot count => ∀ x, slot ≤ x → x < slot + count → x ∉ live
  | .freed slot ok => ok = true ↔ slot ∈ live

/-- The live slots of a history. -/
def live (h : List SlotEvent) : Set ℕ := replay observe ∅ h

/-! ## One step -/

/-- The call that makes a request. -/
def Request.call : Request → Action
  | single => .slotAlloc
  | consecutive count => .slotAllocConsecutive count

/-- What an asynchronous allocation hands out. -/
def SlotResult.events : SlotResult → List SlotEvent
  | .ok slot => [.handed slot 1]
  | .wouldBlock | .exhausted => []

/-- Where a turn of the driver leaves a thread. -/
def ExpandProgress.next (req : Request) (left : ℕ) : ExpandProgress → Pc
  | .completed => .trying req left
  | .pending => .driving req left
  | .failed => .idle

/-- The critical sections: what an action can do, wherever the thread is. -/
inductive Section (st : SlotAllocState) :
    Pc → Action → Pc → SlotAllocState → List SlotEvent → Prop
  | refuse {a : Action} : Section st .idle a .idle st []
  | start (req : Request) (ready : st.initialized = true) :
      Section st .idle req.call (.trying req (maxSegments + 2)) st []
  | find {pc : Pc} {a : Action} {st' : SlotAllocState} (req : Request) {slot : ℕ}
      (search : req.search st = (some slot, st')) :
      Section st pc a .idle st' [.handed slot req.size]
  | async (r : ProbeReply) :
      Section st .idle (.slotAllocAsync r) .idle (slotAllocAsyncInner st r).2
        (slotAllocAsyncInner st r).1.events
  | free (slot : ℕ) :
      Section st .idle (.slotFree slot) .idle (slotFreeLocked st slot).2
        [.freed slot (slotFreeLocked st slot).1]
  | freeRange (base count : ℕ) :
      Section st .idle (.slotFreeRange base count) .idle (slotFreeRangeFrom st base 0 count).1
        (slotFreeRangeFrom st base 0 count).2
  | giveUp {a : Action} (req : Request) : Section st (.trying req 0) a .idle st []
  | miss {a : Action} (req : Request) (left : ℕ) (search : (req.search st).1 = none) :
      Section st (.trying req (left + 1)) a (.driving req left) st []
  | drive (req : Request) (left : ℕ) (r : ProbeReply) :
      Section st (.driving req left) (.resume r) ((driveCspaceExpand st r).1.next req left)
        (driveCspaceExpand st r).2 []

theorem Request.search_attempt (st : SlotAllocState) (req : Request) :
    st.Attempt req.size (req.search st) := by
  cases req with
  | single => exact SlotAllocState.slotAllocFast_attempt st
  | consecutive count => exact SlotAllocState.slotAllocConsecutiveFast_attempt st count

theorem act_section {st st' : SlotAllocState} {pc pc' : Pc} {a : Action} {es : List SlotEvent}
    (h : act st pc a = some (pc', st', es)) : Section st pc a pc' st' es := by
  unfold act at h
  split at h
  case h_1 =>
    cases h
    split
    · exact .refuse
    · rename_i hinit
      exact .start .single (by simpa using hinit)
  case h_2 count =>
    cases h
    split
    · exact .refuse
    · rename_i hinit
      exact .start (.consecutive count) (by simpa using (not_or.1 hinit).1)
  case h_3 =>
    split at h
    · cases h
      exact .refuse
    · split at h
      · rename_i hsearch
        cases h
        exact .find .single hsearch
      · rename_i st₀ hsearch
        obtain ⟨-, rfl⟩ := Prod.mk.inj (hsearch.symm.trans
          ((SlotAllocState.slotAllocFast_attempt st).eq_none (congrArg Prod.fst hsearch)))
        cases h
        exact .refuse
  case h_4 r =>
    have hrun := @Section.async st r
    split at h <;> rename_i heq <;> cases h <;> rwa [heq] at hrun
  case h_5 slot =>
    cases h
    exact .free slot
  case h_6 base count =>
    cases h
    exact .freeRange base count
  case h_7 req _ =>
    cases h
    exact .giveUp req
  case h_8 req left _ =>
    split at h
    · rename_i hsearch
      cases h
      exact .find req hsearch
    · rename_i st₀ hsearch
      have hnone : (req.search st).1 = none := congrArg Prod.fst hsearch
      obtain ⟨-, rfl⟩ := Prod.mk.inj (hsearch.symm.trans ((req.search_attempt st).eq_none hnone))
      cases h
      exact .miss req left hnone
  case h_9 req left r =>
    have hrun := @Section.drive st req left r
    split at h <;> rename_i heq <;> cases h <;> rwa [heq] at hrun
  case h_10 => cases h

namespace SlotAllocState

/-- The abstract state of the allocator: the marked slots. -/
def marks (st : SlotAllocState) : Set ℕ := {x | st.Marked x}

/-- A critical section refines its events: it keeps the allocator valid, and takes
    the marked slots where its events take them, each of them sound. -/
structure Refines (st : SlotAllocState) (es : List SlotEvent) (st' : SlotAllocState) : Prop where
  valid : st'.Valid
  marks_eq : st'.marks = replay observe st.marks es
  sound : Holds observe SlotEvent.Sound st.marks es

variable {st st' st'' : SlotAllocState} {es es' : List SlotEvent}

theorem Refines.append (h : st.Refines es st') (h' : st'.Refines es' st'') :
    st.Refines (es ++ es') st'' where
  valid := h'.valid
  marks_eq := by rw [h'.marks_eq, h.marks_eq, replay_append]
  sound := (holds_append _ _).2 ⟨h.sound, h.marks_eq ▸ h'.sound⟩

/-- A section with no event keeps the marks. -/
theorem refines_nil (hv : st'.Valid) (hm : ∀ x, st'.Marked x ↔ st.Marked x) : st.Refines [] st' :=
  ⟨hv, Set.ext hm, trivial⟩

theorem Valid.refines_self (hv : st.Valid) : st.Refines [] st :=
  refines_nil hv fun _ => Iff.rfl

theorem Hands.refines {slot n : ℕ} (h : st.Hands slot n st') : st.Refines [.handed slot n] st' :=
  ⟨h.valid, Set.ext fun x => (h.marked x).trans Or.comm, h.free, trivial⟩

theorem slotFreeLocked_refines (hv : st.Valid) (slot : ℕ) :
    st.Refines [.freed slot (slotFreeLocked st slot).1] (slotFreeLocked st slot).2 := by
  obtain ⟨hok, hv', hm⟩ := slotFreeLocked_spec hv slot
  refine ⟨hv', Set.ext fun x => ?_, hok, trivial⟩
  cases hres : (slotFreeLocked st slot).1 with
  | true => exact hm x
  | false =>
    have hnm : ¬st.Marked slot := fun hm => by simp [hok.2 hm] at hres
    exact (hm x).trans ⟨And.left, fun hx => ⟨hx, fun e => hnm (e ▸ hx)⟩⟩

theorem slotFreeRangeFrom_refines (hv : st.Valid) (base off todo : ℕ) :
    st.Refines (slotFreeRangeFrom st base off todo).2 (slotFreeRangeFrom st base off todo).1 := by
  induction todo generalizing st off with
  | zero => exact hv.refines_self
  | succ todo ih =>
    have hfree := slotFreeLocked_refines hv ((base + off) % 2 ^ 64)
    exact hfree.append (ih hfree.valid (off + 1))

/-- Every action of a thread, wherever it is in a call, refines its events. -/
theorem act_refines (hv : st.Valid) {pc pc' : Pc} {a : Action}
    (h : act st pc a = some (pc', st', es)) : st.Refines es st' := by
  cases act_section h with
  | refuse | start | giveUp | miss => exact hv.refines_self
  | find req hsearch => exact (((req.search_attempt st).takes hsearch).hands hv).refines
  | async r =>
    rcases (slotAllocAsyncInner_cases st r).spec hv with ⟨slot, hslot, hh⟩ | ⟨hne, hv', hm⟩
    · rw [hslot]
      exact hh.refines
    · cases hres : (slotAllocAsyncInner st r).1 with
      | ok slot => exact absurd hres (hne slot)
      | wouldBlock | exhausted => exact refines_nil hv' hm
  | free slot => exact slotFreeLocked_refines hv slot
  | freeRange base count => exact slotFreeRangeFrom_refines hv base 0 count
  | drive req left r =>
    obtain ⟨hv', hm⟩ := (driveCspaceExpand_cases st r).spec hv
    exact refines_nil hv' hm

end SlotAllocState

/-! ## Every run -/

section

variable {base count ntfn : ℕ} (hok : (slotAllocInit base count ntfn).initialized = true)
  (hr : base + count ≤ 2 ^ 64) (hlow : ntfn ≠ 0 → base + count ≤ 1008 <<< 10) {s : SlotSystem}
  {h : List SlotEvent} (hreach : (slotAllocSystem base count ntfn).Reaches s h)

include hok hr hlow hreach

/-- The marks start empty and go where the events take them. -/
theorem reaches_valid :
    s.alloc.Valid ∧ s.alloc.marks = live h ∧ Holds observe SlotEvent.Sound ∅ h := by
  refine hreach.invariant (P := fun s h => s.alloc.Valid ∧ s.alloc.marks = live h ∧
    Holds observe SlotEvent.Sound ∅ h) ?_ ?_
  · rintro s rfl
    obtain ⟨hv, hm⟩ := slotAllocInit_spec hok hr hlow
    exact ⟨hv, Set.ext fun x => iff_of_false (hm x) (Set.notMem_empty x), trivial⟩
  · rintro s h es _ ⟨hv, hm, hsound⟩ ⟨t, a, pc', st', hact, rfl⟩
    have href := SlotAllocState.act_refines hv hact
    refine ⟨href.valid, ?_, (holds_append _ _).2 ⟨hsound, ?_⟩⟩
    · rw [live, replay_append, ← live, ← hm]
      exact href.marks_eq
    · rw [← live, ← hm]
      exact href.sound

/-- Safety of the slot allocator. Start it on a range it accepts, which does not wrap
    around, and below the addresses of the expansions where there can be any. Then over
    every run the segments are disjoint, their counters and hints fit their bitmaps, the
    active segment exists, and the slots whose bits are set are the live ones. No live
    slot is ever handed out, and an attempt to free a slot succeeds exactly when
    the slot is live. -/
theorem slotAlloc_safe :
    s.alloc.segments.Pairwise Segment.Apart ∧
      (∀ seg ∈ s.alloc.segments, seg.used = seg.bits.card seg.count ∧ seg.allocHint ≤ seg.count) ∧
      (0 < s.alloc.segments.length → s.alloc.activeSeg < s.alloc.segments.length) ∧
      (∀ x, s.alloc.Marked x ↔ x ∈ live h) ∧
      Holds observe SlotEvent.Sound ∅ h := by
  obtain ⟨hv, hm, hsound⟩ := reaches_valid hok hr hlow hreach
  refine ⟨hv.apart, fun seg hseg => ⟨(hv.segs seg hseg).used_eq, (hv.segs seg hseg).hint_le⟩,
    fun hne => hv.active_lt (List.ne_nil_of_length_pos hne), fun x => ?_, hsound⟩
  rw [← hm]
  exact Iff.rfl

end

/-- Two threads on a range of two slots: one gets a slot, the other frees it. -/
theorem slotAlloc_safe_two_slots :
    ∃ s : SlotSystem, (slotAllocSystem 64 2 0).Reaches s [.handed 64 1, .freed 64 true] ∧
      ∀ x, s.alloc.Marked x ↔ x ∈ live [.handed 64 1, .freed 64 true] := by
  have h₀ := Lts.Reaches.init (m := slotAllocSystem 64 2 0) rfl
  have h₁ := h₀.step ⟨0, .slotAllocNoExpand, _, _, rfl, rfl⟩
  have h₂ := h₁.step ⟨1, .slotFree 64, _, _, rfl, rfl⟩
  exact ⟨_, h₂, (slotAlloc_safe (by decide) (by decide) (by decide) h₂).2.2.2.1⟩

/-- A range that wraps around is accepted. Its second slot is the slot 0, which cannot be
    freed. -/
theorem slotAlloc_wrapped :
    (slotAllocInit (2 ^ 64 - 1) 2 0).initialized = true ∧
      ∃ s : SlotSystem, (slotAllocSystem (2 ^ 64 - 1) 2 0).Reaches s
          [.handed (2 ^ 64 - 1) 1, .handed 0 1, .freed 0 false] ∧
        0 ∈ live [.handed (2 ^ 64 - 1) 1, .handed 0 1] := by
  have h₀ := Lts.Reaches.init (m := slotAllocSystem (2 ^ 64 - 1) 2 0) rfl
  have h₁ := h₀.step ⟨0, .slotAllocNoExpand, _, _, rfl, rfl⟩
  have h₂ := h₁.step ⟨0, .slotAllocNoExpand, _, _, rfl, rfl⟩
  have h₃ := h₂.step ⟨0, .slotFree 0, _, _, rfl, rfl⟩
  exact ⟨by decide, _, h₃, .inr ⟨le_rfl, Nat.one_pos⟩⟩

end Trona
