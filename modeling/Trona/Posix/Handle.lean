import Trona.Posix.ThreadLife

/-!
# Handles

A handle of `pthread_create` is the index of an entry with the low half of its generation, and
`validate_handle` (`posix/pthread.rs`) compares the two. The generation grows when a thread is
joined, and when a worker gets the entry (`substrate/tls.rs`, `substrate/worker.rs`).

A handle is accepted only as long as its thread has the entry, and never after it was joined, if

* `pthread_create` returns before its thread is joined: it reads the generation last, and a thread
  that is joined by another one that has its handle from `pthread_self` has got a new one by then;
* no handle with the same index and the same sixteen bits of the generation was returned before,
  when an entry gets a new generation or a new owner.

These are also necessary (`handles_sound_iff`, `handle_of_joined`).
-/

namespace Trona

namespace Posix

namespace ThreadLife

open ThreadPool

/-! ## Workers -/

/-- What can happen, with workers. -/
inductive PoolStep
  | posix (i : Input)
  /-- `alloc_thread_desc` gets an entry, and `spawn_worker` sets its owner. -/
  | spawn (i : ℕ)
  | own (i : ℕ)
  /-- `spawn_worker` fails after that. -/
  | spawnFail (i : ℕ)
  | workerExit (i : ℕ)
  /-- `reap_exited_workers` finds a worker that has exited. -/
  | reap (i : ℕ)

namespace State

variable (s : State)

/-- `alloc_thread_desc`, at the entry that it ends with. -/
def alloc (i : ℕ) : State :=
  { s.setEntry i (s.entry i).alloc with spawning := insert i s.spawning }

def own (i : ℕ) : State :=
  { s.setEntry i { s.entry i with owner := .worker } with spawning := s.spawning.erase i }

/-- There is a worker at an entry. -/
def IsWorker (i : ℕ) : Prop := (s.entry i).owner = .worker ∧ i ∉ s.spawning

instance (i : ℕ) : Decidable (s.IsWorker i) := inferInstanceAs (Decidable (_ ∧ _))

/-- A step of the process, with its workers. -/
def poolStep : PoolStep → Option (State × List Event)
  | .posix i => s.step i
  | .spawn i =>
    if i < maxThreads ∧ (s.entry i).state = .unused then some (s.alloc i, []) else none
  | .own i => if i ∈ s.spawning then some (s.own i, []) else none
  | .spawnFail i =>
    if s.IsWorker i ∧ (s.entry i).state = .running then
      some (s.setEntry i { s.entry i with state := .unused }, [])
    else none
  | .workerExit i =>
    if s.IsWorker i ∧ (s.entry i).state = .running then
      some (s.setEntry i { s.entry i with state := .exited }, [])
    else none
  | .reap i =>
    if s.IsWorker i ∧ (s.entry i).state = .exited then
      some (s.setEntry i (s.entry i).free, [])
    else none

/-! ## Handles and threads -/

/-- A handle that was returned is accepted only for the entry that its thread has, and not when the
    thread was joined. -/
structure Sound : Prop where
  occupies : ∀ a ∈ s.issued, ∀ i ∈ s.validateHandle a.handle, s.Occupies a.thread i
  rejected : ∀ a ∈ s.issued, (s.thread a.thread).life = .joined → s.validateHandle a.handle = none

/-- No handle was returned with an index and a generation. -/
def Unissued (i generation : ℕ) : Prop := ∀ a ∈ s.issued, a.handle ≠ encodeHandle i generation

instance (i generation : ℕ) : Decidable (s.Unissued i generation) :=
  inferInstanceAs (Decidable (∀ a ∈ s.issued, _))

/-- `pthread_create` returns a handle to a thread that is not joined, and what is accepted from now
    on was not returned before. -/
def Fresh : PoolStep → Prop
  | .posix (.ret n) =>
    (s.entry (s.thread n).entry).owner = .personality → (s.thread n).life ≠ .joined
  | .posix (.joinFinish n) =>
    s.Unissued (s.thread n).entry (((s.entry (s.thread n).entry).generation + 1) % 2 ^ 32)
  | .posix (.look c) => ∀ scan ∈ s.scans[c]?, ∀ i ∈ scan.order.head?,
      (s.entry i).state = .unused → s.Unissued i (s.entry i).generation
  | .spawn i => (s.entry i).owner = .personality →
      s.Unissued i (((s.entry i).generation + 1) % 2 ^ 32)
  | _ => True

instance : (i : PoolStep) → Decidable (s.Fresh i)
  | .posix (.ret n) =>
    inferInstanceAs (Decidable ((s.entry (s.thread n).entry).owner = .personality → _))
  | .posix (.joinFinish n) => inferInstanceAs (Decidable (s.Unissued (s.thread n).entry _))
  | .posix (.look c) => inferInstanceAs (Decidable (∀ scan ∈ s.scans[c]?, _))
  | .spawn i => inferInstanceAs (Decidable ((s.entry i).owner = .personality → _))
  | .posix (.enter _) | .posix (.fail _) | .posix (.lose _ _) | .posix (.publish _ _)
  | .posix (.exit _) | .posix (.join _ _) | .posix (.joinReply _ _) | .posix (.detach _ _)
  | .own _ | .spawnFail _ | .workerExit _ | .reap _ => inferInstanceAs (Decidable True)

end State

/-- All runs of a process with workers in which each step is as required. -/
def handleSystem : Lts State Event := .ofInputs .start State.poolStep State.Fresh

/-! ## What is accepted -/

section

variable {s s' : State} {i j n : ℕ}

/-- A handle with nothing above its two halves is accepted for the entry that it was made of. -/
theorem mem_validateHandle_iff {h : ℕ} (hlt : h < 2 ^ 32) :
    i ∈ s.validateHandle h ↔
      i < maxThreads ∧ h = encodeHandle i (s.entry i).generation ∧
        (s.entry i).owner = .personality := by
  have hnull : h ≠ pthreadNull := by
    rw [pthreadNull]
    omega
  rw [State.validateHandle, decodeHandle, encodeHandle]
  by_cases hmax : h % 2 ^ 16 ≥ maxThreads
  · -- No entry has such an index.
    rw [if_pos (.inr hmax)]
    refine iff_of_false (by simp) ?_
    rintro ⟨hi, heq, -⟩
    omega
  · rw [if_neg (not_or.2 ⟨hnull, hmax⟩)]
    simp only [Option.bind_eq_bind, Option.bind_some, ne_eq, ite_not, Option.mem_def]
    constructor
    · intro hsome
      obtain ⟨hgen, hsome⟩ := Option.ite_none_right_eq_some.1 hsome
      obtain ⟨howner, hsome⟩ := Option.ite_none_right_eq_some.1 hsome
      obtain rfl := Option.some.inj hsome
      exact ⟨not_le.1 hmax, by omega, howner⟩
    · rintro ⟨hi, heq, howner⟩
      rw [maxThreads] at hi
      have hindex : h % 2 ^ 16 = i := by omega
      rw [hindex, if_pos (by omega), if_pos howner]

/-- The first half of soundness is enough. -/
theorem State.Sound.of_occupies
    (h : ∀ a ∈ s.issued, ∀ i ∈ s.validateHandle a.handle, s.Occupies a.thread i) : s.Sound where
  occupies := h
  rejected a ha hjoined :=
    Option.eq_none_iff_forall_not_mem.2 fun i hi => (h a ha i hi).2.1 hjoined

/-- Handles stay sound if no more is accepted and the threads keep their entries. -/
theorem State.Sound.keep (h : s.Sound) (hlt : ∀ a ∈ s.issued, a.handle < 2 ^ 32)
    (hissued : s'.issued = s.issued)
    (hentry : ∀ j, (s'.entry j).owner = .personality →
      (s'.entry j).generation = (s.entry j).generation ∧ (s.entry j).owner = .personality)
    (hocc : ∀ n j, s.Occupies n j → s'.Occupies n j) : s'.Sound := by
  refine .of_occupies fun a ha j hj => ?_
  rw [hissued] at ha
  obtain ⟨hmax, hhandle, howner⟩ := (mem_validateHandle_iff (hlt a ha)).1 hj
  obtain ⟨hgen, howner⟩ := hentry j howner
  rw [hgen] at hhandle
  exact hocc _ j (h.occupies a ha j ((mem_validateHandle_iff (hlt a ha)).2 ⟨hmax, hhandle, howner⟩))

end

/-! ## Steps and runs -/

section

variable {s s' : State} {i n tid : ℕ} {t : Thread} {e : Entry} {es : List Event}

theorem handle_setEntry (he : e.owner = .personality →
      e.generation = (s.entry i).generation ∧ (s.entry i).owner = .personality) (j : ℕ) :
    ((s.setEntry i e).entry j).owner = .personality →
      ((s.setEntry i e).entry j).generation = (s.entry j).generation ∧
        (s.entry j).owner = .personality :=
  State.forall_setEntry (p := fun j e => e.owner = .personality →
    e.generation = (s.entry j).generation ∧ (s.entry j).owner = .personality) he
    (fun _ _ howner => ⟨rfl, howner⟩) j

/-- A thread changes and keeps its entry. -/
theorem occupies_setThread (hentry : t.entry = (s.thread n).entry)
    (hlife : t.life ≠ .joined ∧ t.life ≠ .stray) {m j : ℕ} (h : s.Occupies m j) :
    (s.setThread n t).Occupies m j :=
  State.forall_setThread (p := fun m t => s.Occupies m j → t.Has j)
    (fun hn => ⟨hentry.trans hn.1, hlife⟩) (fun _ _ hm => hm) m h

theorem occupies_detachThread
    (hlife : (s.thread n).life = .running ∨ (s.thread n).life = .exited) {m j : ℕ}
    (h : s.Occupies m j) : (s.detachThread n).Occupies m j := by
  refine occupies_setThread ?_ ?_ h
  · rfl
  · rcases hlife with hlife | hlife <;> simp [hlife]

/-- The other threads keep their entries when there is a new one. -/
theorem Shape.occupies_make (h : Shape s) (htid : tid ∉ s.made) {l : Life} {m j : ℕ}
    (hocc : s.Occupies m j) : (s.make i tid l).Occupies m j :=
  ThreadLife.occupies_make.2 (.inr ⟨fun heq => htid (heq ▸ h.mem_made hocc), hocc⟩)

/-- A run stays in order: where the entries are, and what is accepted. -/
structure Ordered (s : State) : Prop where
  shape : Shape s
  sound : s.Sound

/-- When an entry that no thread has gets its generation and the POSIX layer for its owner, handles
    are sound if and only if none was returned with this generation. -/
theorem sound_iff_unissued (hlt : ∀ a ∈ s.issued, a.handle < 2 ^ 32)
    (hissued : s'.issued = s.issued) (hentry : s'.entry = Function.update s.entry i e)
    (hthread : s'.thread = s.thread)
    (hothers : ∀ a ∈ s.issued, ∀ j ≠ i, j ∈ s.validateHandle a.handle → s.Occupies a.thread j)
    (hfree : ∀ n, ¬s.Occupies n i) (hmax : i < maxThreads) (howner : e.owner = .personality) :
    s'.Sound ↔ s.Unissued i e.generation := by
  have hocc (n j : ℕ) : s'.Occupies n j ↔ s.Occupies n j := by
    rw [State.Occupies, hthread]
    rfl
  have hself : s'.entry i = e := by rw [hentry, Function.update_self]
  constructor
  · intro h a ha heq
    have hmem : i ∈ s'.validateHandle a.handle :=
      (mem_validateHandle_iff (hlt a ha)).2 ⟨hmax, hself.symm ▸ heq, hself.symm ▸ howner⟩
    -- A handle with this generation would be accepted for an entry that its thread has not.
    exact hfree _ ((hocc _ i).1 (h.occupies a (hissued.symm ▸ ha) i hmem))
  · refine fun h => .of_occupies fun a ha j hj => (hocc _ j).2 ?_
    rw [hissued] at ha
    obtain ⟨hj, heq, howner'⟩ := (mem_validateHandle_iff (hlt a ha)).1 hj
    rcases eq_or_ne j i with rfl | hji
    · rw [hself] at heq
      exact absurd heq (h a ha)
    · rw [hentry, Function.update_of_ne hji] at heq howner'
      exact hothers a ha j hji ((mem_validateHandle_iff (hlt a ha)).2 ⟨hj, heq, howner'⟩)

theorem Ordered.sound_claim_iff (h : Ordered s) {d : Bool} (hi : i < maxThreads)
    (hstate : (s.entry i).state = .unused) :
    (s.claim i d).Sound ↔ s.Unissued i (s.entry i).generation :=
  sound_iff_unissued (e := (s.entry i).claim d) h.shape.handles rfl rfl rfl
    (fun a ha j _ => h.sound.occupies a ha j) (fun _ => h.shape.not_occupies_of_unused hstate)
    hi rfl

/-- A worker gets an entry. -/
theorem Shape.alloc (h : Shape s) (hstate : (s.entry i).state = .unused) : Shape (s.alloc i) :=
  h.setEntry (k := s.hint) (c := s.creating)
    (fun _ hn => absurd hn (h.not_occupies_of_unused hstate))
    (fun _ hj _ => hj) (fun hmem => absurd hstate (h.creating i hmem).used)
    (fun _ hj hji => Finset.mem_of_mem_insert_of_ne hj hji)
    (fun _ => by simp [Entry.alloc]) (h.tids i)

theorem Ordered.sound_alloc_iff (h : Ordered s) (hi : i < maxThreads)
    (hstate : (s.entry i).state = .unused) :
    (s.alloc i).Sound ↔ s.Fresh (.spawn i) := by
  by_cases howner : (s.entry i).owner = .personality
  · rw [State.Fresh, imp_iff_right howner]
    exact sound_iff_unissued (e := (s.entry i).alloc) h.shape.handles rfl rfl rfl
      (fun a ha j _ => h.sound.occupies a ha j) (fun _ => h.shape.not_occupies_of_unused hstate)
      hi howner
  · refine iff_of_true ?_ fun hp => absurd hp howner
    refine h.sound.keep h.shape.handles rfl (handle_setEntry fun hp => ?_) fun _ _ => id
    exact absurd hp howner

theorem Ordered.own (h : Ordered s) (hi : i ∈ s.spawning) : Ordered (s.own i) where
  shape :=
    have hno (htaken : Taken (s.entry i) s.spawning i) : False := htaken.not_spawning hi
    h.shape.setEntry (k := s.hint) (c := s.creating)
      (fun n hocc => (hno (h.shape.occupied n i hocc).1).elim) (fun _ hj _ => hj)
      (fun hmem => (hno (h.shape.creating i hmem)).elim)
      (fun _ hj _ => Finset.mem_of_mem_erase hj)
      (fun hmem => absurd hmem (Finset.notMem_erase i _)) (h.shape.tids i)
  sound := h.sound.keep h.shape.handles rfl (handle_setEntry fun hp => ThreadOwner.noConfusion hp)
    fun _ _ => id

/-- Something happens at an entry that has a worker. -/
theorem Shape.worker (h : Shape s) (hi : s.IsWorker i) (htid : e.tid = (s.entry i).tid) :
    Shape (s.setEntry i e) := by
  have hno (htaken : Taken (s.entry i) s.spawning i) : False := by
    have howner := htaken.owner
    rw [hi.1] at howner
    cases howner
  exact h.setEntry (k := s.hint) (c := s.creating) (w := s.spawning)
    (fun n hocc => (hno (h.occupied n i hocc).1).elim) (fun _ hj _ => hj)
    (fun hmem => (hno (h.creating i hmem)).elim) (fun _ hj _ => hj)
    (fun hmem => absurd hmem hi.2) (htid ▸ h.tids i)

/-- `pthread_join` puts the entry of its thread back. -/
theorem Ordered.sound_joinFinish_iff (h : Ordered s) (hlife : (s.thread n).life = .joining i) :
    ((s.setLife n .joined).recycle i).Sound ↔ s.Fresh (.posix (.joinFinish n)) := by
  have hn := h.shape.occupies_of_joining hlife
  obtain ⟨htaken, -⟩ := h.shape.occupied n i hn
  rw [State.Fresh, hn.1]
  refine sound_iff_unissued (s := s.setLife n .joined) (e := (s.entry i).recycle) h.shape.handles
    rfl rfl rfl (fun a ha j hj hmem => ?_) (h.shape.joinFinish hlife).2 htaken.lt_max htaken.owner
  -- the other threads keep their entries
  have hocc := h.sound.occupies a ha j hmem
  have hne : a.thread ≠ n := fun heq => hj (hocc.1.symm.trans (heq.symm ▸ hn.1))
  rwa [State.Occupies, State.setLife, State.setThread_of_ne s _ hne]

theorem encodeHandle_inj {j generation generation' : ℕ} (hi : i < maxThreads) (hj : j < maxThreads)
    (h : encodeHandle i generation = encodeHandle j generation') : i = j := by
  rw [encodeHandle, encodeHandle] at h
  rw [maxThreads] at hi hj
  omega

/-- `pthread_create` returns a handle. -/
theorem Ordered.sound_giveHandle_iff (h : Ordered s) (hn : n ∈ s.made)
    (hlife : (s.thread n).life ≠ .stray) :
    (s.giveHandle n).Sound ↔ s.Fresh (.posix (.ret n)) := by
  have hmax := h.shape.threads n hn
  have hlt := encodeHandle_lt (s.thread n).entry (s.entry (s.thread n).entry).generation
  have hocc (m j : ℕ) : (s.giveHandle n).Occupies m j ↔ s.Occupies m j :=
    State.forall_setThread (t := { s.thread n with returned := true })
      (p := fun m t => t.Has j ↔ s.Occupies m j) Iff.rfl (fun _ _ => Iff.rfl) m
  refine ⟨fun hsound howner => ?_, fun hfresh => ?_⟩
  · have hmem : (s.thread n).entry ∈ (s.giveHandle n).validateHandle
        (encodeHandle (s.thread n).entry (s.entry (s.thread n).entry).generation) :=
      (mem_validateHandle_iff hlt).2 ⟨hmax, rfl, howner⟩
    exact ((hocc n _).1 (hsound.occupies _ List.mem_cons_self _ hmem)).2.1
  · refine .of_occupies fun a ha j hj => (hocc _ j).2 ?_
    rcases List.mem_cons.1 ha with rfl | ha
    · -- The new handle is accepted for its own entry only.
      obtain ⟨hj, heq, howner⟩ := (mem_validateHandle_iff hlt).1 hj
      obtain rfl := encodeHandle_inj hmax hj heq
      exact ⟨rfl, hfresh howner, hlife⟩
    · exact h.sound.occupies a ha j hj

/-- A step of the functions of the POSIX layer. -/
theorem Ordered.move (h : Ordered s) {i : Input} (hmove : Move s i s' es) :
    Shape s' ∧ (s'.Sound ↔ s.Fresh (.posix i)) := by
  refine ⟨h.shape.move hmove, ?_⟩
  have hlt := h.shape.handles
  have hcalls {scans : List Scan} {joins : List Join} :
      State.Sound { s with scans := scans, joins := joins } :=
    ⟨h.sound.occupies, h.sound.rejected⟩
  -- the step gives nobody an entry, a generation or a handle
  have hkeep {s' : State} (hissued : s'.issued = s.issued)
      (hentry : ∀ j, (s'.entry j).owner = .personality →
        (s'.entry j).generation = (s.entry j).generation ∧ (s.entry j).owner = .personality)
      (hocc : ∀ n j, s.Occupies n j → s'.Occupies n j) : s'.Sound ↔ True :=
    iff_of_true (h.sound.keep hlt hissued hentry hocc) trivial
  cases hmove with
  | @claim c i rest d hscan hstate =>
    have hmax := h.shape.scans _ (List.mem_of_getElem? hscan) i List.mem_cons_self
    have hfresh : s.Fresh (.posix (.look c)) ↔ s.Unissued i (s.entry i).generation := by
      simp [State.Fresh, hscan, hstate]
    refine (Iff.trans ?_ (h.sound_claim_iff (d := d) hmax hstate)).trans hfresh.symm
    exact ⟨fun hs => ⟨hs.occupies, hs.rejected⟩, fun hs => ⟨hs.occupies, hs.rejected⟩⟩
  | full hscan hstate | pass hscan hstate =>
    exact iff_of_true hcalls (by simp [State.Fresh, hscan, hstate])
  | fail => exact hkeep rfl (handle_setEntry fun hp => ⟨rfl, hp⟩) fun _ _ => id
  | lose hi htid =>
    exact hkeep rfl (handle_setEntry fun hp => ⟨rfl, hp⟩) fun _ _ => h.shape.occupies_make htid.2
  | publish hi htid =>
    exact hkeep rfl (handle_setEntry fun hp => ⟨rfl, hp⟩) fun _ _ => h.shape.occupies_make htid.2
  | ret hn hlife => exact h.sound_giveHandle_iff hn hlife
  | exit =>
    rw [State.hearExit]
    split
    · refine hkeep rfl (fun _ hp => ⟨rfl, hp⟩) fun _ _ => occupies_setThread ?_ ?_
      · rfl
      · dsimp only
        split <;> simp
    · exact iff_of_true h.sound trivial
  | replyOk | replyLost =>
    refine hkeep rfl (fun _ hp => ⟨rfl, hp⟩) fun _ _ => occupies_setThread ?_ ?_
    · rfl
    · simp
  | joinFinish hlife => exact h.sound_joinFinish_iff hlife
  | detachOk hi hasks hlife =>
    exact hkeep rfl (handle_setEntry fun hp => ⟨rfl, hp⟩) fun _ _ => occupies_detachThread hlife
  | detachLost hi hasks hlife =>
    exact hkeep rfl (fun _ hp => ⟨rfl, hp⟩) fun _ _ => occupies_detachThread hlife
  | enter | joinWait | replyError => exact iff_of_true hcalls trivial
  | joinError | detachError => exact iff_of_true h.sound trivial

/-- A step of the process. -/
theorem Ordered.poolStep (h : Ordered s) {i : PoolStep} (hstep : s.poolStep i = some (s', es)) :
    Shape s' ∧ (s'.Sound ↔ s.Fresh i) := by
  cases i with
  | posix i => exact h.move (move_of_step hstep)
  | spawn i =>
    obtain ⟨⟨hi, hstate⟩, rfl, rfl⟩ := guarded_inj hstep
    exact ⟨h.shape.alloc hstate, h.sound_alloc_iff hi hstate⟩
  | own i =>
    obtain ⟨hi, rfl, rfl⟩ := guarded_inj hstep
    exact ⟨(h.own hi).shape, iff_of_true (h.own hi).sound trivial⟩
  | spawnFail i | workerExit i | reap i =>
    obtain ⟨⟨hi, hstate⟩, rfl, rfl⟩ := guarded_inj hstep
    refine ⟨h.shape.worker hi rfl, iff_of_true ?_ trivial⟩
    exact h.sound.keep h.shape.handles rfl (handle_setEntry fun hp => ⟨rfl, hp⟩) fun _ _ => id

theorem joined_setThread (ht : (s.thread n).life = .joined → t.life = .joined) {m : ℕ}
    (hm : (s.thread m).life = .joined) : ((s.setThread n t).thread m).life = .joined :=
  State.forall_setThread (p := fun m t => (s.thread m).life = .joined → t.life = .joined) ht
    (fun _ _ hm => hm) m hm

/-- A thread that is joined stays so. -/
theorem joined_move {i : Input} (hmove : Move s i s' es) (hn : n ∈ s.made)
    (hjoined : (s.thread n).life = .joined) : n ∈ s'.made ∧ (s'.thread n).life = .joined := by
  have hmake {k tid : ℕ} {l : Life} (htid : s.NewTid tid) :
      n ∈ insert tid s.made ∧ ((s.make k tid l).thread n).life = .joined := by
    have hne : n ≠ tid := fun heq => htid.2 (heq ▸ hn)
    refine ⟨Finset.mem_insert_of_mem hn, ?_⟩
    exact (congrArg Thread.life (s.setThread_of_ne _ hne)).trans hjoined
  cases hmove with
  | lose hi htid | publish hi htid => exact hmake htid
  | @ret m =>
    exact ⟨hn, joined_setThread (t := { s.thread m with returned := true }) (fun h => h) hjoined⟩
  | exit =>
    -- The thread whose exit is heard runs.
    rw [State.hearExit]
    split
    case isTrue hrunning =>
      refine ⟨hn, joined_setThread (fun h => ?_) hjoined⟩
      cases hrunning.symm.trans h
    case isFalse => exact ⟨hn, hjoined⟩
  | replyOk hj hlife | replyLost hj hlife =>
    refine ⟨hn, joined_setThread (fun h => ?_) hjoined⟩
    cases hlife.symm.trans h
  | joinFinish => exact ⟨hn, joined_setThread (fun _ => rfl) hjoined⟩
  | detachOk | detachLost =>
    refine ⟨hn, joined_setThread (fun h => ?_) hjoined⟩
    rw [if_neg (by simp [h])]
    exact h
  | enter | claim | full | pass | fail | joinError | joinWait | replyError | detachError =>
    exact ⟨hn, hjoined⟩

theorem joined_poolStep {i : PoolStep} (hstep : s.poolStep i = some (s', es)) (hn : n ∈ s.made)
    (hjoined : (s.thread n).life = .joined) : n ∈ s'.made ∧ (s'.thread n).life = .joined := by
  cases i with
  | posix i => exact joined_move (move_of_step hstep) hn hjoined
  | spawn i | own i | spawnFail i | workerExit i | reap i =>
    obtain ⟨-, rfl, rfl⟩ := guarded_inj hstep
    exact ⟨hn, hjoined⟩

theorem Ordered.of_reaches {hist : List Event} (hr : handleSystem.Reaches s hist) : Ordered s := by
  refine hr.invariant (P := fun s _ => Ordered s) ?_ ?_
  · rintro s rfl
    exact ⟨.start, .of_occupies (by simp [State.start])⟩
  · rintro s - es s' h ⟨i, hfresh, hstep⟩
    obtain ⟨hshape, hsound⟩ := h.poolStep hstep
    exact ⟨hshape, hsound.2 hfresh⟩

end

/-- In every run whose steps are fresh, a handle that `pthread_create` has returned is accepted only
    for the entry that its thread has, and not when the thread was joined. After the next step this
    holds if and only if the step is fresh. A thread that was joined stays so. -/
theorem handles_sound_iff {s s' : State} {i : PoolStep} {hist es : List Event}
    (hr : handleSystem.Reaches s hist) (hstep : s.poolStep i = some (s', es)) :
    s.Sound ∧ (s'.Sound ↔ s.Fresh i) ∧
      ∀ n ∈ s.made, (s.thread n).life = .joined → n ∈ s'.made ∧ (s'.thread n).life = .joined := by
  have h := Ordered.of_reaches hr
  exact ⟨h.sound, (h.poolStep hstep).2, fun n => joined_poolStep hstep⟩

/-- A thread is created and joined, a worker gets its entry and is reaped, and a second thread is
    created. -/
def reusedEntry : State × List Event :=
  (Lts.feed State.poolStep State.Fresh
    ([.enter false, .look 0, .publish 1 1, .ret 1, .exit 1, .join 0 (encodeHandle 1 0),
      .joinReply 0 .ok, .joinFinish 1].map .posix ++
      [.spawn 1, .own 1, .workerExit 1, .reap 1] ++
      [.enter false, .look 0, .publish 2 2].map .posix)
    (.start, [])).get (by decide +kernel)

theorem handles_sound_reusedEntry :
    reusedEntry.1.Sound ∧
      ((reusedEntry.1.giveHandle 2).Sound ↔ reusedEntry.1.Fresh (.posix (.ret 2))) ∧
      ∀ n ∈ reusedEntry.1.made, (reusedEntry.1.thread n).life = .joined →
        n ∈ reusedEntry.1.made ∧ ((reusedEntry.1.giveHandle 2).thread n).life = .joined := by
  have hret : 2 ∈ reusedEntry.1.made ∧ (reusedEntry.1.thread 2).returned = false ∧
      (reusedEntry.1.thread 2).life ≠ .stray := by decide +kernel
  have hstep : reusedEntry.1.poolStep (.posix (.ret 2)) =
      some (reusedEntry.1.giveHandle 2, [.create 0]) := by
    rw [State.poolStep, State.step, if_pos hret]
  exact handles_sound_iff (Lts.reaches_feed (.init rfl) (Option.some_get _).symm) hstep

/-- There is a thread. The main thread creates another one, which gives its handle to the first and
    exits; the first thread joins it, and only then `pthread_create` returns. -/
def lateReturn : State × List Event :=
  (Lts.feed State.poolStep (fun _ _ => True)
    ([.enter false, .look 0, .publish 1 1, .ret 1, .enter false, .look 0, .publish 2 2, .exit 2,
      .join 1 (encodeHandle 2 0), .joinReply 0 .ok, .joinFinish 2, .ret 2].map .posix)
    (.start, [])).get (by decide +kernel)

/-- The handle of a thread that was joined is accepted. -/
theorem handle_of_joined :
    (Lts.ofInputs State.start State.poolStep fun _ _ => True).Reaches lateReturn.1 lateReturn.2 ∧
      ⟨encodeHandle 2 1, 2⟩ ∈ lateReturn.1.issued ∧ (lateReturn.1.thread 2).life = .joined ∧
      lateReturn.1.validateHandle (encodeHandle 2 1) = some 2 ∧ ¬lateReturn.1.Sound := by
  have hrun : ⟨encodeHandle 2 1, 2⟩ ∈ lateReturn.1.issued ∧
      (lateReturn.1.thread 2).life = .joined ∧
      lateReturn.1.validateHandle (encodeHandle 2 1) = some 2 := by decide +kernel
  obtain ⟨hissued, hjoined, haccepted⟩ := hrun
  refine ⟨Lts.reaches_feed (.init rfl) (Option.some_get _).symm, hissued, hjoined, haccepted,
    fun hsound => ?_⟩
  cases haccepted.symm.trans (hsound.rejected _ hissued hjoined)

end ThreadLife

end Posix

end Trona
