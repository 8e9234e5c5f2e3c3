import Trona.Posix.ThreadCreate

/-!
# Runs of a pool

Workers are started and exit, and are cleaned up later; threads of the POSIX layer are created and
joined. In every run, an attempt to start a worker that fails gives back exactly what it has got
if and only if nothing that its roll-back takes on trust was in use (`spawnWorker_restores_iff`).
The slots and pages that a descriptor says may be those of another thread by now
(`spawnWorker_takesAnother`).
-/

namespace Trona

namespace Posix

open ThreadPool

/-! ## A call of `pthread_create` -/

/-- A call changes nothing of the pool but which pages are mapped. -/
def OnlyPages (s s' : Process) : Prop := ∃ g, s'.pool = { s.pool with res.pages := g }

instance : IsPreorder Process OnlyPages where
  refl s := ⟨s.pages, rfl⟩
  trans s s' s'' := by
    rintro ⟨g, h⟩ ⟨g', h'⟩
    exact ⟨g', by rw [h', h]⟩

/-- A call keeps what holds of the pool. -/
def KeepsSound (s s' : Process) : Prop := s.pool.Sound → s'.pool.Sound

instance : IsPreorder Process KeepsSound where
  refl _ := id
  trans _ _ _ h h' := h' ∘ h

theorem OnlyPages.keepsSound {s s' : Process} (h : OnlyPages s s') : KeepsSound s s' := by
  obtain ⟨g, h⟩ := h
  intro hs
  rw [h]
  exact ⟨hs.caps_subset, hs.consecutive⟩

/-- The servers map and unmap pages, and do nothing else with the pool. -/
theorem onlyPages_ipcCallRetry {κ : Type} {srv : Server κ Process} {msg : Msg}
    (h : ∀ c s, OnlyPages s (srv c msg s).2) (o : Retried κ) :
    Within OnlyPages (ipcCallRetry srv msg o) := by
  intro s
  rw [ipcCallRetry_eq]
  cases o.last with
  | restart => exact wp_callCtx_restart.2 (refl_of OnlyPages s)
  | interrupted c lastRestart => exact wp_callCtx_interrupted.2 (h c s)
  | failed e => exact wp_callCtx_failed.2 (refl_of OnlyPages s)
  | answered c => exact wp_callCtx_answered.2 (h c s)

namespace ThreadCall

variable (i : ThreadCall) {k base slot : ℕ}

theorem onlyPages_posixMmap : Within OnlyPages i.posixMmap := by
  refine .ite (fun _ => .pure) fun _ =>
    .bind (onlyPages_ipcCallRetry (fun choice s => ?_) _) fun _ => .pure
  rw [mmMmap]
  split
  · exact ⟨_, rfl⟩
  · exact refl_of OnlyPages s

theorem onlyPages_posixMunmap : Within OnlyPages (i.posixMunmap base) := by
  refine .ite (fun _ => .pure) fun _ =>
    .bind (onlyPages_ipcCallRetry (fun choice s => ?_) _) fun _ => .pure
  rw [mmMunmap]
  split
  · exact ⟨_, rfl⟩
  · exact refl_of OnlyPages s

theorem onlyPages_posixPrefault : Within OnlyPages (i.posixPrefault base) :=
  .ite (fun _ => .pure) fun _ =>
    .bind (onlyPages_ipcCallRetry (fun _ s => refl_of OnlyPages s) _) fun _ => .pure

theorem keepsSound_giveBack : Within KeepsSound (i.giveBack k base) :=
  .bind (i.onlyPages_posixMunmap.mono fun _ _ h => h.keepsSound) fun _ =>
    .bind (.modify fun _ h => h.abandon) fun _ => .pure

theorem keepsSound_createThread {s : Process} (hslot : slot ∈ s.pool.res.slots) :
    wp (i.createThread k base slot) (fun _ => KeepsSound s) (fun _ => KeepsSound s) s := by
  have hserver : ∀ choice msg s, OnlyPages s (pmThreadCreate choice msg s).2 := by
    intro choice msg s
    rw [pmThreadCreate]
    split
    · exact ⟨_, rfl⟩
    · exact refl_of OnlyPages s
  rw [createThread, wp_bind, wp_get, wp_bind]
  refine wp_mono (onlyPages_ipcCallRetry (hserver · _) i.create s) (fun r s' hs' => ?_)
    fun _ s' hs' => hs'.keepsSound
  have hsound := hs'.keepsSound
  obtain ⟨g, hpool⟩ := hs'
  refine wp_ite.2 ⟨fun _ => wp_bind.2 (wp_modify.2 ?_), fun _ => wp_bind.2 (wp_modify.2 ?_)⟩
  · exact wp_mono (i.keepsSound_giveBack _) (fun _ _ h hs => h (hsound hs).dropSlot)
      fun _ _ h hs => h (hsound hs).dropSlot
  · exact wp_pure.2 fun hs => (hsound hs).publish (by rw [hpool]; exact hslot)

theorem keepsSound_createOnStack : Within KeepsSound (i.createOnStack k base) := by
  refine .bind (i.onlyPages_posixPrefault.mono fun _ _ h => h.keepsSound) fun err =>
    .ite (fun _ => i.keepsSound_giveBack) fun _ =>
      .bind (.modify fun _ h => h.giveIpcBuffer) fun _ => .bind .get fun s => ?_
  split
  · exact i.keepsSound_giveBack
  · rename_i slot _
    intro s
    rw [wp_bind, wp_modify]
    have hmem : slot ∈ (s.onPool (·.takeSlot slot)).pool.res.slots :=
      Finset.mem_union_right _ (Finset.mem_image.2 ⟨0, by simp, rfl⟩)
    exact wp_mono (i.keepsSound_createThread hmem) (fun _ _ h hs => h hs.takeSlot)
      fun _ _ h hs => h hs.takeSlot

theorem keepsSound_pthreadCreate : Within KeepsSound i.pthreadCreate := by
  refine .bind .get fun s => ?_
  split
  · exact .pure
  · refine .bind (.modify fun _ h => h.takeDesc) fun _ =>
      .bind (i.onlyPages_posixMmap.mono fun _ _ h => h.keepsSound) fun base =>
        .ite (fun _ => .bind (.modify fun _ h => h.abandon) fun _ => .pure) fun _ => ?_
    exact .bind (.modify fun _ h => h.giveStack) fun _ => i.keepsSound_createOnStack

end ThreadCall

end Posix

/-! ## Runs -/

namespace ThreadPool

open Posix

/-- The pool after a call of `pthread_create`. -/
def Pool.afterCreate (p : Pool) (i : ThreadCall) (threads : Finset ℕ) : Pool :=
  match i.pthreadCreate.run ⟨p, threads⟩ with
  | .ok _ s | .error _ s => s.pool

theorem Pool.Sound.afterCreate {p : Pool} (h : p.Sound) (i : ThreadCall) (threads : Finset ℕ) :
    (p.afterCreate i threads).Sound := by
  have hwp := i.keepsSound_pthreadCreate ⟨p, threads⟩
  rw [Pool.afterCreate]
  cases hrun : i.pthreadCreate.run ⟨p, threads⟩ with
  | ok r s => exact wp_ok hwp hrun h
  | error e s => exact wp_error hwp hrun h

/-- What happens to the pool. -/
inductive PoolInput
  | spawn (i : SpawnInput)
  /-- A worker exits. -/
  | exit (k : ℕ)
  /-- `reap_exited_workers` finds a worker that has exited. -/
  | reap (k : ℕ)
  /-- `pthread_create` is called, when there are threads with some numbers. -/
  | create (i : ThreadCall) (threads : Finset ℕ)
  | join (k : ℕ)

/-- A step of the process. -/
def Pool.step (p : Pool) : PoolInput → Option (Pool × List FailedSpawn)
  | .spawn i =>
    match p.spawnWorker i with
    | (p', none) => some (p', [])
    | (p', some (e, held)) => some (p', [⟨p, i, e, held, p'.res⟩])
  | .exit k =>
    if (p.descs k).state = .running ∧ (p.descs k).owner = .worker ∧ k ≠ 0 then
      some (p.setDesc k { p.descs k with state := .exited }, [])
    else none
  | .reap k =>
    if (p.descs k).state = .exited ∧ (p.descs k).owner = .worker then
      some (p.cleanupThread k, [])
    else none
  | .create i threads => some (p.afterCreate i threads, [])
  | .join k =>
    if (p.descs k).owner = .personality ∧ (p.descs k).state = .running ∧ (p.descs k).tid ≠ 0 then
      some (p.pthreadJoin k, [])
    else none

/-- All runs of a process. -/
def poolSystem (res : Holdings) : Lts Pool FailedSpawn :=
  .ofInputs (.start res) Pool.step fun _ _ => True

variable {p p' : Pool}

theorem Pool.Sound.step (hp : p.Sound) {input : PoolInput} {es : List FailedSpawn}
    (h : p.step input = some (p', es)) :
    p'.Sound ∧ ∀ e ∈ es, e.released = e.acquired ↔ e.Clean := by
  cases input with
  | spawn i =>
    have hspawned := p.spawnWorker_spawned i
    rw [Pool.step] at h
    rcases hresult : p.spawnWorker i with ⟨q, _ | ⟨e, held⟩⟩
    · rw [hresult] at h hspawned
      obtain ⟨rfl, rfl⟩ := step_inj h
      exact ⟨hspawned.sound hp, by simp⟩
    · rw [hresult] at h hspawned
      obtain ⟨rfl, rfl⟩ := step_inj h
      refine ⟨hspawned.sound hp, ?_⟩
      rw [List.forall_mem_singleton]
      exact Spawned.released_iff hspawned rfl hp
  | exit k =>
    obtain ⟨-, rfl, rfl⟩ := guarded_inj h
    exact ⟨hp.setDesc (hp.consecutive k), by simp⟩
  | reap k =>
    obtain ⟨-, rfl, rfl⟩ := guarded_inj h
    exact ⟨hp.cleanupThread, by simp⟩
  | create i threads =>
    obtain ⟨rfl, rfl⟩ := step_inj h
    exact ⟨hp.afterCreate i threads, by simp⟩
  | join k =>
    obtain ⟨-, rfl, rfl⟩ := guarded_inj h
    exact ⟨hp.pthreadJoin, by simp⟩

theorem Pool.sound_start (res : Holdings) : (Pool.start res).Sound := by
  refine ⟨res.caps_subset, fun k => .inl ?_⟩
  rw [Pool.start]
  dsimp only
  split <;> exact ⟨rfl, rfl, rfl⟩

/-- In every run, an attempt that fails gives back exactly what it has got if and only if nothing
    that its roll-back takes on trust was in use before it. -/
theorem spawnWorker_restores_iff {res : Holdings} {p : Pool} {history : List FailedSpawn}
    (h : (poolSystem res).Reaches p history) {e : FailedSpawn} (he : e ∈ history) :
    e.released = e.acquired ↔ e.Clean := by
  let I : Pool → List FailedSpawn → Prop := fun p history =>
    p.Sound ∧ ∀ e ∈ history, e.released = e.acquired ↔ e.Clean
  have hrun : I p history := by
    refine h.invariant (P := I) ?_ ?_
    · rintro p rfl
      exact ⟨Pool.sound_start res, by simp⟩
    · rintro p history es p' ⟨hp, hhistory⟩ ⟨input, -, hstep⟩
      obtain ⟨hp', hes⟩ := hp.step hstep
      exact ⟨hp', List.forall_mem_append.2 ⟨hhistory, hes⟩⟩
  exact hrun.2 e he

/-- One page of stack, slots from three numbers on, and a kernel that is willing but for a call. -/
def spawnOnce (objects stack tls : ℕ) (unwilling : Option SpawnCall) : SpawnInput where
  stackPages := 1
  tlsSize := 0
  slots
    | .objectSlots => some objects
    | .stackSlots => some stack
    | .tlsSlots => some tls
    | _ => none
  err c := if unwilling = some c then -1 else 0

/-- The first attempt in a process, with a kernel that has no frame left for the stack. -/
theorem spawnWorker_restores_firstAttempt :
    ∃ (p : Pool) (history : List FailedSpawn), (poolSystem noHoldings).Reaches p history ∧
      ∃ e ∈ history,
        e.acquired = ⟨{10, 11, 12, 13}, {10, 11, 12}, ∅⟩ ∧ e.released = e.acquired := by
  let run := (Lts.feed Pool.step (fun _ _ => True)
    [.spawn (spawnOnce 10 13 14 (some (.retypeStack 0)))]
    (Pool.start noHoldings, [])).get (by decide +kernel)
  have hreaches : (poolSystem noHoldings).Reaches run.1 run.2 :=
    Lts.reaches_feed (.init rfl) (Option.some_get _).symm
  have hclean : ∃ e ∈ run.2, e.acquired = ⟨{10, 11, 12, 13}, {10, 11, 12}, ∅⟩ ∧ e.Clean := by
    decide +kernel
  obtain ⟨e, he, hacquired, hclean⟩ := hclean
  exact ⟨run.1, run.2, hreaches, e, he, hacquired, (spawnWorker_restores_iff hreaches he).2 hclean⟩

/-- While the first descriptor is that of a thread, an attempt with the second one fails at its end.
    The thread is joined, and a worker with the first descriptor gets the slots, 14 for a frame. The
    next attempt with the second descriptor fails early, and takes that frame from the worker. -/
theorem spawnWorker_takesAnother :
    ∃ (p : Pool) (history : List FailedSpawn), (poolSystem noHoldings).Reaches p history ∧
      ∃ e ∈ history, e.released ≠ e.acquired ∧ e.acquired = ⟨{15, 16, 17}, ∅, ∅⟩ ∧
        (e.before.descs 1).state = .running ∧ (e.before.descs 1).tlsFrameBase = 14 ∧
        14 ∈ e.released.slots ∧ 14 ∈ e.released.caps := by
  let run := (Lts.feed Pool.step (fun _ _ => True)
    [.create (ThreadCall.smallCall (ThreadCall.answered (some 1))) ∅,
      .spawn (spawnOnce 11 14 15 (some .resume)),
      .join 1,
      .spawn (spawnOnce 10 13 14 none),
      .spawn (spawnOnce 15 18 19 (some .retypeTcb))]
    (Pool.start noHoldings, [])).get (by decide +kernel)
  have hreaches : (poolSystem noHoldings).Reaches run.1 run.2 :=
    Lts.reaches_feed (.init rfl) (Option.some_get _).symm
  exact ⟨run.1, run.2, hreaches, by decide +kernel⟩

end ThreadPool

end Trona
