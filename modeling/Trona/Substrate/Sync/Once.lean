import Trona.Lib.Threads

/-!
# Running a function once

`Once` (`substrate/sync.rs`): the first thread that calls `call_once` runs the function, and
the others wait on the word of the `Once`, which is also a futex, until it has returned.

Any number of threads may call, any number of times. The function runs once
(`callOnce_once`): a call returns only after the run has ended, while the run has not ended
there is a thread on the way to it that is not asleep, and after the wake-up call of the thread
that ran the function nobody is asleep any more, and every step of a caller takes it closer to
its return.
-/

namespace Trona

namespace Sync

/-- The word: `ONCE_UNINIT`, `ONCE_RUNNING` and `ONCE_COMPLETE`. -/
inductive OnceState
  | uninit
  | running
  | complete
  deriving DecidableEq

/-- The word, and how often the function has been entered and has returned. -/
structure OnceShared where
  state : OnceState
  started : ℕ
  finished : ℕ
  deriving DecidableEq

/-- The places of a thread in `call_once`. -/
inductive OnceLoc
  /-- Not in a call, and whether a call has returned. -/
  | outside (returned : Bool)
  /-- At the first load and at the exchange. -/
  | load
  | cas
  /-- At the call of the function and in it, at the store and at the futex wake after it. -/
  | enter
  | inside
  | store
  | wake
  /-- In the loop: at the load, at the futex wait, and asleep. -/
  | reload
  | block
  | asleep
  deriving DecidableEq

namespace OnceLoc

/-- The atomic operation at a place. A futex wait compares the word with `ONCE_RUNNING`, and a
    thread that is asleep may go on at any time. -/
def step (s : OnceShared) : OnceLoc → Option (OnceShared × OnceLoc)
  | load =>
    match s.state with
    | .complete => some (s, outside true)
    | .uninit => some (s, cas)
    | .running => some (s, reload)
  | cas =>
    if s.state = .uninit then some ({ s with state := .running }, enter) else some (s, reload)
  | enter => some ({ s with started := s.started + 1 }, inside)
  | inside => some ({ s with finished := s.finished + 1 }, store)
  | store => some ({ s with state := .complete }, wake)
  | reload => some (s, if s.state = .complete then outside true else block)
  | block => some (s, if s.state = .running then asleep else reload)
  | asleep => some (s, reload)
  | outside _ | wake => none

/-- The thread has won the exchange, and has not yet made its wake-up call. -/
def owns : OnceLoc → Bool
  | enter | inside | store | wake => true
  | _ => false

def inCall : OnceLoc → Bool
  | outside _ => false
  | _ => true

/-- The thread is in the function, or will come to it if no other thread does before. -/
def onWay : OnceLoc → Bool
  | load | cas | enter | inside => true
  | _ => false

/-- How many steps a caller has to make at most when the word is `ONCE_COMPLETE`. -/
def left : OnceLoc → ℕ
  | load | reload => 1
  | cas | block | asleep => 2
  | _ => 0

end OnceLoc

/-- A thread begins a call, or makes a step in one. -/
inductive OnceChoice
  | call
  | op

/-- Threads that call `call_once` on one `Once`. -/
def onceMachine (τ : Type) : Machine τ OnceShared OnceLoc OnceChoice Unit where
  next _ c s l :=
    match c, l with
    | .call, .outside _ => some (s, .load)
    | .call, _ => none
    | .op, l => l.step s
  sleeping l := if l = .asleep then some () else none
  roused l := if l = .asleep then .reload else l
  waking l := if l = .wake then some ((), .all) else none
  resumed l := if l = .wake then .outside true else l

/-- A new `Once`, and no thread has called. -/
def onceInit (τ : Type) : Config τ OnceShared OnceLoc := ⟨⟨.uninit, 0, 0⟩, fun _ => .outside false⟩

/-! ## Steps -/

/-- What the word and the counts are while a thread is in a place. -/
def OnceLoc.Fits (s : OnceShared) : OnceLoc → Prop
  | outside returned => returned → s.state = .complete
  | load | cas => True
  | enter => s = ⟨.running, 0, 0⟩
  | inside => s = ⟨.running, 1, 0⟩
  | store => s = ⟨.running, 1, 1⟩
  | wake => s.state = .complete
  | reload | block | asleep => s.state ≠ .uninit

/-- What a step can do: move a thread that does not own the function; make a thread its owner;
    take its owner further. -/
inductive OnceMove (s : OnceShared) (l : OnceLoc) : OnceShared → OnceLoc → Prop
  | stay {l' : OnceLoc} (hl : ¬l.owns) (hl' : ¬l'.owns) (hfits : l'.Fits s)
    (hsleep : l' = .asleep → s.state = .running)
    (hleft : s.state = .complete → l.inCall → l'.left < l.left) : OnceMove s l s l'
  | win (hl : ¬l.owns) (hstate : s.state = .uninit) :
    OnceMove s l { s with state := .running } .enter
  | advance {s' : OnceShared} {l' : OnceLoc} (hl : l.owns) (hs : s.state = .running)
    (hl' : l'.owns) (hfits : l'.Fits s') (hstate : s'.state ≠ .uninit)
    (hcomplete : s'.state = .complete → s' = ⟨.complete, 1, 1⟩ ∧ l' = .wake) : OnceMove s l s' l'

section

variable {s s' : OnceShared} {l l' : OnceLoc}

/-- Each atomic operation is a move. -/
theorem OnceLoc.step_move (hfits : l.Fits s) (h : l.step s = some (s', l')) :
    OnceMove s l s' l' := by
  cases l with
  | load =>
    rw [step] at h
    split at h <;> obtain ⟨rfl, rfl⟩ := step_inj h <;>
      constructor <;> simp_all [owns, Fits, left]
  | cas =>
    rw [step] at h
    split at h <;> obtain ⟨rfl, rfl⟩ := step_inj h
    · exact .win (by decide) ‹_›
    · constructor <;> simp_all [owns, Fits, left]
  | enter | inside | store =>
    obtain ⟨rfl, rfl⟩ := step_inj h
    obtain rfl : s = _ := hfits
    exact .advance rfl rfl rfl (by simp [Fits]) (by simp) (by simp)
  | reload | block =>
    obtain ⟨rfl, rfl⟩ := step_inj h
    split <;> constructor <;> simp_all [owns, Fits, left]
  | asleep =>
    obtain ⟨rfl, rfl⟩ := step_inj h
    constructor <;> simp_all [owns, Fits, left]
  | outside returned | wake => cases h

variable (h : l.Fits s)

include h

/-- The place of a thread that does not own the function allows any later value of the word. -/
theorem OnceLoc.Fits.of_not_owns (hl : ¬l.owns) (hstate : s'.state ≠ .uninit)
    (hcomplete : s.state = .complete → s'.state = .complete) : l.Fits s' := by
  cases l with
  | outside returned => exact fun hret => hcomplete (h hret)
  | load | cas => trivial
  | reload | block | asleep => exact hstate
  | enter | inside | store | wake => exact absurd rfl hl

/-- Nobody owns the function before the exchange. -/
theorem OnceLoc.Fits.not_owns (hstate : s.state = .uninit) : ¬l.owns := by
  cases l <;> simp_all [Fits, owns]

/-- Before the exchange every caller is on the way to the function. -/
theorem OnceLoc.Fits.onWay (hstate : s.state = .uninit) (hl : l.inCall) : l.onWay := by
  cases l <;> simp_all [Fits, inCall, OnceLoc.onWay]

/-- The owner of the function is on the way to it until it has returned. -/
theorem OnceLoc.Fits.finished (hstate : s.state = .running) (hl : l.owns) :
    s.started ≤ 1 ∧ s.finished ≤ s.started ∧ (s.finished = 1 ∨ l.onWay) := by
  cases l <;> simp_all [Fits, owns, OnceLoc.onWay]

end

/-- The places of all threads allow the word, one thread owns the function, and a thread is
    asleep at most until the wake-up call. -/
structure OnceInv {τ : Type} (g : Config τ OnceShared OnceLoc) : Prop where
  fits : ∀ t, (g.loc t).Fits g.shared
  unique : ∀ t u, (g.loc t).owns → (g.loc u).owns → t = u
  uninit : g.shared.state = .uninit → g.shared = ⟨.uninit, 0, 0⟩
  running : g.shared.state = .running → ∃ t, (g.loc t).owns
  complete : g.shared.state = .complete → g.shared = ⟨.complete, 1, 1⟩
  woken : g.shared.state = .complete → ∀ t, g.loc t = .asleep → ∃ u, g.loc u = .wake

/-- The function has returned, and its owner has made the wake-up call. -/
structure OnceDone {τ : Type} (g : Config τ OnceShared OnceLoc) : Prop where
  shared : g.shared = ⟨.complete, 1, 1⟩
  owner : ∀ t, ¬(g.loc t).owns
  awake : ∀ t, g.loc t ≠ .asleep

section

variable {τ : Type} [DecidableEq τ] {g g' : Config τ OnceShared OnceLoc} {t : τ} {s : OnceShared}
  {l : OnceLoc}

/-- A thread that owns the function after a move did so before, or is the one that moved. -/
theorem owns_set {u : τ} (h : ((g.set t s l).loc u).owns) : u = t ∨ (g.loc u).owns := by
  by_cases hut : u = t
  · exact .inl hut
  · rw [Config.set_loc_of_ne g hut] at h
    exact .inr h

/-- Moves keep the invariant. -/
theorem OnceInv.set (h : OnceInv g) (hm : OnceMove g.shared (g.loc t) s l) :
    OnceInv (g.set t s l) := by
  cases hm with
  | stay hl hl' hfits hsleep hleft =>
    have howns : ∀ u, ((g.set t g.shared l).loc u).owns → u ≠ t ∧ (g.loc u).owns := by
      intro u hu
      rcases eq_or_ne u t with rfl | hut
      · rw [Config.set_loc_self] at hu
        exact absurd hu hl'
      · rw [Config.set_loc_of_ne g hut] at hu
        exact ⟨hut, hu⟩
    refine ⟨Config.forall_set g h.fits hfits, ?_, h.uninit, fun hs => ?_, h.complete,
      fun hs u hu => ?_⟩
    · exact fun u v hu hv => h.unique u v (howns u hu).2 (howns v hv).2
    · exact Config.exists_set (P := fun l => l.owns) g (h.running hs) fun howns => absurd howns hl
    · -- the thread that moved is not asleep, as the word is not the one it would wait for
      have hut : u ≠ t := by
        rintro rfl
        rw [Config.set_loc_self] at hu
        exact absurd (hs.symm.trans (hsleep hu)) (by decide)
      rw [Config.set_loc_of_ne g hut] at hu
      refine Config.exists_set (P := (· = .wake)) g (h.woken hs u hu) fun hwake => ?_
      rw [hwake] at hl
      exact absurd rfl hl
  | win hl hstate =>
    have hother : ∀ u, ¬(g.loc u).owns := fun u => (h.fits u).not_owns hstate
    refine ⟨fun u => ?_, fun u v hu hv => ?_, by simp, fun _ => ⟨t, ?_⟩, by simp, by simp⟩
    · by_cases hut : u = t
      · rw [hut, Config.set_loc_self, h.uninit hstate]
        rfl
      · rw [Config.set_loc_of_ne g hut]
        refine (h.fits u).of_not_owns (hother u) (by simp) fun hc => ?_
        exact absurd (hstate.symm.trans hc) (by decide)
    · rw [(owns_set hu).resolve_right (hother u), (owns_set hv).resolve_right (hother v)]
    · rw [Config.set_loc_self]
      rfl
  | advance hl hs hl' hfits hstate hcomplete =>
    have hother : ∀ u, u ≠ t → ¬(g.loc u).owns := fun u hut hu => hut (h.unique u t hu hl)
    have howner : ∀ u, ((g.set t s l).loc u).owns → u = t := fun u hu =>
      (owns_set hu).elim id fun hown => h.unique u t hown hl
    refine ⟨fun u => ?_, fun u v hu hv => ?_, fun hun => absurd hun hstate, fun _ => ⟨t, ?_⟩,
      fun hc => (hcomplete hc).1, fun hc u _ => ⟨t, ?_⟩⟩
    · by_cases hut : u = t
      · rw [hut, Config.set_loc_self]
        exact hfits
      · rw [Config.set_loc_of_ne g hut]
        refine (h.fits u).of_not_owns (hother u hut) hstate fun hc => ?_
        exact absurd (hs.symm.trans hc) (by decide)
    · rw [howner u hu, howner v hv]
    · rwa [Config.set_loc_self]
    · rw [Config.set_loc_self, (hcomplete hc).2]

/-- Nobody falls asleep when the function has returned. -/
theorem OnceDone.set (h : OnceDone g) (hm : OnceMove g.shared (g.loc t) s l) :
    OnceDone (g.set t s l) := by
  have hstate : g.shared.state = .complete := by rw [h.shared]
  cases hm with
  | stay hl hl' hfits hsleep hleft =>
    refine ⟨h.shared, Config.forall_set (P := fun l => ¬l.owns) g h.owner hl',
      Config.forall_set (P := (· ≠ .asleep)) g h.awake fun hasleep => ?_⟩
    exact absurd (hstate.symm.trans (hsleep hasleep)) (by decide)
  | win hl hun => exact absurd (hstate.symm.trans hun) (by decide)
  | advance hl => exact absurd hl (h.owner t)

omit [DecidableEq τ] in
/-- A step of a thread is the beginning of a call, or a move. -/
theorem onceMachine_move {c : OnceChoice} (hfits : (g.loc t).Fits g.shared)
    (h : (onceMachine τ).next t c g.shared (g.loc t) = some (s, l)) :
    OnceMove g.shared (g.loc t) s l := by
  cases c with
  | op => exact OnceLoc.step_move hfits h
  | call =>
    cases hl : g.loc t with
    | outside returned =>
      simp only [onceMachine, hl] at h
      obtain ⟨rfl, rfl⟩ := step_inj h
      exact .stay (by simp [OnceLoc.owns]) (by decide) trivial (by simp) (by simp [OnceLoc.inCall])
    | _ =>
      simp only [onceMachine, hl] at h
      cases h

omit [DecidableEq τ] in
theorem onceMachine_sleeping : (onceMachine τ).sleeping l = some () ↔ l = .asleep := by
  simp [onceMachine]

omit [DecidableEq τ] in
theorem onceMachine_waking {f : Unit} {n : Amount} (h : (onceMachine τ).waking l = some (f, n)) :
    l = .wake ∧ n = .all := by
  obtain ⟨hl, hn⟩ := Option.ite_none_right_eq_some.1 h
  exact ⟨hl, (step_inj hn).2.symm⟩

omit [DecidableEq τ] in
/-- While a caller has not returned, the function has returned or a thread that is not asleep
    is on the way to it. -/
theorem OnceInv.onWay (h : OnceInv g) (hcall : ∃ t, (g.loc t).inCall) :
    g.shared.finished = 1 ∨ ∃ t, (g.loc t).onWay := by
  obtain ⟨t, ht⟩ := hcall
  cases hstate : g.shared.state with
  | uninit => exact .inr ⟨t, (h.fits t).onWay hstate ht⟩
  | running =>
    obtain ⟨u, hu⟩ := h.running hstate
    exact ((h.fits u).finished hstate hu).2.2.imp id fun hway => ⟨u, hway⟩
  | complete =>
    rw [h.complete hstate]
    exact .inl rfl

omit [DecidableEq τ] in
/-- A thread that is asleep will be woken. -/
theorem OnceInv.owner_of_asleep (h : OnceInv g) (ht : g.loc t = .asleep) : ∃ u, (g.loc u).owns := by
  have hfits := h.fits t
  rw [ht] at hfits
  cases hstate : g.shared.state with
  | uninit => exact absurd hstate hfits
  | running => exact h.running hstate
  | complete =>
    obtain ⟨u, hu⟩ := h.woken hstate t ht
    exact ⟨u, by rw [hu]; rfl⟩

omit [DecidableEq τ] in
theorem OnceInv.counts (h : OnceInv g) :
    g.shared.started ≤ 1 ∧ g.shared.finished ≤ g.shared.started := by
  cases hstate : g.shared.state with
  | uninit =>
    rw [h.uninit hstate]
    decide
  | running =>
    obtain ⟨u, hu⟩ := h.running hstate
    exact ⟨((h.fits u).finished hstate hu).1, ((h.fits u).finished hstate hu).2.1⟩
  | complete =>
    rw [h.complete hstate]
    decide

omit [DecidableEq τ] in
/-- A step of a caller, after the wake-up call, takes it closer to its return. -/
theorem OnceDone.left_lt {c : OnceChoice} (hinv : OnceInv g) (h : OnceDone g)
    (hcall : (g.loc t).inCall) (hnext : (onceMachine τ).next t c g.shared (g.loc t) = some (s, l)) :
    l.left < (g.loc t).left := by
  have hstate : g.shared.state = .complete := by rw [h.shared]
  cases onceMachine_move (hinv.fits t) hnext with
  | stay hl hl' hfits hsleep hleft => exact hleft hstate hcall
  | win hl hun => exact absurd (hstate.symm.trans hun) (by decide)
  | advance hl => exact absurd hl (h.owner t)

variable [Fintype τ]

/-- After its wake-up call the owner has returned, and nobody is asleep. -/
theorem OnceInv.done_wakeUp {us : Finset τ} (h : OnceInv g) (ht : g.loc t = .wake)
    (hus : us = (onceMachine τ).sleepers g ()) : OnceDone ((onceMachine τ).wakeUp g t us) := by
  have hstate : g.shared.state = .complete := by
    have hfits := h.fits t
    rwa [ht] at hfits
  have howns : (g.loc t).owns := by
    rw [ht]
    rfl
  -- what becomes of each thread, other than the one that made the call
  have hloc : ∀ u, ((onceMachine τ).wakeUp g t us).loc u ≠ .asleep ∧
      ¬(((onceMachine τ).wakeUp g t us).loc u).owns := by
    intro u
    by_cases hut : u = t
    · rw [hut, Machine.wakeUp_loc_self, ht]
      simp [onceMachine, OnceLoc.owns]
    by_cases hu : g.loc u = .asleep
    · have hmem : u ∈ us := by
        rw [hus]
        exact Machine.mem_sleepers.2 (onceMachine_sleeping.2 hu)
      rw [Machine.wakeUp_loc_of_mem hut hmem, hu]
      simp [onceMachine, OnceLoc.owns]
    · have hmem : u ∉ us := fun hmem =>
        hu (onceMachine_sleeping.1 (Machine.mem_sleepers.1 (hus ▸ hmem)))
      rw [Machine.wakeUp_loc_of_notMem hut hmem]
      exact ⟨hu, fun howner => hut (h.unique u t howner howns)⟩
  exact ⟨h.complete hstate, fun u => (hloc u).2, fun u => (hloc u).1⟩

theorem OnceInv.wakeUp {us : Finset τ} (h : OnceInv g) (ht : g.loc t = .wake)
    (hus : us = (onceMachine τ).sleepers g ()) : OnceInv ((onceMachine τ).wakeUp g t us) := by
  have hdone := h.done_wakeUp ht hus
  have hshared := hdone.shared
  refine ⟨fun u => ?_, fun u v hu => absurd hu (hdone.owner u), ?_, ?_, fun _ => hshared,
    fun _ u hu => absurd hu (hdone.awake u)⟩
  · refine Machine.forall_wakeUp (P := OnceLoc.Fits g.shared) h.fits ?_ (fun v hv hfits => ?_) u
    · rw [ht]
      exact fun _ => congrArg OnceShared.state hshared
    · rw [onceMachine_sleeping.1 (Machine.mem_sleepers.1 (hus ▸ hv))] at hfits ⊢
      exact hfits
  · rw [hshared]
    simp
  · rw [hshared]
    simp

theorem onceInv_steps (h : (onceMachine τ).Steps (fun _ _ => True) (onceInit τ) g) : OnceInv g := by
  refine h.invariant (I := OnceInv) ?_ ?_ ?_
  · exact fun g t c s l hg _ hnext => hg.set (onceMachine_move (hg.fits t) hnext)
  · intro g t us f n hg _ hwaking hwakes
    obtain ⟨ht, rfl⟩ := onceMachine_waking hwaking
    exact hg.wakeUp ht hwakes
  · exact ⟨fun _ => by simp [onceInit, OnceLoc.Fits], by simp [onceInit, OnceLoc.owns],
      fun _ => rfl, by simp [onceInit], by simp [onceInit], by simp [onceInit]⟩

theorem onceDone_steps (hinv : OnceInv g) (hdone : OnceDone g)
    (h : (onceMachine τ).Steps (fun _ _ => True) g g') : OnceInv g' ∧ OnceDone g' := by
  refine h.invariant (I := fun g => OnceInv g ∧ OnceDone g) ?_ ?_ ⟨hinv, hdone⟩
  · rintro g t c s l ⟨hg, hd⟩ _ hnext
    have hm := onceMachine_move (hg.fits t) hnext
    exact ⟨hg.set hm, hd.set hm⟩
  · rintro g t us f n ⟨-, hd⟩ _ hwaking _
    have howner := hd.owner t
    rw [(onceMachine_waking hwaking).1] at howner
    exact absurd rfl howner

/-- In every run of any number of threads that call `call_once`: the function is entered at
    most once; a call has returned only if the function has; while a caller has not returned, the
    function has or a thread that is not asleep is on the way to it; and a thread is asleep only
    while the one that runs the function has yet to make its wake-up call. After that call
    nobody is asleep or falls asleep, and each step of a caller takes it closer to its return. -/
theorem callOnce_once (h : (onceMachine τ).Steps (fun _ _ => True) (onceInit τ) g) :
    (g.shared.started ≤ 1 ∧ g.shared.finished ≤ g.shared.started) ∧
      (∀ t, g.loc t = .outside true → g.shared.finished = 1) ∧
      ((∃ t, (g.loc t).inCall) → g.shared.finished = 1 ∨ ∃ t, (g.loc t).onWay) ∧
      (∀ t, g.loc t = .asleep → ∃ u, (g.loc u).owns) ∧
      ∀ t us g₁ g₂, (onceMachine τ).exec g (.wake t us) = some g₁ →
        (onceMachine τ).Steps (fun _ _ => True) g₁ g₂ →
        g₂.shared.started = 1 ∧ (∀ u, g₂.loc u ≠ .asleep) ∧
          ∀ u c s l, (g₂.loc u).inCall →
            (onceMachine τ).next u c g₂.shared (g₂.loc u) = some (s, l) →
              l.left < (g₂.loc u).left := by
  have hinv := onceInv_steps h
  refine ⟨hinv.counts, fun t ht => ?_, hinv.onWay, fun t ht => hinv.owner_of_asleep ht, ?_⟩
  · have hfits := hinv.fits t
    rw [ht] at hfits
    rw [hinv.complete (hfits rfl)]
  · intro t us g₁ g₂ hexec hsteps
    rcases Machine.exec_cases hexec with
      ⟨_, _, _, _, hact, _⟩ | ⟨_, _, f, n, hact, hwaking, hwakes, rfl⟩
    · cases hact
    -- From the wake-up call on, the word says that the function has returned.
    obtain ⟨ht, rfl⟩ := onceMachine_waking hwaking
    obtain ⟨hinv₂, hdone⟩ :=
      onceDone_steps (hinv.wakeUp ht hwakes) (hinv.done_wakeUp ht hwakes) hsteps
    refine ⟨?_, hdone.awake, fun u c s l hcall hnext => hdone.left_lt hinv₂ hcall hnext⟩
    rw [hdone.shared]

end

/-- One thread has run the function and has yet to make its wake-up call, one is asleep, and
    one has just begun its call. -/
def completing : Config Trio OnceShared OnceLoc :=
  ((onceMachine Trio).replay (fun _ _ => True) (onceInit Trio)
    [.run .a .call, .run .a .op, .run .b .call, .run .b .op, .run .a .op, .run .b .op, .run .b .op,
      .run .b .op, .run .a .op, .run .a .op, .run .c .call, .run .a .op]).get (by decide)

theorem callOnce_once_completing :
    (completing.loc .a = .wake ∧ completing.loc .b = .asleep ∧ completing.loc .c = .load) ∧
      ∀ g, (onceMachine Trio).Steps (fun _ _ => True)
        ((onceMachine Trio).wakeUp completing .a {.b}) g →
        g.shared.started = 1 ∧ ∀ t, g.loc t ≠ .asleep := by
  refine ⟨by decide, fun g hsteps => ?_⟩
  have hreach : (onceMachine Trio).Steps (fun _ _ => True) (onceInit Trio) completing :=
    Machine.steps_replay_get _
  obtain ⟨hstarted, hawake, -⟩ :=
    (callOnce_once hreach).2.2.2.2 .a {.b} _ g (if_pos (by decide)) hsteps
  exact ⟨hstarted, hawake⟩

end Sync

end Trona
