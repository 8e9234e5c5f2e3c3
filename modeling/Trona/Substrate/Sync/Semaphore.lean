import Trona.Lib.Threads
import Trona.Uapi.Status

/-!
# The semaphore

`Semaphore` (`substrate/sync.rs`): a count that is also the word of a futex. A waiter sleeps
while the count is 0, and `post` wakes one thread when it makes the count 1.

A second `post` before the woken thread has taken its unit makes the count 2 and wakes nobody,
and a thread stays asleep although there is a unit for it (`semaphore_stranded`). Nothing
else goes wrong: when no `post` increments a positive count while a thread is asleep, no
thread is left behind (`semaphore_notStranded`).
-/

namespace Trona

namespace Sync

/-- `SEM_VALUE_MAX`. -/
def semValueMax : ℕ := 2 ^ 31 - 1

/-- The places of a thread in the code of the semaphore. -/
inductive SemLoc
  /-- Not in a call, with what the last one has returned. -/
  | outside (ret : Option ℤ)
  /-- `wait`: at the load, the exchange and the futex wait. -/
  | load
  | cas (c : ℕ)
  | block
  | asleep
  /-- `try_wait`: at the load and the exchange. -/
  | tryLoad
  | tryCas (c : ℕ)
  /-- `wait_timeout`: at the load and the exchange before the loop. -/
  | timedFastLoad
  | timedFastCas (c : ℕ)
  /-- `wait_timeout`: at the load and the exchange in the loop, where it is found out if there
      is time left, and at the futex wait. -/
  | timedLoad
  | timedCas (c : ℕ)
  | timedCheck
  | timedBlock
  | timedAsleep
  /-- `wait_timeout`: at the load and the exchange after the time is up. -/
  | lastLoad
  | lastCas (c : ℕ)
  /-- `post`: at the load, the exchange and the futex wake. -/
  | postLoad
  | postCas (c : ℕ)
  | postWake
  deriving DecidableEq

/-- The functions of the semaphore. -/
inductive SemCall
  | wait
  | tryWait
  | waitTimeout
  | post
  deriving DecidableEq

namespace SemLoc

/-- Where a call begins. -/
def entry : SemCall → SemLoc
  | .wait => load
  | .tryWait => tryLoad
  | .waitTimeout => timedFastLoad
  | .post => postLoad

/-- The exchange of `c` by `c - 1`: where it leads if it succeeds and if it fails. -/
def exchange (count c : ℕ) (fails : Bool) (done failed : SemLoc) : ℕ × SemLoc :=
  if count = c ∧ fails = false then (c - 1, done) else (count, failed)

/-- The atomic operation at a place. The choice `b` is, at a weak exchange, that it fails for
    no reason; for a thread with a limited time, that its time is up. A futex wait compares
    the count with 0, and a thread that is asleep may go on at any time. -/
def step (b : Bool) (count : ℕ) : SemLoc → Option (ℕ × SemLoc)
  | load => some (count, if count > 0 then cas count else block)
  | cas c => some (exchange count c b (outside none) load)
  | block => some (count, if count = 0 then asleep else load)
  | asleep => some (count, load)
  | tryLoad => some (count, if count = 0 then outside (some 0) else tryCas count)
  | tryCas c => some (exchange count c b (outside (some 1)) tryLoad)
  | timedFastLoad => some (count, if count > 0 then timedFastCas count else timedLoad)
  | timedFastCas c => some (exchange count c b (outside (some tronaOk)) timedLoad)
  | timedLoad => some (count, if count > 0 then timedCas count else timedCheck)
  | timedCas c => some (exchange count c b (outside (some tronaOk)) timedLoad)
  | timedCheck => some (count, if b then lastLoad else timedBlock)
  | timedBlock => some (count, if count = 0 then timedAsleep else timedLoad)
  | timedAsleep => some (count, if b then lastLoad else timedLoad)
  | lastLoad => some (count, if count > 0 then lastCas count else outside (some tronaTimedOut))
  | lastCas c =>
    some (exchange count c false (outside (some tronaOk)) (outside (some tronaTimedOut)))
  | postLoad => some (count, if count ≥ semValueMax then outside (some (-1)) else postCas count)
  | postCas c =>
    if count = c ∧ b = false then some (c + 1, if c = 0 then postWake else outside (some 0))
    else some (count, postLoad)
  | outside _ | postWake => none

def isOutside : SemLoc → Bool
  | outside _ => true
  | _ => false

def isAsleep : SemLoc → Bool
  | asleep | timedAsleep => true
  | _ => false

/-- Where a thread goes on when it is woken. -/
def roused : SemLoc → SemLoc
  | asleep => load
  | timedAsleep => timedLoad
  | l => l

/-- The thread is going to wake another one, or to take a unit if the count is 1. -/
def cares : SemLoc → Bool
  | postWake | load | cas _ | block | tryLoad | tryCas _ | timedFastLoad | timedFastCas _
  | timedLoad | timedCas _ | timedCheck | timedBlock | lastLoad | lastCas 1 => true
  | _ => false

end SemLoc

inductive SemChoice
  | call (call : SemCall)
  | op (b : Bool)

/-- Threads that use one semaphore. -/
def semMachine (τ : Type) : Machine τ ℕ SemLoc SemChoice Unit where
  next _ c count l :=
    match c, l with
    | .call call, .outside _ => some (count, .entry call)
    | .call _, _ => none
    | .op b, l => l.step b count
  sleeping l := if l.isAsleep then some () else none
  roused := SemLoc.roused
  waking l := if l = .postWake then some ((), .one) else none
  resumed l := if l = .postWake then .outside (some 0) else l

/-- At first the count has some value and no thread is in a call. -/
def semInit (τ : Type) (initial : ℕ) : Config τ ℕ SemLoc := ⟨initial, fun _ => .outside none⟩

/-- The count is positive, all threads are outside of the functions or asleep, and one is asleep
    in `wait`. -/
def SemStranded {τ : Type} (g : Config τ ℕ SemLoc) : Prop :=
  0 < g.shared ∧ (∀ t, (g.loc t).isOutside ∨ (g.loc t).isAsleep) ∧ ∃ t, g.loc t = .asleep

/-- A `post` does not increment a positive count while a thread is asleep. -/
def PostsWhenAwake {τ : Type} (g : Config τ ℕ SemLoc) : Act τ SemChoice → Prop
  | .run t (.op false) => g.loc t = .postCas g.shared → 0 < g.shared → ∀ u, ¬(g.loc u).isAsleep
  | _ => True

section

variable {τ : Type} [Fintype τ]

instance (g : Config τ ℕ SemLoc) : Decidable (SemStranded g) :=
  inferInstanceAs (Decidable (_ ∧ _ ∧ _))

instance (g : Config τ ℕ SemLoc) : (a : Act τ SemChoice) → Decidable (PostsWhenAwake g a)
  | .run t (.op false) => inferInstanceAs
    (Decidable (g.loc t = .postCas g.shared → 0 < g.shared → ∀ u, ¬(g.loc u).isAsleep))
  | .run _ (.op true) | .run _ (.call _) | .wake _ _ => isTrue trivial

end

/-! ## Steps -/

/-- What a step can do to the count: nothing; take a unit; the increment of a count of 0, with
    a wake-up call to come; the increment of a positive count. -/
inductive SemMove (count : ℕ) (l : SemLoc) : ℕ → SemLoc → Prop
  | stay {l' : SemLoc} (hsleep : l'.isAsleep → count = 0)
      (hcares : l.cares → count = 1 → l'.cares) : SemMove count l count l'
  | take {l' : SemLoc} (hawake : ¬l'.isAsleep) : SemMove count l (count - 1) l'
  | first (hzero : count = 0) : SemMove count l 1 .postWake
  | more (hpos : 0 < count) (hl : l = .postCas count) :
      SemMove count l (count + 1) (.outside (some 0))

section

variable {count count' c : ℕ} {b : Bool} {l l' done failed : SemLoc}

/-- A place that is not one of sleep, and where a thread cares if it did before. -/
theorem SemMove.to_awake (hawake : ¬l'.isAsleep) (hcares : l.cares → l'.cares) :
    SemMove count l count l' :=
  .stay (fun h => absurd h hawake) fun h _ => hcares h

/-- A place where a thread is when it has found no unit. -/
theorem SemMove.to_empty (hzero : count = 0) : SemMove count l count l' :=
  .stay (fun _ => hzero) fun _ h => absurd (hzero.symm.trans h) (by decide)

theorem exchange_move (hdone : ¬done.isAsleep) (hfailed : ¬failed.isAsleep)
    (hcares : l.cares → failed.cares) :
    SemMove count l (SemLoc.exchange count c b done failed).1
      (SemLoc.exchange count c b done failed).2 := by
  rw [SemLoc.exchange]
  split
  · obtain ⟨rfl, -⟩ := ‹count = c ∧ b = false›
    exact .take hdone
  · exact .to_awake hfailed hcares

/-- Each atomic operation is a move. -/
theorem SemLoc.step_move (h : l.step b count = some (count', l')) : SemMove count l count' l' := by
  cases l with
  | load | timedFastLoad | timedLoad | timedCheck | timedAsleep | postLoad =>
    obtain ⟨rfl, rfl⟩ := step_inj h
    split <;> exact .to_awake (by simp [isAsleep]) (by simp [cares])
  | block | timedBlock | tryLoad =>
    obtain ⟨rfl, rfl⟩ := step_inj h
    split
    · exact .to_empty ‹_›
    · exact .to_awake (by simp [isAsleep]) (by simp [cares])
  | cas c | tryCas c | timedFastCas c | timedCas c =>
    obtain ⟨rfl, rfl⟩ := step_inj h
    exact exchange_move (by simp [isAsleep]) (by simp [isAsleep]) (by simp [cares])
  | asleep =>
    obtain ⟨rfl, rfl⟩ := step_inj h
    exact .to_awake (by simp [isAsleep]) (by simp [cares])
  | lastLoad =>
    obtain ⟨rfl, rfl⟩ := step_inj h
    split
    · refine .stay (by simp [isAsleep]) fun _ hone => ?_
      rw [hone]
      rfl
    · exact .to_empty (by omega)
  | lastCas c =>
    rw [step, exchange] at h
    split at h <;> obtain ⟨rfl, rfl⟩ := step_inj h
    · obtain ⟨rfl, -⟩ := ‹count = c ∧ false = false›
      exact .take (by simp [isAsleep])
    · -- with a count of 1, the exchange of 1 would have succeeded
      refine .stay (by simp [isAsleep])
        fun hcares hone => absurd ⟨?_, rfl⟩ ‹¬(count = c ∧ false = false)›
      unfold cares at hcares
      split at hcares <;> simp_all
  | postCas c =>
    rw [step] at h
    split at h <;> obtain ⟨rfl, rfl⟩ := step_inj h
    · obtain ⟨rfl, -⟩ := ‹count = c ∧ b = false›
      split
      · subst count
        exact .first rfl
      · exact .more (by omega) rfl
    · exact .to_awake (by simp [isAsleep]) (by simp [cares])
  | outside ret | postWake => cases h

end

/-- While a thread is asleep the count is at most 1, and when it is 1 a thread cares. -/
def SemInv {τ : Type} (g : Config τ ℕ SemLoc) : Prop :=
  (∃ t, (g.loc t).isAsleep) → g.shared ≤ 1 ∧ (g.shared = 1 → ∃ t, (g.loc t).cares)

section

variable {τ : Type} [DecidableEq τ] {g : Config τ ℕ SemLoc} {t : τ} {count : ℕ} {l : SemLoc}

/-- Moves keep the invariant, if a positive count is only incremented when nobody is asleep. -/
theorem SemInv.set (h : SemInv g) (hm : SemMove g.shared (g.loc t) count l)
    (hposts : g.loc t = .postCas g.shared → 0 < g.shared → count = g.shared + 1 →
      ∀ u, ¬(g.loc u).isAsleep) : SemInv (g.set t count l) := by
  rintro ⟨u, hu⟩
  -- another thread that is asleep was asleep before
  have hother : ¬l.isAsleep → (g.loc u).isAsleep := by
    intro hl
    have hut : u ≠ t := by
      rintro rfl
      rw [Config.set_loc_self] at hu
      exact hl hu
    rwa [Config.set_loc_of_ne g hut] at hu
  cases hm with
  | stay hsleep hcares =>
    by_cases hzero : g.shared = 0
    · exact ⟨by simp [hzero], fun hone => by simp [hzero] at hone⟩
    obtain ⟨hle, hone⟩ := h ⟨u, hother fun hl => hzero (hsleep hl)⟩
    refine ⟨hle, fun h₁ => ?_⟩
    obtain ⟨v, hv⟩ := hone h₁
    rcases eq_or_ne v t with rfl | hvt
    · exact ⟨v, by rw [Config.set_loc_self]; exact hcares hv h₁⟩
    · exact ⟨v, by rwa [Config.set_loc_of_ne g hvt]⟩
  | take hawake =>
    obtain ⟨hle, -⟩ := h ⟨u, hother hawake⟩
    rw [Config.set_shared]
    exact ⟨by omega, fun _ => by omega⟩
  | first hzero => exact ⟨le_refl 1, fun _ => ⟨t, by rw [Config.set_loc_self]; rfl⟩⟩
  | more hpos hl => exact absurd (hother (by decide)) (hposts hl hpos rfl u)

theorem SemLoc.cares_roused (h : l.isAsleep) : l.roused.cares := by
  cases l <;> first | rfl | cases h

theorem SemLoc.not_cares (h : l.isOutside ∨ l.isAsleep) : ¬l.cares := by
  cases l <;> simp_all [isOutside, isAsleep, cares]

omit [DecidableEq τ] in
theorem semMachine_sleeping : (semMachine τ).sleeping l = some () ↔ l.isAsleep := by
  simp [semMachine]

variable [Fintype τ]

/-- A wake-up call keeps the invariant: a thread that is woken cares. -/
theorem SemInv.wakeUp {us : Finset τ} {n : Amount} (h : SemInv g) (ht : g.loc t = .postWake)
    (hwakes : n.Wakes us ((semMachine τ).sleepers g ())) :
    SemInv ((semMachine τ).wakeUp g t us) := by
  have hasleep : ∀ u ∈ us, (g.loc u).isAsleep := fun u hu =>
    semMachine_sleeping.1 (Machine.mem_sleepers.1 (hwakes.subset hu))
  have hne : ∀ u, (g.loc u).isAsleep → u ≠ t := by
    rintro u hu rfl
    rw [ht] at hu
    cases hu
  rintro ⟨u, hu⟩
  have hut : u ≠ t := by
    rintro rfl
    rw [Machine.wakeUp_loc_self, ht] at hu
    cases hu
  rcases us.eq_empty_or_nonempty with rfl | ⟨v, hv⟩
  · rw [Machine.wakeUp_loc_of_notMem hut (Finset.notMem_empty u)] at hu
    have hmem := Machine.mem_sleepers.2 (semMachine_sleeping.2 hu)
    rw [hwakes.asleep_eq_empty] at hmem
    exact absurd hmem (Finset.notMem_empty u)
  · refine ⟨(h ⟨v, hasleep v hv⟩).1, fun _ => ⟨v, ?_⟩⟩
    rw [Machine.wakeUp_loc_of_mem (hne v (hasleep v hv)) hv]
    exact SemLoc.cares_roused (hasleep v hv)

theorem semInv_steps {initial : ℕ} (h : (semMachine τ).Steps PostsWhenAwake (semInit τ initial) g) :
    SemInv g := by
  refine h.invariant (I := SemInv) ?_ ?_ ?_
  · intro g t c count l hg hposts hnext
    cases c with
    | call call =>
      cases hl : g.loc t with
      | outside ret =>
        simp only [semMachine, hl] at hnext
        obtain ⟨rfl, rfl⟩ := step_inj hnext
        refine hg.set (.to_awake ?_ ?_) ?_
        · cases call <;> decide
        · simp [hl, SemLoc.cares]
        · simp [hl]
      | _ =>
        simp only [semMachine, hl] at hnext
        cases hnext
    | op b =>
      refine hg.set (SemLoc.step_move hnext) fun hl hpos hcount => ?_
      cases b with
      | false => exact hposts hl hpos
      | true =>
        have hstep : (g.loc t).step true g.shared = some (count, l) := hnext
        rw [hl, SemLoc.step, if_neg (by simp)] at hstep
        obtain ⟨heq, -⟩ := step_inj hstep
        omega
  · intro g t us f n hg _ hwaking hwakes
    refine hg.wakeUp ?_ hwakes
    obtain ⟨hl, -⟩ := Option.ite_none_right_eq_some.1 hwaking
    exact hl
  · rintro ⟨t, ht⟩
    cases ht

/-- In every run of any number of threads in which no `post` increments a positive count while
    a thread is asleep, no waiter is stranded. -/
theorem semaphore_notStranded {initial : ℕ}
    (h : (semMachine τ).Steps PostsWhenAwake (semInit τ initial) g) : ¬SemStranded g := by
  rintro ⟨hpos, hall, t, ht⟩
  obtain ⟨hle, hcares⟩ := semInv_steps h ⟨t, by rw [ht]; rfl⟩
  obtain ⟨u, hu⟩ := hcares (by omega)
  exact SemLoc.not_cares (hall u) hu

end

/-- A thread is asleep, and the unit that is posted is for it. -/
def posted : Config Trio ℕ SemLoc :=
  ((semMachine Trio).replay PostsWhenAwake (semInit Trio 0)
    [.run .a (.call .wait), .run .a (.op false), .run .a (.op false), .run .b (.call .post),
      .run .b (.op false), .run .b (.op false)]).get (by decide)

theorem semaphore_notStranded_posted :
    (posted.shared = 1 ∧ posted.loc .a = .asleep ∧ posted.loc .b = .postWake) ∧
      ¬SemStranded posted :=
  ⟨by decide, semaphore_notStranded (Machine.steps_replay_get _)⟩

/-- Two threads are asleep. The first unit wakes one of them, and the second one is posted
    before it has taken the first: nobody wakes the other thread. -/
def postedTwice : Config Trio ℕ SemLoc :=
  ((semMachine Trio).replay (fun _ _ => True) (semInit Trio 0)
    [.run .a (.call .wait), .run .a (.op false), .run .a (.op false), .run .b (.call .wait),
      .run .b (.op false), .run .b (.op false), .run .c (.call .post), .run .c (.op false),
      .run .c (.op false), .wake .c {.a}, .run .c (.call .post), .run .c (.op false),
      .run .c (.op false), .run .a (.op false), .run .a (.op false)]).get (by decide)

theorem semaphore_stranded :
    (semMachine Trio).Steps (fun _ _ => True) (semInit Trio 0) postedTwice ∧
      SemStranded postedTwice :=
  ⟨Machine.steps_replay_get _, by decide⟩

end Sync

end Trona
