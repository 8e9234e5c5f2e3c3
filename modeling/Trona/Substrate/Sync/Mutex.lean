import Trona.Lib.FutexLock

/-!
# The mutex

`Mutex` (`substrate/sync.rs`): a lock in one word, with a futex. Its code is given as the
places a thread can be in between two atomic operations, and what the operation at each place
does (`LockLoc.step`). `TypedMutex` has the same code again, as `lock_inner`,
`lock_inner_timeout` and `unlock_inner`.

A thread waits for a limited time in `lock_timeout`: whether its time is up is a choice. It is
also a choice whether a weak exchange fails for no reason, and whether a wait at the futex
ends for no reason. A thread that has the lock may call the functions once more (`MutexLoc`):
it blocks in `lock`, and comes back from the others without success and with the lock.
`mutex_safe` is what the lock guarantees in every run of any number of threads.
-/

namespace Trona

namespace Sync

/-- The places of a thread in the code of the mutex. -/
inductive LockLoc
  /-- Not in a call, without the lock. -/
  | outside
  /-- Not in a call, with the lock. -/
  | held
  /-- `lock`: at the first exchange. -/
  | lockFast
  /-- `lock`: at the load of an iteration of the spin phase. -/
  | spin (i : ℕ)
  /-- `lock`: at the exchange of an iteration of the spin phase. -/
  | spinCas (i : ℕ)
  /-- `lock`: at the swap of the futex phase. -/
  | swap
  /-- `lock`: at the futex wait. -/
  | wait
  | asleep
  /-- `lock_timeout`: at the first exchange. -/
  | timedFast
  /-- `lock_timeout`: at the swap in the loop. -/
  | timedSwap
  /-- `lock_timeout`: where it is found out if there is time left. -/
  | timedCheck
  /-- `lock_timeout`: at the futex wait. -/
  | timedWait
  | timedAsleep
  /-- `lock_timeout`: at the swap after the time is up. -/
  | timedLast
  /-- `try_lock`: at the exchange. -/
  | tryCas
  /-- `unlock`: at the swap. -/
  | unlockSwap
  /-- `unlock`: at the futex wake. -/
  | wake
  deriving DecidableEq

/-- The functions of the mutex. -/
inductive LockCall
  | lock
  | lockTimeout
  | tryLock
  | unlock
  deriving DecidableEq

/-- The number of iterations of the spin phase. -/
def spinCount : ℕ := 40

namespace LockLoc

/-- A call is begun, by a thread that does not have the lock, or to release it. -/
def start : LockCall → LockLoc → Option LockLoc
  | .lock, outside => some lockFast
  | .lockTimeout, outside => some timedFast
  | .tryLock, outside => some tryCas
  | .unlock, held => some unlockSwap
  | _, _ => none

/-- The end of an iteration of the spin phase. -/
def afterSpin (i : ℕ) : LockLoc := if i + 1 < spinCount then spin (i + 1) else swap

/-- The atomic operation at a place. The choice `c` is, at a weak exchange, that it fails for
    no reason; for a thread with a limited time, that its time is up. A futex wait compares
    the word with 2, and a thread that is asleep may go on at any time. -/
def step (c : Bool) (word : ℕ) : LockLoc → Option (ℕ × LockLoc)
  | lockFast => if word = 0 then some (1, held) else some (word, spin 0)
  | spin i => if word = 0 then some (word, spinCas i) else some (word, afterSpin i)
  | spinCas i => if word = 0 ∧ c = false then some (2, held) else some (word, afterSpin i)
  | swap => some (2, if word = 0 then held else wait)
  | wait => some (word, if word = 2 then asleep else swap)
  | asleep => some (word, swap)
  | timedFast => if word = 0 then some (1, held) else some (word, timedSwap)
  | timedSwap => some (2, if word = 0 then held else timedCheck)
  | timedCheck => some (word, if c then timedLast else timedWait)
  | timedWait => some (word, if word = 2 then timedAsleep else timedSwap)
  | timedAsleep => some (word, if c then timedLast else timedSwap)
  | timedLast => some (2, if word = 0 then held else outside)
  | tryCas => if word = 0 then some (1, held) else some (word, outside)
  | unlockSwap => some (0, if word = 2 then wake else outside)
  | outside | held | wake => none

/-- The place is one where a thread is asleep. -/
def isAsleep : LockLoc → Bool
  | asleep | timedAsleep => true
  | _ => false

/-- Where a thread goes on when it is woken. -/
def roused : LockLoc → LockLoc
  | asleep => swap
  | timedAsleep => timedSwap
  | l => l

/-- Where a thread goes on after its wake-up call. -/
def resumed : LockLoc → LockLoc
  | wake => outside
  | l => l

/-- The thread has the lock. -/
def holds : LockLoc → Bool
  | held | unlockSwap => true
  | _ => false

/-- The thread is awake, and in one of the loops where it tries to get the lock. -/
def acquires : LockLoc → Bool
  | spin _ | spinCas _ | swap | wait | timedSwap | timedCheck | timedWait | timedLast => true
  | _ => false

/-- What a thread does with the lock. -/
def role (l : LockLoc) : LockRole :=
  if l.holds then .holding
  else if l.isAsleep then .asleep
  else if l.acquires then .contending
  else if l = wake then .waking
  else .out

variable {l l' : LockLoc}

theorem role_eq_holding : l.role = .holding ↔ l.holds := by
  cases l <;> simp [role, holds, isAsleep, acquires]

theorem role_eq_asleep : l.role = .asleep ↔ l.isAsleep := by
  cases l <;> simp [role, holds, isAsleep, acquires]

theorem role_eq_contending : l.role = .contending ↔ l.acquires := by
  cases l <;> simp [role, holds, isAsleep, acquires]

theorem role_eq_waking : l.role = .waking ↔ l = wake := by
  cases l <;> simp [role, holds, isAsleep, acquires]

/-- At the beginning of a call nothing has changed. -/
theorem role_start {call : LockCall} (h : l.start call = some l') : l'.role = l.role := by
  cases call <;> cases l <;> cases h <;> rfl

/-- A thread that is woken contends for the lock. -/
theorem role_roused (h : l.isAsleep) : l.roused.role = .contending := by
  cases l <;> first | rfl | cases h

@[simp] theorem role_afterSpin (i : ℕ) : (afterSpin i).role = .contending := by
  rw [afterSpin]
  split <;> rfl

/-- Each atomic operation is a move of the protocol. -/
theorem step_move {c : Bool} {word word' : ℕ} (h : l.step c word = some (word', l')) :
    LockMove word l.role word' l'.role := by
  cases l with
  | lockFast | timedFast =>
    rw [step] at h
    split at h <;> obtain ⟨rfl, rfl⟩ := step_inj h
    · subst word
      exact .take
    · exact .enter
  | spin i =>
    rw [step] at h
    split at h <;> obtain ⟨rfl, rfl⟩ := step_inj h
    · exact .stay
    · rw [role_afterSpin]
      exact .stay
  | spinCas i =>
    rw [step] at h
    split at h <;> obtain ⟨rfl, rfl⟩ := step_inj h
    · obtain ⟨rfl, -⟩ := ‹word = 0 ∧ c = false›
      exact .acquire
    · rw [role_afterSpin]
      exact .stay
  | swap | timedSwap =>
    obtain ⟨rfl, rfl⟩ := step_inj h
    split
    · subst word
      exact .acquire
    · exact .mark ‹_›
  | wait | timedWait =>
    obtain ⟨rfl, rfl⟩ := step_inj h
    split
    · subst word
      exact .sleep
    · exact .stay
  | asleep =>
    obtain ⟨rfl, rfl⟩ := step_inj h
    exact .rouse
  | timedCheck =>
    obtain ⟨rfl, rfl⟩ := step_inj h
    split <;> exact .stay
  | timedAsleep =>
    obtain ⟨rfl, rfl⟩ := step_inj h
    split <;> exact .rouse
  | timedLast =>
    obtain ⟨rfl, rfl⟩ := step_inj h
    split
    · subst word
      exact .acquire
    · exact .giveUp ‹_›
  | tryCas =>
    rw [step] at h
    split at h <;> obtain ⟨rfl, rfl⟩ := step_inj h
    · subst word
      exact .take
    · exact .stay
  | unlockSwap =>
    obtain ⟨rfl, rfl⟩ := step_inj h
    split
    · subst word
      exact .releaseContended
    · exact .release ‹_›
  | outside | held | wake => cases h

end LockLoc

/-! ## Calls of a thread that has the lock -/

/-- Where a thread is. With `again` it has the lock, and is in a further call of `lock`,
    `lock_timeout` or `try_lock`. -/
structure MutexLoc where
  again : Bool
  place : LockLoc
  deriving DecidableEq

namespace MutexLoc

/-- A call is begun. Only a thread that holds the lock calls `unlock`. -/
def start (call : LockCall) (l : MutexLoc) : Option MutexLoc :=
  if l.again then none
  else if l.place = .held ∧ call ≠ .unlock then (LockLoc.outside.start call).map (⟨true, ·⟩)
  else (l.place.start call).map (⟨false, ·⟩)

/-- The thread gets to a place of the code. At the end of a further call it has the lock. -/
def goto (l : MutexLoc) (place : LockLoc) : MutexLoc :=
  if l.again then
    if place = .outside ∨ place = .held then ⟨false, .held⟩ else ⟨true, place⟩
  else ⟨false, place⟩

def step (c : Bool) (word : ℕ) (l : MutexLoc) : Option (ℕ × MutexLoc) :=
  (l.place.step c word).map fun p => (p.1, l.goto p.2)

/-- The thread has the lock. -/
def holds (l : MutexLoc) : Bool := l.again || l.place.holds

/-- A thread takes part in the protocol twice: as one that is in its call (`true`), while it is
    in a further one, and as one that has the lock or is in a call without it (`false`). -/
def role (l : MutexLoc) (further : Bool) : LockRole :=
  if further = l.again then l.place.role else if l.again then .holding else .out

variable {l l' : MutexLoc} {b : Bool} {r : LockRole}

@[simp] theorem role_again (l : MutexLoc) : l.role l.again = l.place.role := if_pos rfl

/-- A thread in another place of its call. -/
theorem role_place (l : MutexLoc) (place : LockLoc) (b : Bool) :
    ({ l with place } : MutexLoc).role b = if b = l.again then place.role else l.role b := by
  rw [role]
  split <;> simp_all [role]

theorem holds_iff : l.holds ↔ ∃ b, l.role b = .holding := by
  obtain ⟨again, place⟩ := l
  cases again <;> simp [holds, role, LockLoc.role_eq_holding]

/-- Only the call that a thread is in waits, contends or wakes. -/
theorem exists_role_iff (hout : r ≠ .out) (hheld : r ≠ .holding) :
    (∃ b, l.role b = r) ↔ l.place.role = r := by
  obtain ⟨again, place⟩ := l
  cases again <;> simp [role, hout.symm, hheld.symm]

/-- At the beginning of a call nothing has changed. -/
theorem role_start {call : LockCall} (h : l.start call = some l') : l'.role = l.role := by
  obtain ⟨again, place⟩ := l
  cases again with
  | true => cases h
  | false =>
    rw [start, if_neg Bool.false_ne_true] at h
    split at h <;> obtain ⟨p, hp, rfl⟩ := Option.map_eq_some_iff.1 h <;> funext further
    · obtain ⟨rfl, -⟩ : place = .held ∧ call ≠ .unlock := ‹_›
      cases further with
      | false => rfl
      | true => exact LockLoc.role_start hp
    · simp only [role, LockLoc.role_start hp]

/-- Where the thread gets to in a further call, if it does not take the lock once more. -/
theorem role_goto {place : LockLoc} (h : l.again = true → place.role ≠ .holding) :
    (l.goto place).role l.again = place.role ∧
      (l.goto place).role (!l.again) = l.role !l.again := by
  obtain ⟨again, p⟩ := l
  cases again with
  | false => exact ⟨rfl, rfl⟩
  | true =>
    rw [goto, if_pos rfl]
    split
    · rename_i hend
      rcases hend with rfl | rfl
      · exact ⟨rfl, rfl⟩
      · exact absurd rfl (h rfl)
    · exact ⟨rfl, rfl⟩

end MutexLoc

/-! ## Runs -/

/-- What a thread may choose: the next call, or what happens at an atomic operation. -/
inductive MutexChoice
  | call (call : LockCall)
  | op (c : Bool)

/-- Threads that use one mutex. -/
def mutexMachine (τ : Type) : Machine τ ℕ MutexLoc MutexChoice Unit where
  next _ c word l :=
    match c with
    | .call call => (l.start call).map fun l' => (word, l')
    | .op c => l.step c word
  sleeping l := if l.place.isAsleep then some () else none
  roused l := { l with place := l.place.roused }
  waking l := if l.place = .wake then some ((), .one) else none
  resumed l := { l with place := l.place.resumed }

/-- At first the lock is free and no thread is in a call. -/
def mutexInit (τ : Type) : Config τ ℕ MutexLoc := ⟨0, fun _ => ⟨false, .outside⟩⟩

section

variable {τ : Type} [Fintype τ] [DecidableEq τ] {g : Config τ ℕ MutexLoc}

/-- The roles of all threads. -/
def mutexRoles (g : Config τ ℕ MutexLoc) (p : τ × Bool) : LockRole := (g.loc p.1).role p.2

omit [Fintype τ] in
/-- A step that is a move of a thread in one of its roles keeps the invariant. -/
theorem mutexRoles_set {t : τ} {b : Bool} {word : ℕ} {l : MutexLoc}
    (h : LockInv g.shared (mutexRoles g))
    (hm : LockMove g.shared ((g.loc t).role b) word (l.role b))
    (hsame : l.role (!b) = (g.loc t).role !b) :
    LockInv word (mutexRoles (g.set t word l)) := by
  have hroles : mutexRoles (g.set t word l) = Function.update (mutexRoles g) (t, b) (l.role b) := by
    funext p
    obtain ⟨u, b'⟩ := p
    rw [mutexRoles, Config.set_loc]
    rcases eq_or_ne u t with rfl | hut
    · rw [Function.update_self]
      rcases eq_or_ne b' b with rfl | hb
      · rw [Function.update_self]
      · rw [Function.update_of_ne (by simp [hb]), Bool.eq_not.2 hb, hsame]
        rfl
    · rw [Function.update_of_ne hut, Function.update_of_ne (by simp [hut])]
      rfl
  rw [hroles]
  exact h.move hm

/-- A wake-up call keeps the invariant. -/
theorem mutexRoles_wakeUp {t : τ} {us : Finset τ} (h : LockInv g.shared (mutexRoles g))
    (hwake : (g.loc t).place = .wake)
    (hwakes : Amount.one.Wakes us ((mutexMachine τ).sleepers g ())) :
    LockInv g.shared (mutexRoles ((mutexMachine τ).wakeUp g t us)) := by
  have hasleep : ∀ u, u ∈ (mutexMachine τ).sleepers g () ↔ (g.loc u).place.isAsleep := by
    simp [Machine.mem_sleepers, mutexMachine]
  have hroles : mutexRoles ((mutexMachine τ).wakeUp g t us) = fun p =>
      if p = (t, (g.loc t).again) then .out
      else if p ∈ us.image fun u => (u, (g.loc u).again) then .contending else mutexRoles g p := by
    funext p
    obtain ⟨u, b⟩ := p
    have hmem : (u, b) ∈ us.image (fun u => (u, (g.loc u).again)) ↔
        u ∈ us ∧ b = (g.loc u).again := by
      simp [eq_comm]
    simp only [hmem, Prod.mk.injEq]
    -- a thread changes its place only in the call that it is in
    rcases eq_or_ne u t with rfl | hut
    · have hrole : (g.loc u).place.resumed.role = .out := by rw [hwake]; rfl
      rw [mutexRoles, Machine.wakeUp_loc_self]
      refine (MutexLoc.role_place _ _ _).trans ?_
      by_cases hb : b = (g.loc u).again <;> simp [hb, hrole, mutexRoles]
    · by_cases hu : u ∈ us
      · have hrole := LockLoc.role_roused ((hasleep u).1 (hwakes.subset hu))
        rw [mutexRoles, Machine.wakeUp_loc_of_mem hut hu]
        refine (MutexLoc.role_place _ _ _).trans ?_
        by_cases hb : b = (g.loc u).again <;> simp [hb, hut, hu, hrole, mutexRoles]
      · rw [mutexRoles, Machine.wakeUp_loc_of_notMem hut hu]
        simp [hut, hu, mutexRoles]
  rw [hroles]
  refine h.wake ?_ ?_ ?_
  · exact (MutexLoc.role_again _).trans (LockLoc.role_eq_waking.2 hwake)
  · intro p hp
    obtain ⟨u, hu, rfl⟩ := Finset.mem_image.1 hp
    have hplace := (hasleep u).1 (hwakes.subset hu)
    exact (MutexLoc.role_again _).trans (LockLoc.role_eq_asleep.2 hplace)
  · rintro hus ⟨u, b⟩ hu
    rw [Finset.image_eq_empty.1 hus] at hwakes
    have hrole := (MutexLoc.exists_role_iff (by decide) (by decide)).1 ⟨b, hu⟩
    have hmem := (hasleep u).2 (LockLoc.role_eq_asleep.1 hrole)
    rw [hwakes.asleep_eq_empty] at hmem
    exact Finset.notMem_empty u hmem

/-- The invariant of the lock holds in every run. -/
theorem mutex_lockInv (h : (mutexMachine τ).Steps (fun _ _ => True) (mutexInit τ) g) :
    LockInv g.shared (mutexRoles g) := by
  have hinit : LockInv (mutexInit τ).shared (mutexRoles (mutexInit τ)) := by
    have hroles : mutexRoles (mutexInit τ) = fun _ => .out := by
      funext p
      cases hp : p.2 <;> simp [mutexRoles, mutexInit, hp] <;> rfl
    rw [hroles]
    exact LockInv.init
  refine h.invariant (I := fun g => LockInv g.shared (mutexRoles g)) ?_ ?_ hinit
  · intro g t c word l hg _ hnext
    cases c with
    | call call =>
      obtain ⟨l', hstart, rfl, rfl⟩ := mapped_inj hnext
      have hrole := MutexLoc.role_start hstart
      exact mutexRoles_set (b := false) hg (by rw [hrole]; exact .stay) (by rw [hrole])
    | op c =>
      obtain ⟨⟨word', place⟩, hstep, heq⟩ := Option.map_eq_some_iff.1 hnext
      obtain ⟨rfl, rfl⟩ := Prod.mk.inj heq
      have hm := LockLoc.step_move hstep
      -- the lock is not free while the thread has it, so it does not get it once more
      have hno : (g.loc t).again = true → place.role ≠ .holding := by
        intro hagain hplace
        have hheld : mutexRoles g (t, false) = .holding := by
          simp [mutexRoles, MutexLoc.role, hagain]
        rcases hm.holding hplace with hrole | hword
        · have htwice : mutexRoles g (t, true) = .holding := by
            rw [mutexRoles, ← hagain, MutexLoc.role_again, hrole]
          cases hg.unique _ _ hheld htwice
        · exact hg.free_iff.1 hword _ hheld
      obtain ⟨hrole, hsame⟩ := MutexLoc.role_goto hno
      refine mutexRoles_set hg ?_ hsame
      rw [hrole, MutexLoc.role_again]
      exact hm
  · intro g t us f n hg _ hwaking hwakes
    obtain ⟨hplace, heq⟩ := Option.ite_none_right_eq_some.1 hwaking
    obtain ⟨-, rfl⟩ := Prod.mk.inj (Option.some.inj heq)
    exact mutexRoles_wakeUp hg hplace hwakes

/-- In every run of any number of threads: at most one thread holds the lock, the word is 0
    exactly when no thread does, and it cannot happen that the lock is free and a thread asleep
    while no thread has a wake-up call to make and none is awake in the loops of an
    acquisition. -/
theorem mutex_safe (h : (mutexMachine τ).Steps (fun _ _ => True) (mutexInit τ) g) :
    (∀ t u, (g.loc t).holds → (g.loc u).holds → t = u) ∧
      (g.shared = 0 ↔ ∀ t, ¬(g.loc t).holds) ∧
      ¬(g.shared = 0 ∧ (∃ t, (g.loc t).place.isAsleep) ∧ (∀ t, (g.loc t).place ≠ .wake) ∧
        ∀ t, ¬(g.loc t).place.acquires) := by
  have hinv := mutex_lockInv h
  refine ⟨fun t u ht hu => ?_, ?_, ?_⟩
  · obtain ⟨b, hb⟩ := MutexLoc.holds_iff.1 ht
    obtain ⟨b', hb'⟩ := MutexLoc.holds_iff.1 hu
    exact (Prod.mk.inj (hinv.unique (t, b) (u, b') hb hb')).1
  · simp only [hinv.free_iff, MutexLoc.holds_iff, not_exists, Prod.forall]
    rfl
  · rintro ⟨hfree, ⟨t, ht⟩, hwake, hacquires⟩
    have hasleep : mutexRoles g (t, (g.loc t).again) = .asleep :=
      (MutexLoc.role_again _).trans (LockLoc.role_eq_asleep.2 ht)
    rcases hinv.awake ⟨_, hasleep⟩ with hword | ⟨⟨u, b⟩, hu | hu⟩
    · rw [hfree] at hword
      cases hword
    · have hrole := (MutexLoc.exists_role_iff (by decide) (by decide)).1 ⟨b, hu⟩
      exact hacquires u (LockLoc.role_eq_contending.1 hrole)
    · have hrole := (MutexLoc.exists_role_iff (by decide) (by decide)).1 ⟨b, hu⟩
      exact hwake u (LockLoc.role_eq_waking.1 hrole)

end

/-- One thread has the lock, another one falls asleep, the first one tries to get the lock once
    more, in vain, and releases it. -/
def contended : Config Trio ℕ MutexLoc :=
  ((mutexMachine Trio).replay (fun _ _ => True) (mutexInit Trio)
    [.run .a (.call .lock), .run .a (.op false), .run .b (.call .lockTimeout), .run .b (.op false),
      .run .b (.op false), .run .b (.op false), .run .b (.op false), .run .a (.call .tryLock),
      .run .a (.op false), .run .a (.call .unlock), .run .a (.op false)]).get (by decide)

theorem mutex_safe_contended :
    (contended.shared = 0 ∧ (contended.loc .a).place = .wake ∧
        (contended.loc .b).place.isAsleep) ∧
      (∀ t u, (contended.loc t).holds → (contended.loc u).holds → t = u) ∧
      (contended.shared = 0 ↔ ∀ t, ¬(contended.loc t).holds) ∧
      ¬(contended.shared = 0 ∧ (∃ t, (contended.loc t).place.isAsleep) ∧
        (∀ t, (contended.loc t).place ≠ .wake) ∧ ∀ t, ¬(contended.loc t).place.acquires) :=
  ⟨by decide, mutex_safe (Machine.steps_replay_get _)⟩

end Sync

end Trona
