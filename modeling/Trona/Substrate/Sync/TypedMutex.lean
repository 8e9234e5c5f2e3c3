import Trona.Substrate.Sync.Mutex
import Trona.Uapi.Status

/-!
# Mutexes with a type

`TypedMutex` (`substrate/sync.rs`) adds two words to the lock of `Mutex`: the number of the
owner and, for the type RECURSIVE, how often it has locked the mutex. The words are loaded by
threads that do not have the lock, and stored only by the one that has it.

The code is given by the places between two atomic operations, as for `Mutex`, whose places a
thread goes through while it acquires or releases the lock. `depth` is not part of the code: it
is the number of calls of the thread that have locked the mutex, minus those that have unlocked
it. `typedMutex_ownership` is what the owner and the count are good for, in every run of any
number of threads.
-/

namespace Trona

namespace Sync

/-- The types of a mutex. A plain one is a `Mutex`: it does what one of the type NORMAL does,
    but it has no word for the owner. -/
inductive MutexKind
  | plain
  | normal
  | recursive
  | errorcheck
  deriving DecidableEq

/-- The functions look at the owner. -/
def MutexKind.owned : MutexKind → Bool
  | recursive | errorcheck => true
  | _ => false

/-- `u64::MAX`: there is no owner. -/
def noOwner : ℕ := 2 ^ 64 - 1

/-- The words of a mutex. -/
structure TypedShared where
  word : ℕ
  owner : ℕ
  count : ℕ
  deriving DecidableEq

/-- The functions of a mutex that its user calls, and `condvar_unlock`. -/
inductive TypedCall
  | lock
  | tryLock
  | lockTimeout
  | unlock
  | condvarUnlock
  deriving DecidableEq

/-- What the lock is acquired for: a call, or `condvar_relock` with the count that it
    restores. -/
inductive Acquire
  | lock
  | tryLock
  | lockTimeout
  | relock (saved : ℕ)
  deriving DecidableEq

/-- Where the code of the lock begins. -/
def Acquire.entry : Acquire → LockLoc
  | .lock | .relock _ => .lockFast
  | .tryLock => .tryCas
  | .lockTimeout => .timedFast

/-- The count that is stored. -/
def Acquire.count : Acquire → ℕ
  | .relock saved => saved
  | _ => 1

/-- The lock is acquired by `condvar_relock`. -/
def Acquire.isRelock : Acquire → Bool
  | .relock _ => true
  | _ => false

/-- What is returned if the lock was not acquired. -/
def Acquire.failure : Acquire → ℕ
  | .tryLock => tronaBusy
  | _ => tronaTimedOut

/-- What is returned to the owner of a mutex of type ERRORCHECK. -/
def Acquire.reentry : Acquire → ℕ
  | .tryLock => tronaBusy
  | _ => tronaDeadlock

/-- What the lock is released for: `unlock`, or `condvar_unlock` with the count that it
    returns. -/
inductive Release
  | unlock
  | condvar (saved : ℕ)
  deriving DecidableEq

/-- The places of a thread in the code of the mutex. -/
inductive TypedPc
  /-- Not in a call, with what the last one has returned. -/
  | rest (ret : Option ℕ)
  /-- At the load of the owner. -/
  | ownerLoad (call : TypedCall)
  /-- At the increment of the count by the owner. -/
  | countIncr
  /-- In the code of the lock; after it, at the store of the owner. -/
  | acquire (a : Acquire)
  | countStore (a : Acquire)
  /-- `unlock`: at the decrement of the count. -/
  | countDecr
  /-- `condvar_unlock`: at the swap of the count. -/
  | countSwap
  | ownerClear (r : Release)
  | countClear
  /-- In the code that releases the lock. -/
  | release (r : Release)
  /-- Between `condvar_unlock` and `condvar_relock`. -/
  | waiting (saved : ℕ)
  deriving DecidableEq

/-- A thread: where it is in the code of the lock and of the mutex, and how many of its calls
    have locked the mutex, minus those that have unlocked it. -/
structure TypedLoc where
  lock : LockLoc
  pc : TypedPc
  depth : ℕ
  deriving DecidableEq

namespace TypedLoc

variable (l : TypedLoc)

def goto (pc : TypedPc) : TypedLoc := { l with pc }

/-- The code that acquires the lock is entered. -/
def acquire (a : Acquire) : TypedLoc := { l with pc := .acquire a, lock := a.entry }

/-- The code that releases the lock is entered. -/
def release (r : Release) : TypedLoc := { l with pc := .release r, lock := .unlockSwap }

/-- The mutex is locked. -/
def locked (a : Acquire) : TypedLoc :=
  match a with
  | .relock _ => l.goto (.rest none)
  | _ => { l with pc := .rest (some tronaOk), depth := l.depth + 1 }

/-- The mutex is unlocked. -/
def unlocked (r : Release) : TypedLoc :=
  match r with
  | .unlock => { l with pc := .rest (some tronaOk), depth := l.depth - 1 }
  | .condvar saved => l.goto (.waiting saved)

/-- A call is begun. Where the functions do not look at the owner, only a thread that has the
    lock releases it, and it does not acquire the lock again. -/
def start (k : MutexKind) (call : TypedCall) : Option TypedLoc :=
  if k.owned then some (l.goto (.ownerLoad call))
  else
    match call, l.lock with
    | .lock, .outside => some (l.acquire .lock)
    | .tryLock, .outside => some (l.acquire .tryLock)
    | .lockTimeout, .outside => some (l.acquire .lockTimeout)
    | .unlock, .held => some (l.release .unlock)
    | .condvarUnlock, .held => some (l.release (.condvar 1))
    | _, _ => none

/-- The owner has been loaded by a call that is to acquire the lock: the owner does not do
    that again. -/
def ownerKnown (k : MutexKind) (owns : Bool) (a : Acquire) : TypedLoc :=
  if owns then
    if k = .recursive then l.goto .countIncr else l.goto (.rest (some a.reentry))
  else l.acquire a

/-- The atomic operation at a place, by the thread with the number `tid`. The choice `b` is
    one of the code of the lock. -/
def step (k : MutexKind) (tid : ℕ) (b : Bool) (w : TypedShared) : Option (TypedShared × TypedLoc) :=
  match l.pc with
  | .ownerLoad call =>
    let owns := decide (w.owner = tid)
    match call with
    | .lock => some (w, l.ownerKnown k owns .lock)
    | .tryLock => some (w, l.ownerKnown k owns .tryLock)
    | .lockTimeout => some (w, l.ownerKnown k owns .lockTimeout)
    | .unlock =>
      if owns then
        some (w, l.goto (if k = .recursive then .countDecr else .ownerClear .unlock))
      else some (w, l.goto (.rest (some tronaInvalidOperation)))
    | .condvarUnlock =>
      if owns then
        some (w, l.goto (if k = .recursive then .countSwap else .ownerClear (.condvar 1)))
      else some (w, l.goto (.rest (some 0)))
  | .countIncr => some ({ w with count := (w.count + 1) % 2 ^ 32 },
      { l with pc := .rest (some tronaOk), depth := l.depth + 1 })
  | .acquire a =>
    match l.lock with
    | .held =>
      if k.owned ∨ (k = .normal ∧ a.isRelock) then
        some ({ w with owner := tid },
          if k = .recursive then l.goto (.countStore a) else l.locked a)
      else some (w, l.locked a)
    | .outside => some (w, l.goto (.rest (some a.failure)))
    | lock => (lock.step b w.word).map fun p => ({ w with word := p.1 }, { l with lock := p.2 })
  | .countStore a => some ({ w with count := a.count }, l.locked a)
  | .countDecr => some ({ w with count := (w.count + 2 ^ 32 - 1) % 2 ^ 32 },
      if w.count ≤ 1 then l.goto (.ownerClear .unlock)
      else { l with pc := .rest (some tronaOk), depth := l.depth - 1 })
  | .countSwap => some ({ w with count := 0 }, l.goto (.ownerClear (.condvar w.count)))
  | .ownerClear r => some ({ w with owner := noOwner },
      if k = .recursive ∧ r = .unlock then l.goto .countClear else l.release r)
  | .countClear => some ({ w with count := 0 }, l.release .unlock)
  | .release r =>
    match l.lock with
    | .outside => some (w, l.unlocked r)
    | lock => (lock.step b w.word).map fun p => ({ w with word := p.1 }, { l with lock := p.2 })
  | .rest _ | .waiting _ => none

end TypedLoc

inductive TypedChoice
  | call (call : TypedCall)
  | relock
  | op (b : Bool)

/-- Threads that use one mutex. -/
def typedMachine {τ : Type} (k : MutexKind) (tid : τ → ℕ) :
    Machine τ TypedShared TypedLoc TypedChoice Unit where
  next t c w l :=
    match c, l.pc with
    | .call call, .rest _ => (l.start k call).map fun l' => (w, l')
    | .relock, .waiting saved => some (w, l.acquire (.relock saved))
    | .op b, _ => l.step k (tid t) b w
    | _, _ => none
  sleeping l := if l.lock.isAsleep then some () else none
  roused l := { l with lock := l.lock.roused }
  waking l := if l.lock = .wake then some ((), .one) else none
  resumed l := { l with lock := l.lock.resumed }

/-- At first the mutex is free and no thread is in a call. -/
def typedInit (τ : Type) : Config τ TypedShared TypedLoc :=
  ⟨⟨0, noOwner, 0⟩, fun _ => ⟨.outside, .rest none, 0⟩⟩

/-- The mutex is not locked more than `2 ^ 32 - 1` times by its owner. -/
def DepthBelow {τ : Type} (g : Config τ TypedShared TypedLoc) : Act τ TypedChoice → Prop
  | .run t (.op _) => (g.loc t).pc = .countIncr → (g.loc t).depth + 1 < 2 ^ 32
  | _ => True

instance {τ : Type} (g : Config τ TypedShared TypedLoc) :
    (a : Act τ TypedChoice) → Decidable (DepthBelow g a)
  | .run t (.op _) =>
    inferInstanceAs (Decidable ((g.loc t).pc = .countIncr → (g.loc t).depth + 1 < 2 ^ 32))
  | .run _ (.call _) | .run _ .relock | .wake _ _ => isTrue trivial

/-! ## Steps -/

/-- The place is one in the code that releases the lock. -/
def LockLoc.isRelease : LockLoc → Bool
  | unlockSwap | wake => true
  | _ => false

/-- The place is one in `lock`, or at its end. -/
def LockLoc.isLock : LockLoc → Bool
  | lockFast | spin _ | spinCas _ | swap | wait | asleep | held => true
  | _ => false

section

variable {b : Bool} {word word' : ℕ} {l l' : LockLoc}

/-- A call of the lock goes on until it is at its end. -/
theorem LockLoc.step_phase (h : l.step b word = some (word', l')) :
    (¬l.isRelease → ¬l'.isRelease) ∧ (l.isRelease → l'.isRelease ∨ l' = .outside) ∧
      (l.isLock → l'.isLock) := by
  have hspin : ∀ i, ¬(afterSpin i).isRelease ∧ (afterSpin i).isLock := by
    intro i
    rw [afterSpin]
    split <;> simp [isRelease, isLock]
  cases l with
  | outside | held | wake => cases h
  | spin i | spinCas i =>
    rw [step] at h
    split at h <;> obtain ⟨-, rfl⟩ := step_inj h
    · simp [isRelease, isLock]
    · exact ⟨fun _ => (hspin i).1, by simp [isRelease], fun _ => (hspin i).2⟩
  | lockFast | timedFast | tryCas =>
    rw [step] at h
    split at h <;> obtain ⟨-, rfl⟩ := step_inj h <;> simp [isRelease, isLock]
  | asleep =>
    obtain ⟨-, rfl⟩ := step_inj h
    simp [isRelease, isLock]
  | _ =>
    obtain ⟨-, rfl⟩ := step_inj h
    split <;> simp [isRelease, isLock]

end

theorem LockLoc.isAsleep_iff {l : LockLoc} : l.isAsleep ↔ l = .asleep ∨ l = .timedAsleep := by
  cases l <;> simp [isAsleep]

theorem LockLoc.holds_congr {l l' : LockLoc} (h : l'.role = l.role) : l'.holds ↔ l.holds := by
  rw [← role_eq_holding, h, role_eq_holding]

/-- How often a mutex may be locked by its owner. -/
def MutexKind.Locks (k : MutexKind) (depth : ℕ) : Prop := 0 < depth ∧ (k ≠ .recursive → depth = 1)

/-- How often a thread has locked the mutex when it acquires the lock. -/
def Acquire.Ok (k : MutexKind) (depth : ℕ) : Acquire → Prop
  | .relock saved => saved = depth ∧ k.Locks depth
  | _ => depth = 0

/-- How often a thread has locked the mutex when it releases the lock. -/
def Release.Ok (k : MutexKind) (depth : ℕ) : Release → Prop
  | .unlock => depth = 1
  | .condvar saved => saved = depth ∧ k.Locks depth

/-- How the places of a thread, in the code of the lock and of the mutex, and its depth fit
    together. -/
def TypedLoc.Ok (k : MutexKind) (l : TypedLoc) : Prop :=
  l.depth < 2 ^ 32 ∧
    match l.pc with
    | .rest _ => (l.lock = .held ∧ k.Locks l.depth) ∨ (l.lock = .outside ∧ l.depth = 0)
    | .ownerLoad _ =>
      k.owned ∧ ((l.lock = .held ∧ k.Locks l.depth) ∨ (l.lock = .outside ∧ l.depth = 0))
    | .countIncr | .countDecr | .countSwap => k = .recursive ∧ l.lock = .held ∧ 0 < l.depth
    | .acquire a => ¬l.lock.isRelease ∧ (a.entry = .lockFast → l.lock.isLock) ∧ a.Ok k l.depth
    | .countStore a => k = .recursive ∧ l.lock = .held ∧ a.Ok k l.depth
    | .ownerClear r => k.owned ∧ l.lock = .held ∧ r.Ok k l.depth
    | .countClear => k = .recursive ∧ l.lock = .held ∧ l.depth = 1
    | .release r => (l.lock.isRelease ∨ l.lock = .outside) ∧ r.Ok k l.depth
    | .waiting saved => l.lock = .outside ∧ (Release.condvar saved).Ok k l.depth

/-- A thread there is the one in the word for the owner, if it has the lock. -/
def TypedPc.registered : TypedPc → Bool
  | rest _ | ownerLoad _ | countIncr | countStore _ | countDecr | countSwap | ownerClear _ => true
  | _ => false

/-- The count is the depth of a thread there, if it has the lock. -/
def TypedPc.counted : TypedPc → Bool
  | rest _ | ownerLoad _ | countIncr | countDecr | countSwap => true
  | _ => false

/-- What the word for the owner is while a thread has the lock. -/
def TypedLoc.ownerWord (tid : ℕ) (l : TypedLoc) : ℕ := if l.pc.registered then tid else noOwner

/-- What a step does to the lock, the owner and the count. -/
structure TypedMove (k : MutexKind) (tid : ℕ) (w : TypedShared) (l : TypedLoc) (w' : TypedShared)
    (l' : TypedLoc) : Prop where
  lock : LockMove w.word l.lock.role w'.word l'.lock.role
  ok : l'.Ok k
  outsider : k.owned → ¬l.lock.holds →
    w'.owner = w.owner ∧ w'.count = w.count ∧ (l'.lock.holds → ¬l'.pc.registered)
  released : l.lock.holds → ¬l'.lock.holds → ∃ r, l.pc = .release r ∧ l'.pc = .release r
  owner : k.owned → l.lock.holds → w'.owner = l'.ownerWord tid
  count : k = .recursive → l.lock.holds → l'.pc.counted → w'.count = l'.depth

section

variable {k : MutexKind} {tid : ℕ} {w w' : TypedShared} {l l' : TypedLoc} {b : Bool}

/-- A step that does not touch the words. -/
theorem TypedMove.local (hlock : l'.lock.role = l.lock.role) (hok : l'.Ok k)
    (howner : k.owned → l.lock.holds → w.owner = l'.ownerWord tid)
    (hcount : k = .recursive → l.lock.holds → l'.pc.counted → w.count = l'.depth) :
    TypedMove k tid w l w l' where
  lock := by
    rw [hlock]
    exact .stay
  ok := hok
  outsider _ hl := ⟨rfl, rfl, fun hl' => absurd ((LockLoc.holds_congr hlock).1 hl') hl⟩
  released hl hl' := absurd ((LockLoc.holds_congr hlock).2 hl) hl'
  owner := howner
  count := hcount

/-- A step of the thread that has the lock. -/
theorem TypedMove.byHolder (hl : l.lock.holds) (hlock : l'.lock.role = l.lock.role) (hok : l'.Ok k)
    (hword : w'.word = w.word) (howner : k.owned → w'.owner = l'.ownerWord tid)
    (hcount : k = .recursive → l'.pc.counted → w'.count = l'.depth) :
    TypedMove k tid w l w' l' where
  lock := by
    rw [hlock, hword]
    exact .stay
  ok := hok
  outsider _ hnot := absurd hl hnot
  released _ hl' := absurd ((LockLoc.holds_congr hlock).2 hl) hl'
  owner ho _ := howner ho
  count hk _ := hcount hk

/-- The code that acquires the lock is entered without the lock. -/
theorem TypedLoc.acquire_move {a : Acquire} (hout : l.lock = .outside) (hdepth : l.depth < 2 ^ 32)
    (ha : a.Ok k l.depth) : TypedMove k tid w l w (l.acquire a) := by
  have hnot : ¬l.lock.holds := by
    rw [hout]
    decide
  refine .local ?_ ⟨hdepth, ?_, ?_, ha⟩ (fun _ hl => absurd hl hnot) fun _ hl => absurd hl hnot
  · rw [hout]
    cases a <;> rfl
  · cases a <;> simp [acquire, Acquire.entry, LockLoc.isRelease]
  · cases a <;> simp [acquire, Acquire.entry, LockLoc.isLock]

/-- The code that releases the lock is entered with the lock, by a thread that is not the
    owner any more. -/
theorem TypedLoc.release_move {r : Release} (hheld : l.lock = .held) (hdepth : l.depth < 2 ^ 32)
    (hr : r.Ok k l.depth) (hword : w'.word = w.word) (howner : k.owned → w'.owner = noOwner) :
    TypedMove k tid w l w' (l.release r) := by
  refine .byHolder (by rw [hheld]; rfl) (by rw [hheld]; rfl) ⟨hdepth, .inl rfl, hr⟩ hword howner
    fun _ hcounted => ?_
  cases hcounted

/-- The thread has the lock, and the mutex is locked. -/
theorem TypedLoc.locked_ok {a : Acquire} (hheld : l.lock = .held) (hdepth : l.depth < 2 ^ 32)
    (ha : a.Ok k l.depth) : (l.locked a).Ok k := by
  cases a with
  | relock saved => exact ⟨hdepth, .inl ⟨hheld, ha.2⟩⟩
  | _ =>
    have hzero : l.depth = 0 := ha
    exact ⟨by simp [locked, hzero], .inl ⟨hheld, by simp [locked, hzero, MutexKind.Locks]⟩⟩

theorem TypedLoc.locked_lock (l : TypedLoc) (a : Acquire) : (l.locked a).lock = l.lock := by
  cases a <;> rfl

theorem TypedLoc.locked_ownerWord (l : TypedLoc) (a : Acquire) :
    (l.locked a).ownerWord tid = tid := by
  cases a <;> rfl

/-- What is stored as the count is the depth. -/
theorem TypedLoc.count_eq_depth {a : Acquire} (ha : a.Ok k l.depth) :
    a.count = (l.locked a).depth := by
  cases a with
  | relock saved => exact ha.1
  | _ =>
    have hzero : l.depth = 0 := ha
    simp [Acquire.count, locked, hzero]

section

variable (hok : l.Ok k) (howner : k.owned → l.lock.holds → w.owner = l.ownerWord tid)
  (hcount : k = .recursive → l.lock.holds → l.pc.counted → w.count = l.depth)

include hok howner hcount

/-- The beginning of a call. -/
theorem TypedLoc.start_move {ret : Option ℕ} {call : TypedCall} (hpc : l.pc = .rest ret)
    (h : l.start k call = some l') : TypedMove k tid w l w l' := by
  obtain ⟨hdepth, hrest⟩ := hok
  rw [hpc] at hrest
  by_cases ho : k.owned
  · rw [start.eq_def, if_pos ho] at h
    obtain rfl := Option.some.inj h
    refine .local rfl ⟨hdepth, ho, hrest⟩ (fun _ hl => ?_) fun hk hl _ => ?_
    · rw [howner ho hl, ownerWord, hpc]
      rfl
    · exact hcount hk hl (by rw [hpc]; rfl)
  · have hk : k ≠ .recursive := fun hk => ho (by rw [hk]; rfl)
    have hzero : l.lock = .outside → l.depth = 0 := by
      rintro hout
      rcases hrest with ⟨hheld, -⟩ | ⟨-, hzero⟩
      · rw [hout] at hheld
        cases hheld
      · exact hzero
    have hone : l.lock = .held → k.Locks l.depth := by
      rintro hheld
      rcases hrest with ⟨-, hlocks⟩ | ⟨hout, -⟩
      · exact hlocks
      · rw [hout] at hheld
        cases hheld
    rw [start.eq_def, if_neg ho] at h
    split at h <;> cases h
    iterate 3
      · exact acquire_move ‹_› hdepth (hzero ‹_›)
    · exact release_move ‹_› hdepth ((hone ‹_›).2 hk) rfl fun h => absurd h ho
    · exact release_move ‹_› hdepth ⟨((hone ‹_›).2 hk).symm, hone ‹_›⟩ rfl fun h => absurd h ho

omit howner hcount in
/-- The beginning of `condvar_relock`. -/
theorem TypedLoc.relock_move {saved : ℕ} (hpc : l.pc = .waiting saved) :
    TypedMove k tid w l w (l.acquire (.relock saved)) := by
  obtain ⟨hdepth, hrest⟩ := hok
  rw [hpc] at hrest
  exact acquire_move hrest.1 hdepth hrest.2

/-- The load of the owner. -/
theorem TypedLoc.ownerLoad_move {call : TypedCall}
    (hnot : k.owned → ¬l.lock.holds → w.owner ≠ tid) (hpc : l.pc = .ownerLoad call)
    (h : l.step k tid b w = some (w', l')) : TypedMove k tid w l w' l' := by
  obtain ⟨hdepth, hrest⟩ := hok
  rw [hpc] at hrest
  obtain ⟨ho, hrest⟩ := hrest
  simp only [step, hpc] at h
  rcases hrest with ⟨hheld, hlocks⟩ | ⟨hout, hzero⟩
  · have hl : l.lock.holds := by rw [hheld]; rfl
    have howns : w.owner = tid := by
      rw [howner ho hl, ownerWord, hpc]
      rfl
    -- the owner goes on with the lock, and as the owner
    have hgoto (pc : TypedPc) :
        pc.registered → (l.goto pc).Ok k → TypedMove k tid w l w (l.goto pc) := by
      intro hreg hok
      refine .local rfl hok (fun _ _ => ?_) fun hk _ _ => hcount hk hl (by rw [hpc]; rfl)
      rw [howns, ownerWord, goto, if_pos hreg]
    have hknown : ∀ a, TypedMove k tid w l w (l.ownerKnown k true a) := by
      intro a
      rw [ownerKnown, if_pos rfl]
      split
      · exact hgoto _ rfl ⟨hdepth, ‹_›, hheld, hlocks.1⟩
      · exact hgoto _ rfl ⟨hdepth, .inl ⟨hheld, hlocks⟩⟩
    simp only [howns, decide_true, if_true] at h
    cases call with
    | lock | tryLock | lockTimeout =>
      obtain ⟨rfl, rfl⟩ := step_inj h
      exact hknown _
    | unlock =>
      obtain ⟨rfl, rfl⟩ := step_inj h
      split
      · exact hgoto _ rfl ⟨hdepth, ‹_›, hheld, hlocks.1⟩
      · exact hgoto _ rfl ⟨hdepth, ho, hheld, hlocks.2 ‹_›⟩
    | condvarUnlock =>
      obtain ⟨rfl, rfl⟩ := step_inj h
      split
      · exact hgoto _ rfl ⟨hdepth, ‹_›, hheld, hlocks.1⟩
      · exact hgoto _ rfl ⟨hdepth, ho, hheld, (hlocks.2 ‹_›).symm, hlocks⟩
  · have hl : ¬l.lock.holds := by rw [hout]; decide
    have howns : w.owner ≠ tid := hnot ho hl
    have hrest : ∀ ret, TypedMove k tid w l w (l.goto (.rest ret)) := fun ret =>
      .local rfl ⟨hdepth, .inr ⟨hout, hzero⟩⟩ (fun _ h => absurd h hl) fun _ h => absurd h hl
    simp only [howns, decide_false, Bool.false_eq_true, if_false] at h
    cases call with
    | lock | tryLock | lockTimeout =>
      obtain ⟨rfl, rfl⟩ := step_inj h
      exact acquire_move hout hdepth hzero
    | unlock | condvarUnlock =>
      obtain ⟨rfl, rfl⟩ := step_inj h
      exact hrest _

omit hok howner hcount in
/-- A step in the code of the lock. -/
theorem TypedLoc.lock_move {lock : LockLoc} {pc : TypedPc} {word : ℕ}
    (hlock : LockMove w.word l.lock.role word lock.role) (hnew : TypedLoc.Ok k ⟨lock, pc, l.depth⟩)
    (hreg : ¬pc.registered) (hcounted : ¬pc.counted)
    (hrelease : l.lock.holds → ∃ r, l.pc = .release r ∧ pc = .release r)
    (howner : k.owned → l.lock.holds → w.owner = noOwner) :
    TypedMove k tid w l { w with word } ⟨lock, pc, l.depth⟩ where
  lock := hlock
  ok := hnew
  outsider _ _ := ⟨rfl, rfl, fun _ => hreg⟩
  released hl _ := hrelease hl
  owner ho hl := (howner ho hl).trans (if_neg hreg).symm
  count _ _ h := absurd h hcounted

/-- Each atomic operation. -/
theorem TypedLoc.step_move (hnot : k.owned → ¬l.lock.holds → w.owner ≠ tid)
    (hincr : l.pc = .countIncr → l.depth + 1 < 2 ^ 32) (h : l.step k tid b w = some (w', l')) :
    TypedMove k tid w l w' l' := by
  have hload : ∀ call, l.pc = .ownerLoad call → TypedMove k tid w l w' l' := fun call hpc =>
    ownerLoad_move hok howner hcount hnot hpc h
  obtain ⟨hdepth, hrest⟩ := hok
  rw [step.eq_def] at h
  have hholds (hheld : l.lock = .held) : l.lock.holds := by rw [hheld]; rfl
  rw [ownerWord] at howner
  -- The word for the owner and the count are known at each place.
  cases hpc : l.pc <;> rw [hpc] at howner hcount <;> simp only [hpc] at h hrest
  case rest | waiting => cases h
  case ownerLoad call => exact hload call hpc
  case countIncr =>
    obtain ⟨rfl, hheld, hpos⟩ := hrest
    obtain ⟨rfl, rfl⟩ := step_inj h
    have hl := hholds hheld
    have hlt := hincr hpc
    refine .byHolder hl rfl ⟨hlt, .inl ⟨hheld, Nat.succ_pos _, fun h => absurd rfl h⟩⟩ rfl
      (fun ho => howner ho hl) fun _ _ => ?_
    change (w.count + 1) % 2 ^ 32 = l.depth + 1
    rw [hcount rfl hl rfl, Nat.mod_eq_of_lt hlt]
  case countStore a =>
    obtain ⟨rfl, hheld, ha⟩ := hrest
    obtain ⟨rfl, rfl⟩ := step_inj h
    have hl := hholds hheld
    refine .byHolder hl (by rw [locked_lock]) (locked_ok hheld hdepth ha) rfl (fun ho => ?_)
      fun _ _ => count_eq_depth ha
    rw [locked_ownerWord]
    exact howner ho hl
  case countDecr =>
    obtain ⟨rfl, hheld, hpos⟩ := hrest
    obtain ⟨rfl, rfl⟩ := step_inj h
    have hl := hholds hheld
    have hc : w.count = l.depth := hcount rfl hl rfl
    have howns : w.owner = tid := howner rfl hl
    split
    · exact .byHolder hl rfl ⟨hdepth, rfl, hheld, show l.depth = 1 by omega⟩ rfl (fun _ => howns)
        fun _ h => by cases h
    · refine .byHolder hl rfl ⟨show l.depth - 1 < 2 ^ 32 by omega,
        .inl ⟨hheld, show 0 < l.depth - 1 by omega, fun h => absurd rfl h⟩⟩ rfl (fun _ => howns)
        fun _ _ => ?_
      change (w.count + 2 ^ 32 - 1) % 2 ^ 32 = l.depth - 1
      omega
  case countSwap =>
    obtain ⟨rfl, hheld, hpos⟩ := hrest
    obtain ⟨rfl, rfl⟩ := step_inj h
    have hl := hholds hheld
    exact .byHolder hl rfl ⟨hdepth, rfl, hheld, hcount rfl hl rfl, hpos, fun h => absurd rfl h⟩ rfl
      (fun ho => howner ho hl) fun _ h => by cases h
  case ownerClear r =>
    obtain ⟨ho, hheld, hr⟩ := hrest
    obtain ⟨rfl, rfl⟩ := step_inj h
    have hl := hholds hheld
    split
    · obtain ⟨hk, rfl⟩ := ‹k = .recursive ∧ r = .unlock›
      exact .byHolder hl rfl ⟨hdepth, hk, hheld, hr⟩ rfl (fun _ => rfl) fun _ h => by cases h
    · exact release_move hheld hdepth hr rfl fun _ => rfl
  case countClear =>
    obtain ⟨rfl, hheld, hone⟩ := hrest
    obtain ⟨rfl, rfl⟩ := step_inj h
    exact release_move hheld hdepth hone rfl fun ho => howner ho (hholds hheld)
  case acquire a =>
    obtain ⟨hphase, hlocking, ha⟩ := hrest
    split at h
    · have hheld : l.lock = .held := ‹_›
      have hl := hholds hheld
      split at h <;> obtain ⟨rfl, rfl⟩ := step_inj h
      · split
        · exact .byHolder hl rfl ⟨hdepth, ‹_›, hheld, ha⟩ rfl (fun _ => rfl) fun _ h => by cases h
        · exact .byHolder hl (by rw [locked_lock]) (locked_ok hheld hdepth ha) rfl
            (fun _ => (locked_ownerWord l a).symm) fun hk => absurd hk ‹_›
      · have hk : ¬k.owned := fun ho => ‹¬(k.owned ∨ _)› (.inl ho)
        exact .byHolder hl (by rw [locked_lock]) (locked_ok hheld hdepth ha) rfl
          (fun ho => absurd ho hk) fun hk' => absurd (by rw [hk']; rfl) hk
    · -- the lock is not acquired: not by `condvar_relock`
      have hout : l.lock = .outside := ‹_›
      have hzero : l.depth = 0 := by
        cases a with
        | relock saved =>
          have := hlocking rfl
          rw [hout] at this
          cases this
        | _ => exact ha
      have hl : ¬l.lock.holds := by rw [hout]; decide
      obtain ⟨rfl, rfl⟩ := step_inj h
      exact .local rfl ⟨hdepth, .inr ⟨hout, hzero⟩⟩ (fun _ h => absurd h hl) fun _ h => absurd h hl
    · obtain ⟨⟨word, lock⟩, hstep, rfl, rfl⟩ := mapped_inj h
      obtain ⟨hrel, -, hlock⟩ := LockLoc.step_phase hstep
      have hl : ¬l.lock.holds := by
        cases hlock : l.lock <;> simp_all [LockLoc.holds, LockLoc.isRelease]
      exact lock_move (LockLoc.step_move hstep)
        ⟨hdepth, hrel hphase, fun he => hlock (hlocking he), ha⟩
        (by simp [TypedPc.registered]) (by simp [TypedPc.counted]) (fun h => absurd h hl)
        fun _ h => absurd h hl
  case release r =>
    obtain ⟨hphase, hr⟩ := hrest
    split at h
    · have hout : l.lock = .outside := ‹_›
      have hl : ¬l.lock.holds := by rw [hout]; decide
      obtain ⟨rfl, rfl⟩ := step_inj h
      cases r with
      | unlock =>
        have hone : l.depth = 1 := hr
        exact .local rfl ⟨by simp [unlocked, hone], .inr ⟨hout, by simp [unlocked, hone]⟩⟩
          (fun _ h => absurd h hl) fun _ h => absurd h hl
      | condvar saved =>
        exact .local rfl ⟨hdepth, hout, hr⟩ (fun _ h => absurd h hl) fun _ h => absurd h hl
    · obtain ⟨⟨word, lock⟩, hstep, rfl, rfl⟩ := mapped_inj h
      obtain ⟨-, hrel, -⟩ := LockLoc.step_phase hstep
      exact lock_move (LockLoc.step_move hstep) ⟨hdepth, hrel (hphase.resolve_right ‹_›), hr⟩
        (by simp [TypedPc.registered]) (by simp [TypedPc.counted]) (fun _ => ⟨r, hpc, rfl⟩) howner

end

end

/-! ## Runs -/

/-- The owner and the count are those of the thread that has the lock. -/
structure TypedInv {τ : Type} (k : MutexKind) (tid : τ → ℕ) (g : Config τ TypedShared TypedLoc) :
    Prop where
  lock : LockInv g.shared.word fun t => (g.loc t).lock.role
  ok : ∀ t, (g.loc t).Ok k
  owner : k.owned → ∀ t, (g.loc t).lock.holds → g.shared.owner = (g.loc t).ownerWord (tid t)
  free : k.owned → (∀ t, ¬(g.loc t).lock.holds) → g.shared.owner = noOwner
  count : k = .recursive → ∀ t, (g.loc t).lock.holds → (g.loc t).pc.counted →
    g.shared.count = (g.loc t).depth

theorem TypedPc.registered_of_counted {pc : TypedPc} (h : pc.counted) : pc.registered := by
  cases pc <;> first | rfl | cases h

section

variable {τ : Type} {k : MutexKind} {tid : τ → ℕ} {g : Config τ TypedShared TypedLoc} {t : τ}
  {w : TypedShared} {l : TypedLoc}

theorem TypedInv.init : TypedInv k tid (typedInit τ) where
  lock := LockInv.init
  ok _ := ⟨show 0 < 2 ^ 32 by decide, .inr ⟨rfl, rfl⟩⟩
  owner _ _ h := by cases h
  free _ _ := rfl
  count _ _ h := by cases h

theorem TypedInv.unique (h : TypedInv k tid g) {u : τ} (ht : (g.loc t).lock.holds)
    (hu : (g.loc u).lock.holds) : t = u :=
  h.lock.unique t u (LockLoc.role_eq_holding.2 ht) (LockLoc.role_eq_holding.2 hu)

/-- A thread that does not have the lock is not the owner. -/
theorem TypedInv.owner_ne (h : TypedInv k tid g) (hinj : Function.Injective tid)
    (hne : ∀ t, tid t ≠ noOwner) (ho : k.owned) (ht : ¬(g.loc t).lock.holds) :
    g.shared.owner ≠ tid t := by
  by_cases hholder : ∃ u, (g.loc u).lock.holds
  · obtain ⟨u, hu⟩ := hholder
    rw [h.owner ho u hu, TypedLoc.ownerWord]
    split
    · intro heq
      obtain rfl := hinj heq
      exact ht hu
    · exact (hne t).symm
  · rw [h.free ho fun u hu => hholder ⟨u, hu⟩]
    exact (hne t).symm

variable [DecidableEq τ]

/-- Moves keep the invariant. -/
theorem TypedInv.set (h : TypedInv k tid g) (hm : TypedMove k (tid t) g.shared (g.loc t) w l) :
    TypedInv k tid (g.set t w l) := by
  -- while another thread has the lock, this one does not touch the owner and the count
  have hother : k.owned → ∀ u, u ≠ t → (g.loc u).lock.holds →
      w.owner = g.shared.owner ∧ w.count = g.shared.count := by
    intro ho u hut hu
    obtain ⟨howner, hcount, -⟩ := hm.outsider ho fun ht => hut (h.unique hu ht)
    exact ⟨howner, hcount⟩
  refine ⟨h.lock.set (fun l : TypedLoc => l.lock.role) hm.lock, g.forall_set h.ok hm.ok,
    fun ho u hu => ?_, fun ho hfree => ?_, fun hk u hu hc => ?_⟩
  · rcases eq_or_ne u t with rfl | hut
    · rw [Config.set_loc_self] at hu ⊢
      by_cases ht : (g.loc u).lock.holds
      · exact hm.owner ho ht
      · -- the lock was free, and its new holder is not yet the owner
        obtain ⟨howner, -, hreg⟩ := hm.outsider ho ht
        have hword := (hm.lock.holding (LockLoc.role_eq_holding.2 hu)).resolve_left
          fun hr => ht (LockLoc.role_eq_holding.1 hr)
        have hnone : ∀ v, ¬(g.loc v).lock.holds := fun v hv =>
          h.lock.free_iff.1 hword v (LockLoc.role_eq_holding.2 hv)
        rw [Config.set_shared, howner, h.free ho hnone, TypedLoc.ownerWord, if_neg (hreg hu)]
    · rw [Config.set_loc_of_ne g hut] at hu ⊢
      rw [Config.set_shared, (hother ho u hut hu).1]
      exact h.owner ho u hu
  · have hl : ¬l.lock.holds := by simpa using hfree t
    rw [Config.set_shared]
    by_cases ht : (g.loc t).lock.holds
    · obtain ⟨r, -, hpc⟩ := hm.released ht hl
      rw [hm.owner ho ht, TypedLoc.ownerWord, hpc]
      rfl
    · rw [(hm.outsider ho ht).1]
      refine h.free ho fun u hu => ?_
      by_cases hut : u = t
      · exact ht (hut ▸ hu)
      · exact hfree u (by rwa [Config.set_loc_of_ne g hut])
  · have ho : k.owned := by rw [hk]; rfl
    rcases eq_or_ne u t with rfl | hut
    · rw [Config.set_loc_self] at hu hc ⊢
      by_cases ht : (g.loc u).lock.holds
      · exact hm.count hk ht hc
      · exact absurd (TypedPc.registered_of_counted hc) ((hm.outsider ho ht).2.2 hu)
    · rw [Config.set_loc_of_ne g hut] at hu hc ⊢
      rw [Config.set_shared, (hother ho u hut hu).2]
      exact h.count hk u hu hc

omit [DecidableEq τ] in
theorem typedMachine_sleeping : (typedMachine k tid).sleeping l = some () ↔ l.lock.isAsleep := by
  simp [typedMachine]

omit [DecidableEq τ] in
theorem typedMachine_waking {f : Unit} {n : Amount}
    (h : (typedMachine k tid).waking l = some (f, n)) : l.lock = .wake :=
  (Option.ite_none_right_eq_some.1 h).1

omit [DecidableEq τ] in
theorem typedMachine_lockFutex : (typedMachine k tid).LockFutex () fun l => l.lock.role where
  sleeping_iff l := typedMachine_sleeping.trans LockLoc.role_eq_asleep.symm
  roused l f hl := by
    exact LockLoc.role_roused (typedMachine_sleeping.1 hl)
  waking l n hl := by rw [typedMachine_waking hl]; rfl
  resumed l f n hl := by
    change l.lock.resumed.role = _
    rw [typedMachine_waking hl]
    rfl

/-- A thread that is woken goes on acquiring the lock. -/
theorem TypedLoc.roused_ok (h : l.Ok k) (hasleep : l.lock.isAsleep) :
    ({ l with lock := l.lock.roused } : TypedLoc).Ok k := by
  obtain ⟨hdepth, hrest⟩ := h
  refine ⟨hdepth, ?_⟩
  rcases LockLoc.isAsleep_iff.1 hasleep with hlock | hlock <;> rw [hlock] at hrest <;>
    simp_all [LockLoc.roused, LockLoc.isRelease, LockLoc.isLock]

/-- A thread that has made its wake-up call has released the lock. -/
theorem TypedLoc.resumed_ok (h : l.Ok k) (hwake : l.lock = .wake) :
    ({ l with lock := l.lock.resumed } : TypedLoc).Ok k := by
  obtain ⟨hdepth, hrest⟩ := h
  refine ⟨hdepth, ?_⟩
  cases hpc : l.pc <;> rw [hpc] at hrest <;>
    simp_all [LockLoc.resumed, LockLoc.isRelease, LockLoc.isLock]

theorem LockLoc.not_holds_roused {l : LockLoc} (h : l.isAsleep) : ¬l.roused.holds := by
  cases l <;> first | decide | cases h

theorem LockLoc.not_holds_of_asleep {l : LockLoc} (h : l.isAsleep) : ¬l.holds := by
  cases l <;> first | decide | cases h

variable [Fintype τ]

/-- Wake-up calls keep the invariant. -/
theorem TypedInv.wakeUp {us : Finset τ} {f : Unit} {n : Amount} (h : TypedInv k tid g)
    (hwaking : (typedMachine k tid).waking (g.loc t) = some (f, n))
    (hwakes : n.Wakes us ((typedMachine k tid).sleepers g f)) :
    TypedInv k tid ((typedMachine k tid).wakeUp g t us) := by
  have hwake := typedMachine_waking hwaking
  have hasleep : ∀ u ∈ us, (g.loc u).lock.isAsleep := fun u hu =>
    typedMachine_sleeping.1 (Machine.mem_sleepers.1 (hwakes.subset hu))
  -- a thread that has the lock is not touched
  have hrel (u : τ) := Machine.rel_wakeUp (m := typedMachine k tid) (g := g) (t := t)
    (r := fun l l' => l.Ok k → l'.Ok k ∧ (l'.lock.holds ∨ l.lock.holds → l' = l))
    (fun _ hl => ⟨hl, fun _ => rfl⟩)
    (fun ht => ⟨TypedLoc.resumed_ok ht hwake, by
      simp [typedMachine, hwake, LockLoc.resumed, LockLoc.holds]⟩)
    (fun v (hv : v ∈ us) hok => ⟨TypedLoc.roused_ok hok (hasleep v hv), fun hholds =>
      (hholds.elim (LockLoc.not_holds_roused (hasleep v hv))
        (LockLoc.not_holds_of_asleep (hasleep v hv))).elim⟩) u (h.ok u)
  refine ⟨h.lock.wakeUp typedMachine_lockFutex hwaking hwakes, fun u => (hrel u).1,
    fun ho u hu => ?_, fun ho hfree => h.free ho fun u hu => hfree u ?_, fun hk u hu hc => ?_⟩
  · have heq := (hrel u).2 (.inl hu)
    rw [heq] at hu ⊢
    exact h.owner ho u hu
  · rwa [(hrel u).2 (.inr hu)]
  · have heq := (hrel u).2 (.inl hu)
    rw [heq] at hu hc ⊢
    exact h.count hk u hu hc

variable (hinj : Function.Injective tid) (hne : ∀ t, tid t ≠ noOwner)

include hinj hne

omit [Fintype τ] [DecidableEq τ] in
/-- Steps of the threads are moves. -/
theorem TypedInv.next_move {c : TypedChoice} (h : TypedInv k tid g)
    (hdepth : DepthBelow g (.run t c))
    (hnext : (typedMachine k tid).next t c g.shared (g.loc t) = some (w, l)) :
    TypedMove k (tid t) g.shared (g.loc t) w l := by
  have howner := fun ho => h.owner ho t
  have hcount := fun hk => h.count hk t
  simp only [typedMachine] at hnext
  split at hnext
  · obtain ⟨l', hstart, rfl, rfl⟩ := mapped_inj hnext
    exact TypedLoc.start_move (h.ok t) howner hcount ‹_› hstart
  · obtain ⟨rfl, rfl⟩ := step_inj hnext
    exact TypedLoc.relock_move (h.ok t) ‹_›
  · exact TypedLoc.step_move (h.ok t) howner hcount (fun ho => h.owner_ne hinj hne ho) hdepth hnext
  · cases hnext

theorem typedInv_steps (h : (typedMachine k tid).Steps DepthBelow (typedInit τ) g) :
    TypedInv k tid g :=
  h.invariant (I := TypedInv k tid)
    (fun _ _ _ _ _ hg hdepth hnext => hg.set (hg.next_move hinj hne hdepth hnext))
    (fun _ _ _ _ _ hg _ hwaking hwakes => hg.wakeUp hwaking hwakes) TypedInv.init

end

/-! ## Ownership -/

/-- The place is one between the beginning of `condvar_unlock` and the end of the
    `condvar_relock` that follows. -/
def TypedPc.inCondvar : TypedPc → Bool
  | ownerLoad .condvarUnlock | countSwap | ownerClear (.condvar _) | release (.condvar _)
  | waiting _ | acquire (.relock _) | countStore (.relock _) => true
  | _ => false

/-- What the users of a mutex of the types RECURSIVE and ERRORCHECK can rely on. -/
structure Ownership {τ : Type} (k : MutexKind) (tid : τ → ℕ) (g : Config τ TypedShared TypedLoc) :
    Prop where
  /-- At most one thread owns the mutex. -/
  unique : ∀ t u, (g.loc t).lock.holds → (g.loc u).lock.holds → t = u
  /-- Outside of the calls a thread owns the mutex when it has locked it more often than
      unlocked. -/
  owns_iff : ∀ t ret, (g.loc t).pc = .rest ret → ((g.loc t).lock.holds ↔ 0 < (g.loc t).depth)
  /-- Outside of the calls the words tell its number, and how often it has locked the mutex. -/
  recorded : ∀ t ret, (g.loc t).pc = .rest ret → (g.loc t).lock.holds →
    g.shared.owner = tid t ∧ (k = .recursive → g.shared.count = (g.loc t).depth)
  /-- The lock is released by the `unlock` that undoes the last lock and by `condvar_unlock`,
      and by nothing else. -/
  released : ∀ t c w l, DepthBelow g (.run t c) →
    (typedMachine k tid).next t c g.shared (g.loc t) = some (w, l) →
    (g.loc t).lock.holds → ¬l.lock.holds →
      ((g.loc t).pc = .release .unlock ∧ (g.loc t).depth = 1) ∨
        ∃ saved, (g.loc t).pc = .release (.condvar saved)
  /-- Who does not own the mutex cannot unlock it: an error is returned and nothing changes. -/
  foreign : ∀ t b, ¬(g.loc t).lock.holds →
    ((g.loc t).pc = .ownerLoad .unlock →
      (typedMachine k tid).next t (.op b) g.shared (g.loc t) =
        some (g.shared, (g.loc t).goto (.rest (some tronaInvalidOperation)))) ∧
    ((g.loc t).pc = .ownerLoad .condvarUnlock →
      (typedMachine k tid).next t (.op b) g.shared (g.loc t) =
        some (g.shared, (g.loc t).goto (.rest (some 0))))
  /-- Who owns the mutex and locks it again does not wait: it is counted or gets an error. -/
  reentry : ∀ t b, (g.loc t).lock.holds →
    (∀ call a, (call, a) ∈ [(TypedCall.lock, Acquire.lock), (.tryLock, .tryLock),
        (.lockTimeout, .lockTimeout)] → (g.loc t).pc = .ownerLoad call →
      (typedMachine k tid).next t (.op b) g.shared (g.loc t) = some (g.shared, (g.loc t).goto
        (if k = .recursive then .countIncr else .rest (some a.reentry)))) ∧
    ((g.loc t).pc = .countIncr →
      (typedMachine k tid).next t (.op b) g.shared (g.loc t) =
        some ({ g.shared with count := (g.shared.count + 1) % 2 ^ 32 },
          ⟨.held, .rest (some tronaOk), (g.loc t).depth + 1⟩))
  /-- From `condvar_unlock` to the end of `condvar_relock` a thread counts as having locked the
      mutex as often as before. In between it does not own the mutex, and the saved count is
      the one to restore. -/
  condvar : ∀ t, (g.loc t).pc.inCondvar →
    (∀ c w l, (typedMachine k tid).next t c g.shared (g.loc t) = some (w, l) →
      l.depth = (g.loc t).depth) ∧
    ∀ saved, (g.loc t).pc = .waiting saved → ¬(g.loc t).lock.holds ∧ saved = (g.loc t).depth

section

variable {τ : Type} [Fintype τ] [DecidableEq τ] {k : MutexKind} {tid : τ → ℕ}
  {g : Config τ TypedShared TypedLoc} {w w' : TypedShared} {l l' : TypedLoc}

theorem TypedLoc.step_depth {n : ℕ} {b : Bool} (hpc : l.pc.inCondvar)
    (h : l.step k n b w = some (w', l')) : l'.depth = l.depth := by
  have hsame : ∀ {l₁ : TypedLoc} {w₁ : TypedShared}, some (w₁, l₁) = some (w', l') →
      l₁.depth = l.depth → l'.depth = l.depth := by
    intro l₁ w₁ heq hdepth
    obtain ⟨-, rfl⟩ := step_inj heq
    exact hdepth
  have hlock : ∀ {lock : LockLoc} {pc : TypedPc},
      (lock.step b w.word).map
          (fun p => ({ w with word := p.1 }, (⟨p.2, pc, l.depth⟩ : TypedLoc))) =
        some (w', l') → l'.depth = l.depth := by
    intro lock pc hmap
    obtain ⟨p, -, -, rfl⟩ := mapped_inj hmap
    rfl
  cases hl : l.pc <;> rw [hl] at hpc
  case ownerLoad call =>
    cases call with
    | condvarUnlock =>
      simp only [step, hl] at h
      split at h <;> exact hsame h rfl
    | _ => cases hpc
  case countSwap =>
    simp only [step, hl] at h
    exact hsame h rfl
  case ownerClear r =>
    cases r with
    | unlock => cases hpc
    | condvar saved =>
      simp only [step, hl, reduceCtorEq, and_false, if_false] at h
      exact hsame h rfl
  case release r =>
    cases r with
    | unlock => cases hpc
    | condvar saved =>
      simp only [step, hl] at h
      split at h
      · exact hsame h rfl
      · exact hlock h
  case acquire a =>
    cases a with
    | relock saved =>
      simp only [step, hl] at h
      split at h
      · split at h
        · split at h <;> exact hsame h rfl
        · exact hsame h rfl
      · exact hsame h rfl
      · exact hlock h
    | _ => cases hpc
  case countStore a =>
    cases a with
    | relock saved =>
      simp only [step, hl] at h
      exact hsame h rfl
    | _ => cases hpc
  case waiting saved =>
    simp only [step, hl] at h
    cases h
  all_goals cases hpc

omit [Fintype τ] [DecidableEq τ] in
/-- Between `condvar_unlock` and the end of `condvar_relock` the depth does not change. -/
theorem TypedLoc.next_depth {t : τ} {c : TypedChoice} (hpc : l.pc.inCondvar)
    (hnext : (typedMachine k tid).next t c w l = some (w', l')) : l'.depth = l.depth := by
  simp only [typedMachine] at hnext
  split at hnext
  · rw [‹l.pc = .rest _›] at hpc
    cases hpc
  · obtain ⟨-, rfl⟩ := step_inj hnext
    rfl
  · exact step_depth hpc hnext
  · cases hnext

/-- In every run of any number of threads with numbers of their own, in which no thread locks
    the mutex `2 ^ 32` times, the ownership of a mutex of the types RECURSIVE and ERRORCHECK is
    as it should be. -/
theorem typedMutex_ownership (hk : k.owned) (hinj : Function.Injective tid)
    (hne : ∀ t, tid t ≠ noOwner)
    (h : (typedMachine k tid).Steps DepthBelow (typedInit τ) g) : Ownership k tid g := by
  have hinv := typedInv_steps hinj hne h
  have howns : ∀ t, (g.loc t).lock.holds → (g.loc t).pc.registered → g.shared.owner = tid t := by
    intro t ht hreg
    rw [hinv.owner hk t ht, TypedLoc.ownerWord, if_pos hreg]
  refine ⟨fun t u => hinv.unique, fun t ret hpc => ?_, fun t ret hpc ht => ?_,
    fun t c w l hdepth hnext ht hl => ?_, fun t b ht => ⟨fun hpc => ?_, fun hpc => ?_⟩,
    fun t b ht => ⟨fun call a hmem hpc => ?_, fun hpc => ?_⟩,
    fun t ht => ⟨fun c w l hnext => ?_, fun saved hpc => ?_⟩⟩
  · have hok := (hinv.ok t).2
    rw [hpc] at hok
    rcases hok with ⟨hheld, hlocks⟩ | ⟨hout, hzero⟩
    · exact iff_of_true (by rw [hheld]; rfl) hlocks.1
    · exact iff_of_false (by rw [hout]; decide) (by omega)
  · exact ⟨howns t ht (by rw [hpc]; rfl), fun hr => hinv.count hr t ht (by rw [hpc]; rfl)⟩
  · obtain ⟨r, hpc, -⟩ := (hinv.next_move hinj hne hdepth hnext).released ht hl
    have hok := (hinv.ok t).2
    rw [hpc] at hok
    cases r with
    | unlock => exact .inl ⟨hpc, hok.2⟩
    | condvar saved => exact .inr ⟨saved, hpc⟩
  iterate 2
    · have hother := hinv.owner_ne hinj hne hk ht
      simp only [typedMachine, TypedLoc.step, hpc, hother, decide_false, Bool.false_eq_true,
        if_false]
  · have hown := howns t ht (by rw [hpc]; rfl)
    simp only [List.mem_cons, Prod.mk.injEq, List.not_mem_nil, or_false] at hmem
    rcases hmem with ⟨rfl, rfl⟩ | ⟨rfl, rfl⟩ | ⟨rfl, rfl⟩ <;>
      simp only [typedMachine, TypedLoc.step, hpc, hown, decide_true, TypedLoc.ownerKnown,
        if_true] <;> split <;> rfl
  · have hok := (hinv.ok t).2
    rw [hpc] at hok
    simp only [typedMachine, TypedLoc.step, hpc, hok.2.1]
  · exact TypedLoc.next_depth ht hnext
  · have hok := (hinv.ok t).2
    rw [hpc] at hok
    exact ⟨by rw [hok.1]; decide, hok.2.1⟩

end

/-- One thread locks a mutex of type RECURSIVE twice, another one tries to unlock it, and the
    first one waits at a condition variable. -/
def waitingOwner : Config Trio TypedShared TypedLoc :=
  ((typedMachine .recursive Trio.number).replay DepthBelow (typedInit Trio)
    (List.flatten [.run .a (.call .lock) :: List.replicate 4 (.run .a (.op false)),
      .run .a (.call .lock) :: List.replicate 2 (.run .a (.op false)),
      [.run .b (.call .unlock), .run .b (.op false)],
      .run .a (.call .condvarUnlock) :: List.replicate 5 (.run .a (.op false))])).get (by decide)

theorem typedMutex_ownership_waitingOwner :
    ((waitingOwner.loc .a).pc = .waiting 2 ∧
        (waitingOwner.loc .b).pc = .rest (some tronaInvalidOperation)) ∧
      Ownership .recursive Trio.number waitingOwner :=
  ⟨by decide, typedMutex_ownership rfl (by decide) (by decide) (Machine.steps_replay_get _)⟩

end Sync

end Trona
