import Mathlib.Algebra.Order.BigOperators.Group.Finset
import Trona.Lib.Threads

/-!
# The reader-writer lock

`RWLock` (`substrate/sync.rs`): the lock is in the word `state`, the number of readers or the
writer bit. Who cannot get it waits at the word `writer_wake`, which is incremented by those
who release the lock before they wake somebody. Readers also wait while `writer_waiting`, the
number of waiting writers, is not 0.

A thread that has found the lock held loads `writer_wake` only then. When the lock has been
released in between, the thread falls asleep although nobody is going to wake it
(`rwLock_stranded`). The same comes of a reader that is woken by the last reader and finds
that a writer is waiting, and of a wake-up call that reaches a thread with a limited time.
Without the two things no thread is left behind (`rwLock_notStranded`): threads fall asleep
only while the lock is held or a wake-up call is to come (`SleepsWhenHeld`), and the last
reader wakes a thread without a time limit if there is one.
-/

namespace Trona

namespace Sync

/-- `WRITER_BIT`. -/
def writerBit : ℕ := 2 ^ 31

/-- The words of the lock. -/
structure RwShared where
  state : ℕ
  writerWake : ℕ
  writerWaiting : ℕ
  deriving DecidableEq

/-- The places of a thread in the code of the lock. The ones of the functions with a limited
    time have names with `timed`. -/
inductive RwPc
  /-- Not in a call, with what the last one has returned. -/
  | outside (ret : Option Bool)
  /-- `read_lock`: at the loads of `state` and `writer_waiting`, and at the exchange. -/
  | readLoad
  | readWaiting (s : ℕ)
  | readCas (s : ℕ)
  /-- `read_lock`: at the load of `writer_wake` and at the futex wait. -/
  | readWakeLoad
  | readWait (wake : ℕ)
  | readAsleep
  /-- `read_unlock`: at the decrement, the increment of `writer_wake` and the futex wake. -/
  | readSub
  | readBump
  | readWake
  /-- `write_lock`: at the first exchange and the increment of `writer_waiting`. -/
  | writeFast
  | writeEnter
  /-- `write_lock`: at the exchange in the loop and the decrement of `writer_waiting`. -/
  | writeCas
  | writeLeave
  /-- `write_lock`: at the loads of `state` and `writer_wake`, and at the futex wait. -/
  | writeLoad
  | writeWakeLoad
  | writeWait (wake : ℕ)
  | writeAsleep
  /-- `write_unlock`: where the bit is cleared, at the increment of `writer_wake` and at the
      futex wake. -/
  | writeClear
  | writeBump
  | writeWake
  /-- `try_read_lock` and `try_write_lock`. -/
  | tryReadLoad
  | tryReadCas (s : ℕ)
  | tryWriteCas
  /-- `read_lock_timeout`: before the loop. -/
  | timedReadFastLoad
  | timedReadFastWaiting (s : ℕ)
  | timedReadFastCas (s : ℕ)
  /-- `read_lock_timeout`: in the loop. -/
  | timedReadLoad
  | timedReadWaiting (s : ℕ)
  | timedReadCas (s : ℕ)
  | timedReadCheck
  | timedReadWakeLoad
  | timedReadWait (wake : ℕ)
  | timedReadAsleep
  /-- `read_lock_timeout`: after the time is up. -/
  | timedReadLastLoad
  | timedReadLastCas (s : ℕ)
  /-- `write_lock_timeout`: before the loop. -/
  | timedWriteFast
  | timedWriteEnter
  /-- `write_lock_timeout`: in the loop, and at the decrement of `writer_waiting` before a
      result is returned. -/
  | timedWriteCas
  | timedWriteLoad
  | timedWriteCheck
  | timedWriteWakeLoad
  | timedWriteWait (wake : ℕ)
  | timedWriteAsleep
  | timedWriteLast
  | timedWriteLeave (ret : Bool)
  deriving DecidableEq

namespace RwPc

def isOutside : RwPc → Bool
  | outside _ => true
  | _ => false

/-- The place is one where a thread is asleep in `read_lock` or `write_lock`. -/
def isAsleepUntimed : RwPc → Bool
  | readAsleep | writeAsleep => true
  | _ => false

def isAsleep : RwPc → Bool
  | readAsleep | writeAsleep | timedReadAsleep | timedWriteAsleep => true
  | _ => false

/-- A thread there has released the lock and is still to make its wake-up call. -/
def wakes : RwPc → Bool
  | readBump | readWake | writeBump | writeWake => true
  | _ => false

/-- A thread there is awake in `read_lock` or `write_lock`, without the lock so far. -/
def acquires : RwPc → Bool
  | readLoad | readWaiting _ | readCas _ | readWakeLoad | readWait _ | writeFast | writeEnter
  | writeCas | writeLoad | writeWakeLoad | writeWait _ => true
  | _ => false

/-- A thread there is going to wake another one, or to take the lock if it stays free. -/
def cares (pc : RwPc) : Bool := pc.wakes || pc.acquires

end RwPc

/-- A thread: how many read locks it has, if it has the write lock, and where it is. -/
structure RwLoc where
  reads : ℕ
  writes : Bool
  pc : RwPc
  deriving DecidableEq

/-- The functions of the lock. -/
inductive RwCall
  | readLock
  | readUnlock
  | writeLock
  | writeUnlock
  | tryReadLock
  | tryWriteLock
  | readLockTimeout
  | writeLockTimeout
  deriving DecidableEq

namespace RwLoc

variable (l : RwLoc)

def goto (pc : RwPc) : RwLoc := { l with pc }

/-- Where a call begins. A thread only releases what it has. -/
def start : RwCall → Option RwLoc
  | .readLock => some (l.goto .readLoad)
  | .readUnlock => if 0 < l.reads then some (l.goto .readSub) else none
  | .writeLock => some (l.goto .writeFast)
  | .writeUnlock => if l.writes then some (l.goto .writeClear) else none
  | .tryReadLock => some (l.goto .tryReadLoad)
  | .tryWriteLock => some (l.goto .tryWriteCas)
  | .readLockTimeout => some (l.goto .timedReadFastLoad)
  | .writeLockTimeout => some (l.goto .timedWriteFast)

/-- The exchange that takes a read lock: where it leads if it succeeds and if it fails. -/
def exchangeRead (w : RwShared) (s : ℕ) (fails : Bool) (done failed : RwPc) : RwShared × RwLoc :=
  if w.state = s ∧ fails = false then
    ({ w with state := s + 1 }, { l with reads := l.reads + 1, pc := done })
  else (w, l.goto failed)

/-- The exchange that takes the write lock. -/
def exchangeWrite (w : RwShared) (fails : Bool) (done failed : RwPc) : RwShared × RwLoc :=
  if w.state = 0 ∧ fails = false then
    ({ w with state := writerBit }, { l with writes := true, pc := done })
  else (w, l.goto failed)

/-- The words are unsigned 32-bit numbers. -/
def incr (n : ℕ) : ℕ := (n + 1) % 2 ^ 32

def decr (n : ℕ) : ℕ := (n + 2 ^ 32 - 1) % 2 ^ 32

/-- The atomic operation at a place. The choice `b` is, at a weak exchange, that it fails for
    no reason; for a thread with a limited time, that its time is up. A futex wait compares
    `writer_wake` with the value that was loaded, and a thread that is asleep may go on at any
    time. -/
def step (b : Bool) (w : RwShared) : Option (RwShared × RwLoc) :=
  match l.pc with
  | .readLoad =>
    some (w, l.goto (if w.state < writerBit then .readWaiting w.state else .readWakeLoad))
  | .readWaiting s => some (w, l.goto (if w.writerWaiting = 0 then .readCas s else .readWakeLoad))
  | .readCas s => some (l.exchangeRead w s b (.outside none) .readLoad)
  | .readWakeLoad => some (w, l.goto (.readWait w.writerWake))
  | .readWait wake => some (w, l.goto (if w.writerWake = wake then .readAsleep else .readLoad))
  | .readAsleep => some (w, l.goto .readLoad)
  | .readSub => some ({ w with state := decr w.state },
      { l with reads := l.reads - 1, pc := if w.state = 1 then .readBump else .outside none })
  | .readBump => some ({ w with writerWake := incr w.writerWake }, l.goto .readWake)
  | .writeFast => some (l.exchangeWrite w b (.outside none) .writeEnter)
  | .writeEnter => some ({ w with writerWaiting := incr w.writerWaiting }, l.goto .writeCas)
  | .writeCas => some (l.exchangeWrite w b .writeLeave .writeLoad)
  | .writeLeave => some ({ w with writerWaiting := decr w.writerWaiting }, l.goto (.outside none))
  | .writeLoad => some (w, l.goto (if w.state = 0 then .writeCas else .writeWakeLoad))
  | .writeWakeLoad => some (w, l.goto (.writeWait w.writerWake))
  | .writeWait wake => some (w, l.goto (if w.writerWake = wake then .writeAsleep else .writeCas))
  | .writeAsleep => some (w, l.goto .writeCas)
  | .writeClear => some ({ w with state := w.state % writerBit },
      { l with writes := false, pc := .writeBump })
  | .writeBump => some ({ w with writerWake := incr w.writerWake }, l.goto .writeWake)
  | .tryReadLoad =>
    some (w, l.goto (if w.state < writerBit then .tryReadCas w.state else .outside (some false)))
  | .tryReadCas s => some (l.exchangeRead w s b (.outside (some true)) .tryReadLoad)
  | .tryWriteCas => some (l.exchangeWrite w false (.outside (some true)) (.outside (some false)))
  | .timedReadFastLoad => some (w, l.goto
      (if w.state < writerBit then .timedReadFastWaiting w.state else .timedReadLoad))
  | .timedReadFastWaiting s =>
    some (w, l.goto (if w.writerWaiting = 0 then .timedReadFastCas s else .timedReadLoad))
  | .timedReadFastCas s => some (l.exchangeRead w s b (.outside (some true)) .timedReadLoad)
  | .timedReadLoad =>
    some (w, l.goto (if w.state < writerBit then .timedReadWaiting w.state else .timedReadCheck))
  | .timedReadWaiting s =>
    some (w, l.goto (if w.writerWaiting = 0 then .timedReadCas s else .timedReadCheck))
  | .timedReadCas s => some (l.exchangeRead w s b (.outside (some true)) .timedReadLoad)
  | .timedReadCheck => some (w, l.goto (if b then .outside (some false) else .timedReadWakeLoad))
  | .timedReadWakeLoad => some (w, l.goto (.timedReadWait w.writerWake))
  | .timedReadWait wake =>
    some (w, l.goto (if w.writerWake = wake then .timedReadAsleep else .timedReadLoad))
  | .timedReadAsleep => some (w, l.goto (if b then .timedReadLastLoad else .timedReadLoad))
  | .timedReadLastLoad => some (w, l.goto
      (if w.state < writerBit then .timedReadLastCas w.state else .outside (some false)))
  | .timedReadLastCas s =>
    some (l.exchangeRead w s false (.outside (some true)) (.outside (some false)))
  | .timedWriteFast => some (l.exchangeWrite w b (.outside (some true)) .timedWriteEnter)
  | .timedWriteEnter =>
    some ({ w with writerWaiting := incr w.writerWaiting }, l.goto .timedWriteCas)
  | .timedWriteCas => some (l.exchangeWrite w b (.timedWriteLeave true) .timedWriteLoad)
  | .timedWriteLoad => some (w, l.goto (if w.state = 0 then .timedWriteCas else .timedWriteCheck))
  | .timedWriteCheck =>
    some (w, l.goto (if b then .timedWriteLeave false else .timedWriteWakeLoad))
  | .timedWriteWakeLoad => some (w, l.goto (.timedWriteWait w.writerWake))
  | .timedWriteWait wake =>
    some (w, l.goto (if w.writerWake = wake then .timedWriteAsleep else .timedWriteCas))
  | .timedWriteAsleep => some (w, l.goto (if b then .timedWriteLast else .timedWriteCas))
  | .timedWriteLast =>
    some (l.exchangeWrite w false (.timedWriteLeave true) (.timedWriteLeave false))
  | .timedWriteLeave ret =>
    some ({ w with writerWaiting := decr w.writerWaiting }, l.goto (.outside (some ret)))
  | .outside _ | .readWake | .writeWake => none

/-- The thread has the lock. -/
def holds : Bool := 0 < l.reads || l.writes

/-- Where a thread goes on when it is woken. -/
def roused : RwLoc :=
  match l.pc with
  | .readAsleep => l.goto .readLoad
  | .writeAsleep => l.goto .writeCas
  | .timedReadAsleep => l.goto .timedReadLoad
  | .timedWriteAsleep => l.goto .timedWriteCas
  | _ => l

end RwLoc

inductive RwChoice
  | call (call : RwCall)
  | op (b : Bool)

/-- Threads that use one lock. -/
def rwMachine (τ : Type) : Machine τ RwShared RwLoc RwChoice Unit where
  next _ c w l :=
    match c with
    | .call call => if l.pc.isOutside then (l.start call).map fun l' => (w, l') else none
    | .op b => l.step b w
  sleeping l := if l.pc.isAsleep then some () else none
  roused := RwLoc.roused
  waking l :=
    match l.pc with
    | .readWake => some ((), .one)
    | .writeWake => some ((), .all)
    | _ => none
  resumed l := l.goto (.outside none)

/-- At first the lock is free and no thread is in a call. -/
def rwInit (τ : Type) : Config τ RwShared RwLoc :=
  ⟨⟨0, 0, 0⟩, fun _ => ⟨0, false, .outside none⟩⟩

/-- No thread has the lock, all threads are outside of the functions or asleep, and one is
    asleep in `read_lock` or `write_lock`. -/
def RwStranded {τ : Type} (g : Config τ RwShared RwLoc) : Prop :=
  (∀ t, ¬(g.loc t).holds) ∧ (∀ t, (g.loc t).pc.isOutside ∨ (g.loc t).pc.isAsleep) ∧
    ∃ t, (g.loc t).pc.isAsleepUntimed

/-- A thread falls asleep in `read_lock` or `write_lock` only while the lock is held or a
    wake-up call is to come, and the wake-up call of the last reader wakes a thread that is
    asleep in one of them if there is any. -/
def SleepsWhenHeld {τ : Type} (g : Config τ RwShared RwLoc) : Act τ RwChoice → Prop
  | .run t (.op _) =>
    (g.loc t).pc = .readWait g.shared.writerWake ∨ (g.loc t).pc = .writeWait g.shared.writerWake →
      (∃ u, (g.loc u).holds) ∨ ∃ u, (g.loc u).pc.wakes
  | .wake t us =>
    (g.loc t).pc = .readWake → (∃ u, (g.loc u).pc.isAsleepUntimed) →
      ∃ u ∈ us, (g.loc u).pc.isAsleepUntimed
  | .run _ (.call _) => True

section

variable {τ : Type} [Fintype τ]

instance (g : Config τ RwShared RwLoc) : Decidable (RwStranded g) :=
  inferInstanceAs (Decidable (_ ∧ _ ∧ _))

instance (g : Config τ RwShared RwLoc) : (a : Act τ RwChoice) → Decidable (SleepsWhenHeld g a)
  | .run t (.op _) => inferInstanceAs (Decidable
    ((g.loc t).pc = .readWait g.shared.writerWake ∨ (g.loc t).pc = .writeWait g.shared.writerWake →
      (∃ u, (g.loc u).holds) ∨ ∃ u, (g.loc u).pc.wakes))
  | .wake t us => inferInstanceAs (Decidable
    ((g.loc t).pc = .readWake → (∃ u, (g.loc u).pc.isAsleepUntimed) →
      ∃ u ∈ us, (g.loc u).pc.isAsleepUntimed))
  | .run _ (.call _) => isTrue trivial

end

/-! ## Steps -/

/-- What the locks of a thread add to `state`. -/
def RwLoc.weight (l : RwLoc) : ℕ := l.reads + if l.writes then writerBit else 0

@[simp] theorem RwLoc.weight_goto (l : RwLoc) (pc : RwPc) : (l.goto pc).weight = l.weight := rfl

theorem RwLoc.holds_iff {l : RwLoc} : l.holds ↔ l.weight ≠ 0 := by
  cases h : l.writes <;> simp [holds, weight, h, writerBit, Nat.pos_iff_ne_zero]

/-- What is known where a thread is: it has what it is about to release, and no writer had the
    lock when a reader loaded `state`. -/
def RwLoc.Placed (l : RwLoc) : Prop :=
  match l.pc with
  | .readSub => 0 < l.reads
  | .writeClear => l.writes
  | .readWaiting s | .readCas s | .tryReadCas s | .timedReadFastWaiting s | .timedReadFastCas s
  | .timedReadWaiting s | .timedReadCas s | .timedReadLastCas s => s < writerBit
  | _ => True

/-- What a step can do: nothing to `state`; fall asleep; take or release the lock. -/
inductive RwMove (w : RwShared) (l : RwLoc) : RwShared → RwLoc → Prop
  | keep {w' : RwShared} {pc : RwPc} (hstate : w'.state = w.state) (hawake : ¬pc.isAsleepUntimed)
    (hcares : l.pc.cares → pc.cares) : RwMove w l w' (l.goto pc)
  | sleep {pc : RwPc} (hpc : l.pc = .readWait w.writerWake ∨ l.pc = .writeWait w.writerWake) :
    RwMove w l w (l.goto pc)
  | change {w' : RwShared} {l' : RwLoc} (hsum : l'.weight + w.state = l.weight + w'.state)
    (hle : w'.state ≤ writerBit) (hawake : ¬l'.pc.isAsleepUntimed)
    (hcares : w'.state ≠ 0 ∨ l'.pc.cares) : RwMove w l w' l'

section

variable {w w' : RwShared} {l l' : RwLoc} {s : ℕ} {b : Bool} {done failed : RwPc}

theorem RwLoc.exchangeRead_move (hlt : s < writerBit) (hdone : ¬done.isAsleepUntimed)
    (hfailed : ¬failed.isAsleepUntimed) (hcares : l.pc.cares → failed.cares) :
    RwMove w l (l.exchangeRead w s b done failed).1 (l.exchangeRead w s b done failed).2 := by
  rw [exchangeRead]
  split
  · obtain ⟨rfl, -⟩ := ‹w.state = s ∧ b = false›
    refine .change ?_ hlt hdone (.inl (Nat.succ_ne_zero _))
    simp only [weight]
    omega
  · exact .keep rfl hfailed hcares

theorem RwLoc.exchangeWrite_move (hweight : l.weight ≤ w.state) (hdone : ¬done.isAsleepUntimed)
    (hfailed : ¬failed.isAsleepUntimed) (hcares : l.pc.cares → failed.cares) :
    RwMove w l (l.exchangeWrite w b done failed).1 (l.exchangeWrite w b done failed).2 := by
  rw [exchangeWrite]
  split
  · obtain ⟨hfree, -⟩ := ‹w.state = 0 ∧ b = false›
    refine .change ?_ (le_refl _) hdone (.inl (show writerBit ≠ 0 by decide))
    cases hwrites : l.writes <;> simp_all [weight, writerBit]
  · exact .keep rfl hfailed hcares

/-- The beginning of a call is a move. -/
theorem RwLoc.start_move {call : RwCall} (hout : l.pc.isOutside) (h : l.start call = some l') :
    RwMove w l w l' ∧ l'.Placed := by
  have hcares : ¬l.pc.cares := by
    cases hpc : l.pc <;> simp_all [RwPc.isOutside, RwPc.cares, RwPc.wakes, RwPc.acquires]
  have hkeep : ∀ pc : RwPc, ¬pc.isAsleepUntimed → RwMove w l w (l.goto pc) := fun pc hpc =>
    .keep rfl hpc fun hc => absurd hc hcares
  cases call with
  | readUnlock | writeUnlock =>
    obtain ⟨hheld, heq⟩ := Option.ite_none_right_eq_some.1 h
    obtain rfl := Option.some.inj heq
    exact ⟨hkeep _ (by decide), hheld⟩
  | _ =>
    obtain rfl := Option.some.inj h
    exact ⟨hkeep _ (by decide), True.intro⟩

/-- Each atomic operation is a move. -/
theorem RwLoc.step_move (hplaced : l.Placed) (hweight : l.weight ≤ w.state)
    (hle : w.state ≤ writerBit) (h : l.step b w = some (w', l')) : RwMove w l w' l' := by
  rw [Placed] at hplaced
  cases hpc : l.pc <;> simp only [step, hpc] at h hplaced
  case readSub =>
    obtain ⟨rfl, rfl⟩ := step_inj h
    have hreads : l.reads ≤ l.weight := Nat.le_add_right ..
    have hdecr : decr w.state + 1 = w.state := by
      simp only [decr, writerBit] at *
      omega
    refine .change ?_ ?_ ?_ ?_
    · simp only [weight]
      omega
    · change decr w.state ≤ _
      omega
    · change ¬(if w.state = 1 then RwPc.readBump else .outside none).isAsleepUntimed
      split <;> decide
    · change decr w.state ≠ 0 ∨ (if w.state = 1 then RwPc.readBump else .outside none).cares
      split
      · exact .inr rfl
      · exact .inl (by omega)
  case writeClear =>
    obtain ⟨rfl, rfl⟩ := step_inj h
    have hbit : w.state = writerBit := by
      rw [weight, if_pos hplaced] at hweight
      omega
    refine .change ?_ (by simp [hbit]) (by simp [RwPc.isAsleepUntimed]) (.inr rfl)
    simp [weight, hplaced, hbit]
  case outside | readWake | writeWake => cases h
  case readCas | tryReadCas | timedReadFastCas | timedReadCas | timedReadLastCas =>
    obtain ⟨rfl, rfl⟩ := step_inj h
    exact exchangeRead_move hplaced (by decide) (by decide)
      (by simp [hpc, RwPc.cares, RwPc.wakes, RwPc.acquires])
  case writeFast | writeCas | tryWriteCas | timedWriteFast | timedWriteCas | timedWriteLast =>
    obtain ⟨rfl, rfl⟩ := step_inj h
    exact exchangeWrite_move hweight (by decide) (by decide)
      (by simp [hpc, RwPc.cares, RwPc.wakes, RwPc.acquires])
  case readWait | writeWait =>
    obtain ⟨rfl, rfl⟩ := step_inj h
    split
    · subst_vars
      exact .sleep (by simp [hpc])
    · exact .keep rfl (by decide) (by simp [hpc, RwPc.cares, RwPc.wakes, RwPc.acquires])
  -- The other operations read or note something, and a thread may go on in two ways.
  all_goals
    obtain ⟨rfl, rfl⟩ := step_inj h
    (try split) <;> exact .keep rfl (by simp [RwPc.isAsleepUntimed])
      (by simp [hpc, RwPc.cares, RwPc.wakes, RwPc.acquires])

/-- What is known where a thread is stays known. -/
theorem RwLoc.step_placed (hplaced : l.Placed) (h : l.step b w = some (w', l')) : l'.Placed := by
  rw [Placed] at hplaced
  cases hpc : l.pc <;> simp only [step, hpc] at h hplaced
  case outside | readWake | writeWake => cases h
  case readLoad | tryReadLoad | timedReadFastLoad | timedReadLoad | timedReadLastLoad =>
    obtain ⟨rfl, rfl⟩ := step_inj h
    split
    · exact ‹w.state < writerBit›
    · exact True.intro
  case readWaiting | timedReadFastWaiting | timedReadWaiting =>
    obtain ⟨rfl, rfl⟩ := step_inj h
    split
    · exact hplaced
    · exact True.intro
  case readCas | tryReadCas | timedReadFastCas | timedReadCas | timedReadLastCas =>
    rw [exchangeRead] at h
    split at h <;> obtain ⟨rfl, rfl⟩ := step_inj h <;> exact True.intro
  case writeFast | writeCas | tryWriteCas | timedWriteFast | timedWriteCas | timedWriteLast =>
    rw [exchangeWrite] at h
    split at h <;> obtain ⟨rfl, rfl⟩ := step_inj h <;> exact True.intro
  case readSub =>
    obtain ⟨rfl, rfl⟩ := step_inj h
    by_cases hlast : w.state = 1 <;> simp [Placed, hlast]
  all_goals
    obtain ⟨rfl, rfl⟩ := step_inj h
    (try split) <;> exact True.intro

end

/-! ## Runs -/

/-- `state` counts the locks that the threads have. -/
structure RwHeld {τ : Type} [Fintype τ] (g : Config τ RwShared RwLoc) : Prop where
  sum : g.shared.state = ∑ t, (g.loc t).weight
  le : g.shared.state ≤ writerBit
  placed : ∀ t, (g.loc t).Placed

/-- When a thread is asleep without a time limit, then the lock is held or a thread cares. -/
structure RwInv {τ : Type} [Fintype τ] (g : Config τ RwShared RwLoc) : Prop extends RwHeld g where
  awake : (∃ t, (g.loc t).pc.isAsleepUntimed) → g.shared.state ≠ 0 ∨ ∃ t, (g.loc t).pc.cares

section

variable {τ : Type} [Fintype τ] [DecidableEq τ] {g : Config τ RwShared RwLoc} {t : τ} {w : RwShared}
  {l : RwLoc}

theorem RwLoc.weight_roused : l.roused.weight = l.weight := by
  rw [roused]
  split <;> rfl

theorem RwLoc.placed_roused (h : l.Placed) : l.roused.Placed := by
  rw [roused]
  split <;> first | exact True.intro | exact h

namespace RwHeld

variable (h : RwHeld g)

include h

omit [DecidableEq τ] in
theorem weight_le (t : τ) : (g.loc t).weight ≤ g.shared.state := by
  rw [h.sum]
  exact Finset.single_le_sum (fun u _ => Nat.zero_le (g.loc u).weight) (Finset.mem_univ t)

/-- Moves keep the count. -/
theorem set (hm : RwMove g.shared (g.loc t) w l) (hl : l.Placed) : RwHeld (g.set t w l) := by
  have hsum := @Config.sum_set _ _ _ _ g t w l _ RwLoc.weight
  rw [← h.sum] at hsum
  have hplaced := @Config.forall_set _ _ _ _ g t w l RwLoc.Placed h.placed hl
  cases hm with
  | keep hstate =>
    refine ⟨?_, hstate.trans_le h.le, hplaced⟩
    rw [RwLoc.weight_goto] at hsum
    rw [Config.set_shared]
    omega
  | sleep =>
    refine ⟨?_, h.le, hplaced⟩
    rw [RwLoc.weight_goto] at hsum
    rw [Config.set_shared]
    omega
  | change hsum' hle =>
    refine ⟨?_, hle, hplaced⟩
    rw [Config.set_shared]
    omega

omit [DecidableEq τ] in
/-- Each step of a thread is a move. -/
theorem next {c : RwChoice} (hnext : (rwMachine τ).next t c g.shared (g.loc t) = some (w, l)) :
    RwMove g.shared (g.loc t) w l ∧ l.Placed := by
  cases c with
  | call call =>
    obtain ⟨hout, hmap⟩ := Option.ite_none_right_eq_some.1 hnext
    obtain ⟨l', hstart, rfl, rfl⟩ := mapped_inj hmap
    exact RwLoc.start_move hout hstart
  | op b =>
    exact ⟨RwLoc.step_move (h.placed t) (h.weight_le t) h.le hnext,
      RwLoc.step_placed (h.placed t) hnext⟩

/-- Wake-up calls keep the count. -/
theorem wakeUp {us : Finset τ} : RwHeld ((rwMachine τ).wakeUp g t us) where
  sum := h.sum.trans
    (Machine.sum_wakeUp RwLoc.weight (RwLoc.weight_goto _ _) fun _ _ => RwLoc.weight_roused).symm
  le := h.le
  placed := Machine.forall_wakeUp h.placed True.intro fun _ _ => RwLoc.placed_roused

end RwHeld

/-- In every run `state` counts the locks. -/
theorem rwHeld_steps {C : Config τ RwShared RwLoc → Act τ RwChoice → Prop}
    (h : (rwMachine τ).Steps C (rwInit τ) g) : RwHeld g := by
  refine h.invariant (I := RwHeld) ?_ ?_ ⟨by simp [rwInit, RwLoc.weight], by simp [rwInit], ?_⟩
  · intro g t c w l hg _ hnext
    obtain ⟨hmove, hplaced⟩ := hg.next hnext
    exact hg.set hmove hplaced
  · exact fun _ _ _ _ _ hg _ _ _ => hg.wakeUp
  · exact fun _ => True.intro

omit [DecidableEq τ] in
/-- The lock is held exactly when `state` is not 0. -/
theorem RwInv.state_ne_zero_iff (h : RwInv g) : g.shared.state ≠ 0 ↔ ∃ t, (g.loc t).holds := by
  simp only [h.sum, RwLoc.holds_iff, ne_eq, Finset.sum_eq_zero_iff, Finset.mem_univ, true_imp_iff,
    not_forall]

/-- Moves keep the invariant, if the threads fall asleep only when they may. -/
theorem RwInv.set (h : RwInv g) (hm : RwMove g.shared (g.loc t) w l) (hl : l.Placed)
    (hsleeps : (g.loc t).pc = .readWait g.shared.writerWake ∨
        (g.loc t).pc = .writeWait g.shared.writerWake →
      (∃ u, (g.loc u).holds) ∨ ∃ u, (g.loc u).pc.wakes) : RwInv (g.set t w l) := by
  -- a thread that is asleep afterwards was asleep before
  have hbefore : ¬l.pc.isAsleepUntimed → (∃ u, ((g.set t w l).loc u).pc.isAsleepUntimed) →
      ∃ u, (g.loc u).pc.isAsleepUntimed := by
    rintro hl ⟨u, hu⟩
    have hut : u ≠ t := by
      rintro rfl
      rw [Config.set_loc_self] at hu
      exact hl hu
    exact ⟨u, by rwa [Config.set_loc_of_ne g hut] at hu⟩
  refine ⟨h.toRwHeld.set hm hl, fun hasleep => ?_⟩
  cases hm with
  | keep hstate hawake hcares =>
    exact (h.awake (hbefore hawake hasleep)).imp hstate.trans_ne fun hc =>
      @Config.exists_set _ _ _ _ g t w _ (fun l => l.pc.cares) hc hcares
  | sleep hpc =>
    rcases hsleeps hpc with hholds | ⟨u, hu⟩
    · exact .inl (h.state_ne_zero_iff.2 hholds)
    · have hut : u ≠ t := by
        rintro rfl
        rcases hpc with hpc | hpc <;> rw [hpc] at hu <;> cases hu
      exact .inr ⟨u, by rw [Config.set_loc_of_ne g hut, RwPc.cares, hu]; rfl⟩
  | change hsum hle hawake hcares =>
    refine hcares.imp_right fun hc => ⟨t, ?_⟩
    rwa [Config.set_loc_self]

omit [Fintype τ] [DecidableEq τ] in
theorem rwMachine_sleeping : (rwMachine τ).sleeping l = some () ↔ l.pc.isAsleep := by
  simp [rwMachine]

theorem RwPc.isAsleep_of_untimed {pc : RwPc} (h : pc.isAsleepUntimed) : pc.isAsleep := by
  cases pc <;> first | rfl | cases h

/-- A thread that cares is in a call and awake. -/
theorem RwPc.not_cares {pc : RwPc} (h : pc.isOutside ∨ pc.isAsleep) : ¬pc.cares := by
  cases pc <;> simp_all [isOutside, isAsleep, cares, wakes, acquires]

theorem RwLoc.cares_roused (h : l.pc.isAsleepUntimed) : l.roused.pc.cares := by
  rw [roused]
  split
  all_goals first | rfl | simp_all [RwPc.isAsleepUntimed]

theorem RwLoc.not_asleep_roused (h : l.pc.isAsleep) : ¬l.roused.pc.isAsleepUntimed := by
  cases hpc : l.pc <;> simp_all [roused, goto, RwPc.isAsleep, RwPc.isAsleepUntimed]

/-- Wake-up calls keep the invariant, if the last reader wakes a thread without a time limit
    when there is one. -/
theorem RwInv.wakeUp {us : Finset τ} {n : Amount} {f : Unit} (h : RwInv g)
    (hwaking : (rwMachine τ).waking (g.loc t) = some (f, n))
    (hwakes : n.Wakes us ((rwMachine τ).sleepers g f))
    (hlast : (g.loc t).pc = .readWake → (∃ u, (g.loc u).pc.isAsleepUntimed) →
      ∃ u ∈ us, (g.loc u).pc.isAsleepUntimed) : RwInv ((rwMachine τ).wakeUp g t us) := by
  have hasleep : ∀ u ∈ us, (g.loc u).pc.isAsleep := fun u hu =>
    rwMachine_sleeping.1 (Machine.mem_sleepers.1 (hwakes.subset hu))
  -- the thread that makes the call is not asleep
  have hpc : ((g.loc t).pc = .readWake ∧ n = .one) ∨ ((g.loc t).pc = .writeWake ∧ n = .all) := by
    simp only [rwMachine] at hwaking
    split at hwaking
    · exact .inl ⟨‹_›, (step_inj hwaking).2.symm⟩
    · exact .inr ⟨‹_›, (step_inj hwaking).2.symm⟩
    · cases hwaking
  have hne : ∀ u ∈ us, u ≠ t := by
    rintro u hu rfl
    have := hasleep u hu
    rcases hpc with ⟨hpc, -⟩ | ⟨hpc, -⟩ <;> rw [hpc] at this <;> cases this
  have hloc : ∀ u, ((rwMachine τ).wakeUp g t us).loc u =
      if u = t then (g.loc t).goto (.outside none)
      else if u ∈ us then (g.loc u).roused else g.loc u := fun _ => rfl
  refine ⟨h.toRwHeld.wakeUp, ?_⟩
  rintro ⟨u, hu⟩
  -- a thread that is asleep afterwards was asleep before, and was not woken
  have hbefore : (g.loc u).pc.isAsleepUntimed ∧ u ∉ us := by
    rw [hloc] at hu
    split at hu
    · cases hu
    · split at hu
      · exact absurd hu (RwLoc.not_asleep_roused (hasleep u ‹_›))
      · exact ⟨hu, ‹_›⟩
  rcases hpc with ⟨hpc, -⟩ | ⟨-, rfl⟩
  · obtain ⟨v, hv, hasleep'⟩ := hlast hpc ⟨u, hbefore.1⟩
    refine .inr ⟨v, ?_⟩
    rw [hloc, if_neg (hne v hv), if_pos hv]
    exact RwLoc.cares_roused hasleep'
  · have hmem : u ∈ (rwMachine τ).sleepers g f :=
      Machine.mem_sleepers.2 (rwMachine_sleeping.2 (RwPc.isAsleep_of_untimed hbefore.1))
    rw [← show us = _ from hwakes] at hmem
    exact absurd hmem hbefore.2

theorem rwInv_steps (h : (rwMachine τ).Steps SleepsWhenHeld (rwInit τ) g) : RwInv g := by
  refine h.invariant (I := RwInv) ?_ ?_ ⟨rwHeld_steps (C := SleepsWhenHeld) .refl, ?_⟩
  · intro g t c w l hg hsleeps hnext
    obtain ⟨hmove, hplaced⟩ := hg.toRwHeld.next hnext
    refine hg.set hmove hplaced ?_
    cases c with
    | call call =>
      obtain ⟨hout, -⟩ := Option.ite_none_right_eq_some.1 hnext
      rintro (hpc | hpc) <;> rw [hpc] at hout <;> cases hout
    | op b => exact hsleeps
  · intro g t us f n hg hlast hwaking hwakes
    exact hg.wakeUp hwaking hwakes hlast
  · rintro ⟨t, ht⟩
    cases ht

/-- In every run of any number of threads in which threads fall asleep without a time limit
    only while the lock is held or a wake-up call is to come, and the last reader wakes one of
    them if there is any: no thread is stranded. -/
theorem rwLock_notStranded (h : (rwMachine τ).Steps SleepsWhenHeld (rwInit τ) g) :
    ¬RwStranded g := by
  have hinv := rwInv_steps h
  rintro ⟨hfree, hrest, hasleep⟩
  rcases hinv.awake hasleep with hstate | ⟨t, ht⟩
  · obtain ⟨t, ht⟩ := hinv.state_ne_zero_iff.1 hstate
    exact hfree t ht
  · exact RwPc.not_cares (hrest t) ht

end

/-- A thread makes a call, and some steps in it. -/
def callAndOps (t : Trio) (call : RwCall) (ops : ℕ) : List (Act Trio RwChoice) :=
  .run t (.call call) :: List.replicate ops (.run t (.op false))

/-- A thread has the write lock, and another one is asleep in `read_lock`. -/
def readerAsleep : Config Trio RwShared RwLoc :=
  ((rwMachine Trio).replay SleepsWhenHeld (rwInit Trio)
    (callAndOps .a .writeLock 1 ++ callAndOps .b .readLock 3 ++ callAndOps .a .writeUnlock 1)).get
    (by decide)

theorem rwLock_notStranded_readerAsleep :
    ((readerAsleep.loc .b).pc = .readAsleep ∧ (readerAsleep.loc .a).pc = .writeBump) ∧
      ¬RwStranded readerAsleep :=
  ⟨by decide, rwLock_notStranded (Machine.steps_replay_get _)⟩

/-- A reader finds that a writer has the lock. The writer releases it, and its wake-up call
    finds nobody. Then the reader loads `writer_wake`, and falls asleep. -/
def loadedLate : Config Trio RwShared RwLoc :=
  ((rwMachine Trio).replay (fun _ _ => True) (rwInit Trio)
    (List.flatten [callAndOps .a .writeLock 1, callAndOps .b .readLock 1,
      callAndOps .a .writeUnlock 2,
      [.wake .a ∅, .run .b (.op false), .run .b (.op false)]])).get (by decide)

/-- A thread has a read lock, a writer is asleep, and a reader too since the writer waits. The
    lock is released, and the reader is woken. It finds that the writer waits, and falls
    asleep again, or its time is up. -/
def readerWokenActs (timed : Bool) : List (Act Trio RwChoice) :=
  List.flatten [callAndOps .a .readLock 3, callAndOps .b .writeLock 6,
    if timed then callAndOps .c .readLockTimeout 7 else callAndOps .c .readLock 4,
    callAndOps .a .readUnlock 2, [.wake .a {.c}, .run .c (.op false), .run .c (.op false)],
    if timed then [.run .c (.op true)] else [.run .c (.op false), .run .c (.op false)]]

def readerWoken (timed : Bool) : Config Trio RwShared RwLoc :=
  ((rwMachine Trio).replay (fun _ _ => True) (rwInit Trio) (readerWokenActs timed)).get
    (by cases timed <;> decide +kernel)

/-- Nobody is going to wake the reader that has loaded `writer_wake` too late, and nobody the
    writer when the last reader has woken another reader. -/
theorem rwLock_stranded :
    ((rwMachine Trio).Steps (fun _ _ => True) (rwInit Trio) loadedLate ∧ RwStranded loadedLate) ∧
      ∀ timed, (rwMachine Trio).Steps (fun _ _ => True) (rwInit Trio) (readerWoken timed) ∧
        RwStranded (readerWoken timed) := by
  refine ⟨⟨Machine.steps_replay_get _, by decide⟩, fun timed => ⟨Machine.steps_replay_get _, ?_⟩⟩
  cases timed <;> decide

end Sync

end Trona
