import Mathlib.Algebra.BigOperators.Group.Finset.Piecewise
import Mathlib.Algebra.Group.Action.Defs
import Mathlib.Data.Fintype.Card
import Trona.Substrate.Sync.RwLock

/-!
# Exclusion by the reader-writer lock

The lock word of an `RWLock` is the number of read locks, or the writer bit: a writer has the
lock alone. This needs nothing of the threads but that they release what they have, and fewer
than 2³¹ read locks (`rwLock_exclusion`). The word `writer_waiting` is the number of the
threads between its increment and its decrement in `write_lock` or `write_lock_timeout`.

Both are numbers of 32 bits. A thread that takes the read lock twice is counted twice, and the
number of waiting writers is the one modulo 2³² (`rwLock_miscounts`).
-/

namespace Trona

namespace Sync

/-- A thread there is in the slow path of `write_lock` or `write_lock_timeout`: it has
    incremented `writer_waiting` and not yet decremented it. -/
def RwPc.waits : RwPc → Bool
  | writeCas | writeLeave | writeLoad | writeWakeLoad | writeWait _ | writeAsleep
  | timedWriteCas | timedWriteLoad | timedWriteCheck | timedWriteWakeLoad | timedWriteWait _
  | timedWriteAsleep | timedWriteLast | timedWriteLeave _ => true
  | _ => false

section

variable {τ : Type} [Fintype τ] (g : Config τ RwShared RwLoc)

/-- How many read locks the threads have together. -/
def readLocks : ℕ := ∑ t, (g.loc t).reads

def readers : Finset τ := {t | 0 < (g.loc t).reads}

def writers : Finset τ := {t | (g.loc t).writes}

/-- The threads in the slow path of `write_lock` or `write_lock_timeout`. -/
def waitingWriters : Finset τ := {t | (g.loc t).pc.waits}

/-- What the words say of the threads, and that a writer has the lock alone. -/
structure RwExclusion : Prop where
  bit : g.shared.state.testBit 31 ↔ ∃! t, (g.loc t).writes
  reads : g.shared.state % 2 ^ 31 = readLocks g
  readers : (∀ t, (g.loc t).reads ≤ 1) → g.shared.state % 2 ^ 31 = (readers g).card
  alone : ∀ t, (g.loc t).writes → ∀ u, (g.loc u).reads = 0 ∧ ((g.loc u).writes → u = t)
  waiting : g.shared.writerWaiting = (waitingWriters g).card % 2 ^ 32

end

/-! ## The waiting writers -/

/-- What a step does to `writer_waiting`: a thread enters the slow path, leaves it, or neither. -/
inductive WaitMove (w : RwShared) (pc : RwPc) (w' : RwShared) (pc' : RwPc) : Prop
  | keep (hwaiting : w'.writerWaiting = w.writerWaiting) (hpc : pc'.waits = pc.waits)
  | enter (hwaiting : w'.writerWaiting = RwLoc.incr w.writerWaiting) (hpc : pc.waits = false)
    (hpc' : pc'.waits = true)
  | leave (hwaiting : w'.writerWaiting = RwLoc.decr w.writerWaiting) (hpc : pc.waits = true)
    (hpc' : pc'.waits = false)

section

variable {w w' : RwShared} {l l' : RwLoc} {s : ℕ} {b : Bool} {done failed : RwPc}

theorem RwLoc.exchangeRead_waitMove (hdone : done.waits = l.pc.waits)
    (hfailed : failed.waits = l.pc.waits) :
    WaitMove w l.pc (l.exchangeRead w s b done failed).1
      (l.exchangeRead w s b done failed).2.pc := by
  rw [exchangeRead]
  split
  · exact .keep rfl hdone
  · exact .keep rfl hfailed

theorem RwLoc.exchangeWrite_waitMove (hdone : done.waits = l.pc.waits)
    (hfailed : failed.waits = l.pc.waits) :
    WaitMove w l.pc (l.exchangeWrite w b done failed).1 (l.exchangeWrite w b done failed).2.pc := by
  rw [exchangeWrite]
  split
  · exact .keep rfl hdone
  · exact .keep rfl hfailed

theorem RwLoc.start_waits {call : RwCall} (h : l.start call = some l') : l'.pc.waits = false := by
  cases call with
  | readUnlock | writeUnlock =>
    obtain ⟨-, heq⟩ := Option.ite_none_right_eq_some.1 h
    obtain rfl := Option.some.inj heq
    rfl
  | _ =>
    obtain rfl := Option.some.inj h
    rfl

theorem RwPc.not_waits_of_isOutside {pc : RwPc} (h : pc.isOutside) : pc.waits = false := by
  cases pc <;> first | rfl | cases h

/-- Each atomic operation counts its thread as it should. -/
theorem RwLoc.step_waitMove (h : l.step b w = some (w', l')) : WaitMove w l.pc w' l'.pc := by
  cases hpc : l.pc <;> simp only [step, hpc] at h
  case outside | readWake | writeWake => cases h
  case writeEnter | timedWriteEnter =>
    obtain ⟨rfl, rfl⟩ := step_inj h
    exact .enter rfl rfl rfl
  case writeLeave | timedWriteLeave =>
    obtain ⟨rfl, rfl⟩ := step_inj h
    exact .leave rfl rfl rfl
  case readCas | tryReadCas | timedReadFastCas | timedReadCas | timedReadLastCas =>
    obtain ⟨rfl, rfl⟩ := step_inj h
    exact hpc ▸ exchangeRead_waitMove (by rw [hpc]; rfl) (by rw [hpc]; rfl)
  case writeFast | writeCas | tryWriteCas | timedWriteFast | timedWriteCas | timedWriteLast =>
    obtain ⟨rfl, rfl⟩ := step_inj h
    exact hpc ▸ exchangeWrite_waitMove (by rw [hpc]; rfl) (by rw [hpc]; rfl)
  all_goals
    obtain ⟨rfl, rfl⟩ := step_inj h
    refine .keep rfl ?_
    (try split) <;> rfl

theorem RwLoc.waits_roused : l.roused.pc.waits = l.pc.waits := by
  rw [roused]
  split <;> simp [goto, RwPc.waits, *]

end

section

variable {τ : Type} [Fintype τ] [DecidableEq τ] {g : Config τ RwShared RwLoc}
  {C : Config τ RwShared RwLoc → Act τ RwChoice → Prop}

omit [DecidableEq τ] in
theorem card_waitingWriters : (waitingWriters g).card = ∑ t, (g.loc t).pc.waits.toNat := by
  rw [waitingWriters, Finset.card_filter]
  refine Finset.sum_congr rfl fun t _ => ?_
  cases (g.loc t).pc.waits <;> rfl

/-- The steps of threads keep the number of waiting writers right. -/
theorem writerWaiting_set {t : τ} {w : RwShared} {l : RwLoc}
    (hg : g.shared.writerWaiting = (waitingWriters g).card % 2 ^ 32)
    (hm : WaitMove g.shared (g.loc t).pc w l.pc) :
    w.writerWaiting = (waitingWriters (g.set t w l)).card % 2 ^ 32 := by
  have hsum := @Config.sum_set _ _ _ _ g t w l _ fun l => l.pc.waits.toNat
  rw [card_waitingWriters] at hg ⊢
  cases hm with
  | keep hwaiting hpc =>
    rw [hpc] at hsum
    omega
  | enter hwaiting hpc hpc' =>
    simp only [hpc, hpc', Bool.toNat_true, Bool.toNat_false] at hsum
    rw [hwaiting, hg, RwLoc.incr]
    omega
  | leave hwaiting hpc hpc' =>
    simp only [hpc, hpc', Bool.toNat_true, Bool.toNat_false] at hsum
    rw [hwaiting, hg, RwLoc.decr]
    omega

/-- In every run `writer_waiting` is the number of waiting writers, modulo 2³². -/
theorem writerWaiting_steps (h : (rwMachine τ).Steps C (rwInit τ) g) :
    g.shared.writerWaiting = (waitingWriters g).card % 2 ^ 32 := by
  refine h.invariant (I := fun g => g.shared.writerWaiting = (waitingWriters g).card % 2 ^ 32)
    ?_ ?_ ?_
  · intro g t c w l hg _ hnext
    refine writerWaiting_set hg ?_
    cases c with
    | call call =>
      obtain ⟨hout, hmap⟩ := Option.ite_none_right_eq_some.1 hnext
      obtain ⟨l', hstart, rfl, rfl⟩ := mapped_inj hmap
      exact .keep rfl ((RwLoc.start_waits hstart).trans (RwPc.not_waits_of_isOutside hout).symm)
    | op b => exact RwLoc.step_waitMove hnext
  · intro g t us f n hg _ hwaking _
    have hpc : (g.loc t).pc.waits = false := by
      simp only [rwMachine] at hwaking
      split at hwaking <;> simp_all [RwPc.waits]
    rw [Machine.wakeUp_shared, hg, card_waitingWriters, card_waitingWriters]
    refine congrArg (· % _) (Machine.sum_wakeUp (fun l : RwLoc => l.pc.waits.toNat) ?_ ?_).symm
    · rw [hpc]
      rfl
    · intro u _
      exact congrArg Bool.toNat RwLoc.waits_roused
  · rw [card_waitingWriters]
    simp [rwInit, RwPc.waits]

/-! ## Exclusion -/

omit [DecidableEq τ] in
@[simp] theorem mem_writers {t : τ} : t ∈ writers g ↔ (g.loc t).writes := Finset.mem_filter_univ t

omit [DecidableEq τ] in
/-- The read locks are as many as the readers, if nobody has two of them. -/
theorem readLocks_eq_card (hone : ∀ t, (g.loc t).reads ≤ 1) : readLocks g = (readers g).card := by
  rw [readLocks, readers, Finset.card_filter]
  refine Finset.sum_congr rfl fun t _ => ?_
  have ht := hone t
  split <;> omega

omit [DecidableEq τ] in
theorem RwHeld.state_eq (h : RwHeld g) :
    g.shared.state = readLocks g + (writers g).card * writerBit := by
  rw [h.sum, readLocks, writers, ← smul_eq_mul, ← Finset.sum_const, Finset.sum_filter,
    ← Finset.sum_add_distrib]
  rfl

omit [DecidableEq τ] in
/-- The lock has readers, or one writer. -/
theorem RwHeld.readers_or_writer (h : RwHeld g) (hfew : readLocks g < writerBit) :
    (writers g = ∅ ∧ g.shared.state = readLocks g) ∨
      ((∃ t, writers g = {t}) ∧ readLocks g = 0 ∧ g.shared.state = writerBit) := by
  have hstate := h.state_eq
  have hle := h.le
  simp only [writerBit] at *
  rcases Nat.eq_zero_or_pos (writers g).card with hzero | hpos
  · exact .inl ⟨Finset.card_eq_zero.1 hzero, by omega⟩
  · exact .inr ⟨Finset.card_eq_one.1 (by omega), by omega, by omega⟩

/-- In every state of a run with fewer than 2³¹ - 1 read locks: the words are the numbers of
    the readers, the writers and the waiting writers, and a writer is alone. -/
theorem rwLock_exclusion (h : (rwMachine τ).Steps (fun _ _ => True) (rwInit τ) g)
    (hfew : readLocks g < 2 ^ 31 - 1) : RwExclusion g := by
  have hcases := (rwHeld_steps h).readers_or_writer (hfew.trans (by decide))
  have hreads : g.shared.state % 2 ^ 31 = readLocks g := by
    rcases hcases with ⟨-, hstate⟩ | ⟨-, hnone, hstate⟩
    · omega
    · rw [hstate, hnone]
      rfl
  refine ⟨?_, hreads, fun hone => hreads.trans (readLocks_eq_card hone), fun t ht u => ?_,
    writerWaiting_steps h⟩
  · rcases hcases with ⟨hwriters, hstate⟩ | ⟨⟨t, hwriters⟩, -, hstate⟩
    · rw [hstate, Nat.testBit_lt_two_pow (hfew.trans (by decide))]
      refine iff_of_false Bool.false_ne_true ?_
      rintro ⟨t, ht, -⟩
      exact Finset.eq_empty_iff_forall_notMem.1 hwriters t (mem_writers.2 ht)
    · rw [hstate]
      refine iff_of_true rfl ⟨t, ?_, fun u hu => ?_⟩
      · exact mem_writers.1 (hwriters ▸ Finset.mem_singleton_self t)
      · exact Finset.mem_singleton.1 (hwriters ▸ mem_writers.2 hu)
  · rcases hcases with ⟨hwriters, -⟩ | ⟨⟨v, hwriters⟩, hnone, -⟩
    · exact absurd (mem_writers.2 ht) (Finset.eq_empty_iff_forall_notMem.1 hwriters t)
    · have honly : ∀ x, (g.loc x).writes → x = v := fun x hx =>
        Finset.mem_singleton.1 (hwriters ▸ mem_writers.2 hx)
      refine ⟨?_, fun hu => (honly u hu).trans (honly t ht).symm⟩
      exact Finset.sum_eq_zero_iff.1 hnone u (Finset.mem_univ u)

end

/-- A thread has the write lock, and another one waits for it. -/
def writerAndWaiting : Config Trio RwShared RwLoc :=
  ((rwMachine Trio).replay (fun _ _ => True) (rwInit Trio)
    (callAndOps .a .writeLock 1 ++ callAndOps .b .writeLock 6)).get (by decide)

theorem rwLock_exclusion_waiting :
    (writerAndWaiting.shared = ⟨writerBit, 0, 1⟩ ∧ writers writerAndWaiting = {.a} ∧
      waitingWriters writerAndWaiting = {.b} ∧ readLocks writerAndWaiting < 2 ^ 31 - 1) ∧
      RwExclusion writerAndWaiting :=
  ⟨by decide, rwLock_exclusion (Machine.steps_replay_get _) (by decide)⟩

/-! ## Two read locks of one thread, and 2³² waiting writers -/

/-- A thread takes the read lock twice. -/
def readTwice : Config Trio RwShared RwLoc :=
  ((rwMachine Trio).replay (fun _ _ => True) (rwInit Trio)
    (callAndOps .a .readLock 3 ++ callAndOps .a .readLock 3)).get (by decide)

section

variable {τ : Type} [Fintype τ] [DecidableEq τ]

/-- Some threads are at the exchange in the loop of `write_lock`, after a first one that has
    failed for no reason; the others have not made a call. -/
def entered (us : Finset τ) (waiting : ℕ) : Config τ RwShared RwLoc :=
  ⟨⟨0, 0, waiting⟩, fun u => ⟨0, false, if u ∈ us then .writeCas else .outside none⟩⟩

theorem readLocks_entered (us : Finset τ) (waiting : ℕ) : readLocks (entered us waiting) = 0 :=
  Finset.sum_const_zero

theorem waitingWriters_entered (us : Finset τ) (waiting : ℕ) :
    waitingWriters (entered us waiting) = us := by
  ext u
  rw [waitingWriters, Finset.mem_filter_univ]
  change (if u ∈ us then RwPc.writeCas else .outside none).waits ↔ u ∈ us
  split <;> simp [RwPc.waits, *]

/-- Any number of threads may be there. -/
theorem steps_entered (us : Finset τ) :
    ∃ waiting, (rwMachine τ).Steps (fun _ _ => True) (rwInit τ) (entered us waiting) := by
  induction us using Finset.induction_on with
  | empty => exact ⟨0, .refl⟩
  | insert t us ht ih =>
    obtain ⟨waiting, hsteps⟩ := ih
    refine ⟨RwLoc.incr waiting, ?_⟩
    have hloc : (entered us waiting).loc t = ⟨0, false, .outside none⟩ := by simp [entered, ht]
    have hcall := hsteps.run (c := .call .writeLock) trivial (s := ⟨0, 0, waiting⟩)
      (l := ⟨0, false, .writeFast⟩) (by rw [hloc]; rfl)
    have hfails := hcall.run (t := t) (c := .op true) trivial (s := ⟨0, 0, waiting⟩)
      (l := ⟨0, false, .writeEnter⟩) (by rw [Config.set_loc_self]; rfl)
    have henter := hfails.run (t := t) (c := .op false) trivial (s := ⟨0, 0, RwLoc.incr waiting⟩)
      (l := ⟨0, false, .writeCas⟩) (by rw [Config.set_loc_self]; rfl)
    rw [Config.set_set, Config.set_set] at henter
    have hset : (entered us waiting).set t ⟨0, 0, RwLoc.incr waiting⟩ ⟨0, false, .writeCas⟩ =
        entered (insert t us) (RwLoc.incr waiting) := by
      refine congrArg (Config.mk _) (funext fun u => ?_)
      by_cases hut : u = t
      · rw [hut, Function.update_self, if_pos (Finset.mem_insert_self t us)]
      · simp [entered, Finset.mem_insert, hut]
    exact hset ▸ henter

end

/-- A thread with two read locks is counted twice, and 2³² waiting writers are counted as
    none. -/
theorem rwLock_miscounts :
    ((rwMachine Trio).Steps (fun _ _ => True) (rwInit Trio) readTwice ∧
      readTwice.shared.state % 2 ^ 31 = 2 ∧ readers readTwice = {.a}) ∧
    ∃ g : Config (Fin (2 ^ 32)) RwShared RwLoc,
      (rwMachine (Fin (2 ^ 32))).Steps (fun _ _ => True) (rwInit _) g ∧ readLocks g = 0 ∧
        g.shared.writerWaiting = 0 ∧ (waitingWriters g).card = 2 ^ 32 := by
  refine ⟨⟨Machine.steps_replay_get _, by decide⟩, ?_⟩
  obtain ⟨waiting, hsteps⟩ := steps_entered (Finset.univ : Finset (Fin (2 ^ 32)))
  have hcard := congrArg Finset.card
    (waitingWriters_entered (Finset.univ : Finset (Fin (2 ^ 32))) waiting)
  rw [Finset.card_univ, Fintype.card_fin] at hcard
  refine ⟨_, hsteps, readLocks_entered _ _, ?_, hcard⟩
  rw [writerWaiting_steps hsteps, hcard, Nat.mod_self]

end Sync

end Trona
