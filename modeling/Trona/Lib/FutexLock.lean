import Mathlib.Logic.Function.Basic
import Trona.Lib.Threads

/-!
# The futex lock

The protocol of a lock in one word, with a futex: the word is 0 when the lock is free, 1 when
it is held, and 2 when it is held and there may be threads asleep. A thread is in one of
five roles, and `LockMove` says how its role and the word may change together:

* a thread that is *out* may take the free lock (0 to 1) or begin to *contend* for it;
* a thread that contends takes the free lock by 0 to 2. When it finds the lock held it sets
  the word to 2. While the word is 2 it may fall *asleep*;
* a thread that is *holding* the lock sets the word to 0. If the word was 2 it has to wake a
  thread, *waking*, else it is out.

A thread that is woken contends again. `LockInv` is kept by all of this: there is at most one
holder, the word is 0 exactly when there is none, and when a thread is asleep then the word
is 2, or a thread is contending or waking. For a machine whose places have roles
(`Machine.LockFutex`), steps of a thread that are moves keep it (`LockInv.set`), and so do all
wake-up calls (`LockInv.wakeUp`).
-/

namespace Trona

/-- What a thread does with a lock. -/
inductive LockRole
  | out
  | contending
  | asleep
  | holding
  | waking
  deriving DecidableEq

/-- A thread moves from one role to another while the word changes. -/
inductive LockMove : (word : ℕ) → LockRole → (word' : ℕ) → LockRole → Prop
  | stay {w : ℕ} {r : LockRole} : LockMove w r w r
  | take : LockMove 0 .out 1 .holding
  | enter {w : ℕ} : LockMove w .out w .contending
  | acquire : LockMove 0 .contending 2 .holding
  | mark {w : ℕ} : w ≠ 0 → LockMove w .contending 2 .contending
  | giveUp {w : ℕ} : w ≠ 0 → LockMove w .contending 2 .out
  | sleep : LockMove 2 .contending 2 .asleep
  | rouse {w : ℕ} : LockMove w .asleep w .contending
  | release {w : ℕ} : w ≠ 2 → LockMove w .holding 0 .out
  | releaseContended : LockMove 2 .holding 0 .waking

namespace LockMove

variable {w w' : ℕ} {r r' : LockRole}

variable (h : LockMove w r w' r')

include h

theorem holding : r' = .holding → r = .holding ∨ w = 0 := by
  cases h <;> simp_all

theorem word_eq_zero_iff (hheld : r = .holding → w ≠ 0) :
    w' = 0 ↔ r' ≠ .holding ∧ (r = .holding ∨ w = 0) := by
  cases h with
  | stay => tauto
  | _ => simp_all

theorem asleep : r' = .asleep → w' = 2 ∨ r = .asleep := by
  cases h <;> simp_all

/-- Threads that are asleep while the word is 2 are left to a thread that will wake one. -/
theorem sleepers : w = 2 → w' = 2 ∨ r' = .waking := by
  cases h <;> simp_all

/-- A thread that contends does so until the word is 2. -/
theorem cares : r = .contending ∨ r = .waking → w' = 2 ∨ r' = .contending ∨ r' = .waking := by
  cases h <;> simp_all

end LockMove

section

variable {τ : Type}

/-- The invariant of the protocol. -/
structure LockInv (word : ℕ) (role : τ → LockRole) : Prop where
  unique : ∀ t u, role t = .holding → role u = .holding → t = u
  free_iff : word = 0 ↔ ∀ t, role t ≠ .holding
  awake : (∃ t, role t = .asleep) → word = 2 ∨ ∃ t, role t = .contending ∨ role t = .waking

theorem LockInv.init : LockInv 0 fun _ : τ => .out where
  unique _ _ h := by cases h
  free_iff := by simp
  awake := by simp

variable [DecidableEq τ] {word word' : ℕ} {role : τ → LockRole} {t : τ} {r : LockRole}

section

variable (h : LockInv word role)

include h

/-- A thread may begin or cease to hold the lock while the others stay in their roles. -/
theorem LockInv.holder (hheld : r = .holding → role t = .holding ∨ word = 0)
    (hword : word' = 0 ↔ r ≠ .holding ∧ (role t = .holding ∨ word = 0)) :
    (∀ u v, Function.update role t r u = .holding → Function.update role t r v = .holding → u = v) ∧
      (word' = 0 ↔ ∀ u, Function.update role t r u ≠ .holding) := by
  -- nobody else holds the lock when the thread may take it
  have hother : role t = .holding ∨ word = 0 → ∀ u, u ≠ t → role u ≠ .holding := by
    rintro (ht | hw) u hne hu
    · exact hne (h.unique u t hu ht)
    · exact h.free_iff.1 hw u hu
  have hsome : ¬(role t = .holding ∨ word = 0) → ∃ u, u ≠ t ∧ role u = .holding := by
    rw [not_or, h.free_iff, not_forall_not]
    rintro ⟨ht, u, hu⟩
    exact ⟨u, fun hut => ht (hut ▸ hu), hu⟩
  constructor
  · intro u v hu hv
    rw [Function.update_apply] at hu hv
    split_ifs at hu hv with hut hvt hvt
    · rw [hut, hvt]
    · exact absurd hv (hother (hheld hu) v hvt)
    · exact absurd hu (hother (hheld hv) u hut)
    · exact h.unique u v hu hv
  · rw [hword, Function.forall_update_iff role fun _ r => r ≠ .holding]
    refine and_congr_right fun _ => ⟨hother, fun hall => by_contra fun hfree => ?_⟩
    obtain ⟨u, hut, hu⟩ := hsome hfree
    exact hall u hut hu

/-- If a thread is asleep after a move, a thread still cares for it: the one that has moved,
    or one that did before. -/
theorem LockInv.awake_update (hself : r = .asleep → word' = 2 ∨ role t = .asleep)
    (hsleepers : word = 2 → word' = 2 ∨ r = .waking)
    (hcare : role t = .contending ∨ role t = .waking → word' = 2 ∨ r = .contending ∨ r = .waking) :
    (∃ u, Function.update role t r u = .asleep) → word' = 2 ∨
      ∃ u, Function.update role t r u = .contending ∨ Function.update role t r u = .waking := by
  rw [Function.exists_update_iff role fun _ r => r = .asleep,
    Function.exists_update_iff role fun _ r => r = .contending ∨ r = .waking]
  intro hasleep
  have hbefore : word' = 2 ∨ ∃ u, role u = .asleep := by
    rcases hasleep with hr | ⟨u, -, hu⟩
    · exact (hself hr).imp_right fun ht => ⟨t, ht⟩
    · exact .inr ⟨u, hu⟩
  rcases hbefore with hw | hasleep
  · exact .inl hw
  rcases h.awake hasleep with hw | ⟨v, hv⟩
  · exact (hsleepers hw).imp_right fun hr => .inl (.inr hr)
  · rcases eq_or_ne v t with rfl | hvt
    · exact (hcare hv).imp_right .inl
    · exact .inr (.inr ⟨v, hvt, hv⟩)

/-- Moves keep the invariant. -/
theorem LockInv.move (hm : LockMove word (role t) word' r) :
    LockInv word' (Function.update role t r) := by
  -- the word is not 0 while the thread holds the lock
  have hheld : role t = .holding → word ≠ 0 := fun ht hw => h.free_iff.1 hw t ht
  obtain ⟨hunique, hfree⟩ := h.holder hm.holding (hm.word_eq_zero_iff hheld)
  exact ⟨hunique, hfree, h.awake_update hm.asleep hm.sleepers hm.cares⟩

/-- A wake-up call of a waking thread keeps the invariant. -/
theorem LockInv.wake {us : Finset τ} (ht : role t = .waking) (hasleep : ∀ u ∈ us, role u = .asleep)
    (hnone : us = ∅ → ∀ u, role u ≠ .asleep) :
    LockInv word fun u => if u = t then .out else if u ∈ us then .contending else role u := by
  have hholding : ∀ u, (if u = t then LockRole.out else if u ∈ us then .contending else role u) =
      .holding ↔ role u = .holding := by
    intro u
    split
    · simp [*]
    · split
      · simp [hasleep u ‹_›]
      · rfl
  refine ⟨fun u v => ?_, ?_, ?_⟩
  · rw [hholding, hholding]
    exact h.unique u v
  · simp only [ne_eq, hholding]
    exact h.free_iff
  · rintro ⟨u, hu⟩
    rcases us.eq_empty_or_nonempty with rfl | ⟨v, hv⟩
    · -- nobody was asleep
      split at hu
      · cases hu
      · exact absurd hu (hnone rfl u)
    · have hvt : v ≠ t := by
        rintro rfl
        rw [hasleep v hv] at ht
        cases ht
      exact .inr ⟨v, .inl (by simp [hvt, hv])⟩

/-! ## Machines with a lock -/

end

variable {σ ℓ χ φ : Type} {g : Config τ σ ℓ} {f : φ} {m : Machine τ σ ℓ χ φ} {ρ : ℓ → LockRole}

/-- The places of a machine have roles in the protocol of a lock with a futex: threads in the
    roles asleep and waking are the ones that wait at the futex and wake others there. -/
structure Machine.LockFutex [DecidableEq φ] (m : Machine τ σ ℓ χ φ) (f : φ) (ρ : ℓ → LockRole) :
    Prop where
  sleeping_iff : ∀ l, m.sleeping l = some f ↔ ρ l = .asleep
  roused : ∀ l f', m.sleeping l = some f' → ρ (m.roused l) = if f' = f then .contending else ρ l
  waking : ∀ l n, m.waking l = some (f, n) → ρ l = .waking
  resumed : ∀ l f' n, m.waking l = some (f', n) → ρ (m.resumed l) = if f' = f then .out else ρ l

variable (ρ) in
/-- A step that is a move keeps the invariant. -/
theorem LockInv.set (h : LockInv word fun u => ρ (g.loc u))
    (hm : LockMove word (ρ (g.loc t)) word' (ρ l)) :
    LockInv word' fun u => ρ ((g.set t s l).loc u) := by
  have hrole : (fun u => ρ ((g.set t s l).loc u)) =
      Function.update (fun u => ρ (g.loc u)) t (ρ l) := by
    funext u
    rw [Config.set_loc, Function.apply_update fun _ => ρ]
  rw [hrole]
  exact h.move hm

/-- Every wake-up call keeps the invariant: also one at another futex. -/
theorem LockInv.wakeUp [Fintype τ] [DecidableEq φ] {us : Finset τ} {f' : φ} {n : Amount}
    (hm : m.LockFutex f ρ) (h : LockInv word fun u => ρ (g.loc u))
    (hwaking : m.waking (g.loc t) = some (f', n)) (hwakes : n.Wakes us (m.sleepers g f')) :
    LockInv word fun u => ρ ((m.wakeUp g t us).loc u) := by
  have hloc : ∀ u, ρ ((m.wakeUp g t us).loc u) =
      if u = t then (if f' = f then .out else ρ (g.loc t))
      else if u ∈ us then (if f' = f then .contending else ρ (g.loc u)) else ρ (g.loc u) := by
    intro u
    by_cases hut : u = t
    · rw [hut, if_pos rfl, Machine.wakeUp_loc_self, hm.resumed _ _ _ hwaking]
    by_cases hu : u ∈ us
    · have hasleep := Machine.mem_sleepers.1 (hwakes.subset hu)
      rw [if_neg hut, if_pos hu, Machine.wakeUp_loc_of_mem hut hu, hm.roused _ _ hasleep]
    · rw [if_neg hut, if_neg hu, Machine.wakeUp_loc_of_notMem hut hu]
  simp only [hloc]
  rcases eq_or_ne f' f with rfl | hf
  · simp only [if_true]
    refine h.wake (hm.waking _ _ hwaking) (fun u hu => ?_) fun hus u hu => ?_
    · exact (hm.sleeping_iff _).1 (Machine.mem_sleepers.1 (hwakes.subset hu))
    · subst hus
      have hu' : u ∈ m.sleepers g f' := Machine.mem_sleepers.2 ((hm.sleeping_iff _).2 hu)
      rw [hwakes.asleep_eq_empty] at hu'
      exact absurd hu' (Finset.notMem_empty u)
  · have hsame : (fun u => if u = t then (if f' = f then .out else ρ (g.loc t))
        else if u ∈ us then (if f' = f then .contending else ρ (g.loc u)) else ρ (g.loc u)) =
        fun u => ρ (g.loc u) := by
      funext u
      split <;> simp_all
    rw [hsame]
    exact h

end

end Trona
