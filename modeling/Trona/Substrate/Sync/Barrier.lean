import Mathlib.Algebra.Order.BigOperators.Group.Finset
import Mathlib.Data.Fintype.Card
import Trona.Lib.Threads

/-!
# The barrier

`Barrier` (`substrate/sync.rs`): a call of `wait` loads `phase` and increments `waiting`. The
call that makes it `count` sets it to 0, increments `phase`, wakes the others and returns
`true`; the others wait until `phase` is not what they have loaded, and return `false`.

The calls are numbered in the order in which they increment `waiting`, so that the call with
number `n` belongs to the group `n / count`. Between the increment that makes `waiting` equal
to `count` and the one of `phase` another call must not arrive: the increment of an earlier
one is lost, and one that has loaded the old `phase` does not wait for its group
(`barrier_ungrouped`). If each call increments `waiting` when `phase` is still what it has
loaded and no group is being released (`Orderly`), then the groups are as they should be
(`barrier_grouped`). With no more threads than `count` every run is like this
(`barrier_grouped_of_card_le`).
-/

namespace Trona

namespace Sync

/-- The words of the barrier; and as history how many calls have arrived, and which ones have
    returned with what. -/
structure BarrierShared where
  waiting : ℕ
  phase : ℕ
  arrived : ℕ
  returned : List (ℕ × Bool)
  deriving DecidableEq

/-- The places of a thread in `wait`, with the phase that it has loaded and the number of the
    call. -/
inductive BarrierPc
  | outside
  /-- At the load of `phase`, and at the increment of `waiting`. -/
  | load
  | arrive (phase : ℕ)
  /-- The last one to arrive: where `waiting` is set to 0, at the increment of `phase`, at the
      futex wake and at the return. -/
  | store (n : ℕ)
  | advance (n : ℕ)
  | wake (n : ℕ)
  | leave (n : ℕ)
  /-- The others: at the futex wait and at the load of `phase` after it. -/
  | wait (phase n : ℕ)
  | asleep (phase n : ℕ)
  | check (phase n : ℕ)
  deriving DecidableEq

namespace BarrierPc

/-- The atomic operation at a place. The words are unsigned 32-bit numbers. A thread that is
    asleep may go on at any time. -/
def step (count : ℕ) (w : BarrierShared) : BarrierPc → Option (BarrierShared × BarrierPc)
  | outside => some (w, load)
  | load => some (w, arrive w.phase)
  | arrive phase =>
    some ({ w with waiting := (w.waiting + 1) % 2 ^ 32, arrived := w.arrived + 1 },
      if (w.waiting + 1) % 2 ^ 32 = count then store w.arrived else wait phase w.arrived)
  | store n => some ({ w with waiting := 0 }, advance n)
  | advance n => some ({ w with phase := (w.phase + 1) % 2 ^ 32 }, wake n)
  | wake _ => none
  | leave n => some ({ w with returned := (n, true) :: w.returned }, outside)
  | wait phase n => some (w, if w.phase = phase then asleep phase n else check phase n)
  | asleep phase n => some (w, check phase n)
  | check phase n =>
    if w.phase = phase then some (w, wait phase n)
    else some ({ w with returned := (n, false) :: w.returned }, outside)

/-- The thread is the last one of its group, and has not yet incremented `phase`. -/
def releases : BarrierPc → Bool
  | store _ | advance _ => true
  | _ => false

/-- The thread is in the call with this number, and is going to return `true`. -/
def leads (n : ℕ) : BarrierPc → Bool
  | store m | advance m | wake m | leave m => m = n
  | _ => false

end BarrierPc

/-- Threads that call `wait` any number of times. -/
def barrierMachine (count : ℕ) (τ : Type) : Machine τ BarrierShared BarrierPc Unit Unit where
  next _ _ w l := l.step count w
  sleeping
    | .asleep _ _ => some ()
    | _ => none
  roused
    | .asleep phase n => .check phase n
    | l => l
  waking
    | .wake _ => some ((), .all)
    | _ => none
  resumed
    | .wake n => .leave n
    | l => l

def barrierInit (τ : Type) : Config τ BarrierShared BarrierPc := ⟨⟨0, 0, 0, []⟩, fun _ => .outside⟩

/-- The calls are in groups of `count`: a call has returned only after its group has arrived;
    when all calls of a group have returned, exactly one has returned `true`; and each group
    that has arrived is released by one of its calls. -/
structure Grouped {τ : Type} (count : ℕ) (g : Config τ BarrierShared BarrierPc) : Prop where
  complete : ∀ n b, (n, b) ∈ g.shared.returned → (n / count + 1) * count ≤ g.shared.arrived
  unique : ∀ n m, (n, true) ∈ g.shared.returned → (m, true) ∈ g.shared.returned →
    n / count = m / count → n = m
  leader : ∀ k, (∀ n, n / count = k → ∃ b, (n, b) ∈ g.shared.returned) →
    ∃ n, n / count = k ∧ (n, true) ∈ g.shared.returned
  released : ∀ k, (k + 1) * count ≤ g.shared.arrived →
    ∃ n, n / count = k ∧ ((n, true) ∈ g.shared.returned ∨ ∃ t, (g.loc t).leads n)

/-- A call arrives only while `phase` is what it has loaded, and no group is being released. -/
def Orderly {τ : Type} (g : Config τ BarrierShared BarrierPc) : Act τ Unit → Prop
  | .run t _ => ∀ phase, g.loc t = .arrive phase →
      phase = g.shared.phase ∧ ∀ u, ¬(g.loc u).releases
  | .wake _ _ => True

/-! ## The invariant -/

/-- How many groups the step of a thread releases. -/
def BarrierPc.advances : BarrierPc → ℕ
  | advance _ => 1
  | _ => 0

/-- What is known of a thread when `R` groups have been released. -/
def BarrierPc.Fits (count R : ℕ) (w : BarrierShared) : BarrierPc → Prop
  | store n => n + 1 = (R + 1) * count ∧ w.arrived = n + 1
  | advance n => n + 1 = (R + 1) * count ∧ w.arrived = n + 1 ∧ w.waiting = 0
  | wake n | leave n => (n + 1) % count = 0 ∧ n < R * count
  | wait phase n | asleep phase n | check phase n =>
    phase = n / count % 2 ^ 32 ∧ (n + 1) % count ≠ 0 ∧ n < w.arrived
  | _ => True

/-- A place where the same is known as at another one, in the same call. -/
structure BarrierPc.SameCall (l l' : BarrierPc) : Prop where
  releases : l'.releases = l.releases
  leads : ∀ n, l'.leads n = l.leads n
  fits : ∀ count R w, l'.Fits count R w ↔ l.Fits count R w

/-- `R` groups have been released: `phase` is their number, and while no group is being
    released, `waiting` is the number of calls of the next one. -/
structure BarrierInv {τ : Type} (count : ℕ) (g : Config τ BarrierShared BarrierPc) (R : ℕ) :
    Prop where
  phase : g.shared.phase = R % 2 ^ 32
  le : R * count ≤ g.shared.arrived
  closed : (∀ t, ¬(g.loc t).releases) →
    R * count + g.shared.waiting = g.shared.arrived ∧ g.shared.waiting < count
  alone : ∀ t u, (g.loc t).releases → (g.loc u).releases → t = u
  fits : ∀ t, (g.loc t).Fits count R g.shared
  returned : ∀ n b, (n, b) ∈ g.shared.returned →
    (n / count + 1) * count ≤ g.shared.arrived ∧ (b = true ↔ (n + 1) % count = 0)
  leader : ∀ k, (k + 1) * count ≤ g.shared.arrived →
    ∃ n, n + 1 = (k + 1) * count ∧ ((n, true) ∈ g.shared.returned ∨ ∃ t, (g.loc t).leads n)

/-- The number of the last call of a group. -/
theorem last_of_group {count n : ℕ} (h : (n + 1) % count = 0) :
    (n / count + 1) * count = n + 1 := by
  rw [← Nat.succ_div_of_dvd (Nat.dvd_of_mod_eq_zero h),
    Nat.div_mul_cancel (Nat.dvd_of_mod_eq_zero h)]

theorem group_of_last {count n k : ℕ} (hcount : 0 < count) (h : n + 1 = (k + 1) * count) :
    n / count = k := by
  refine Nat.div_eq_of_lt_le ?_ ?_
  · rw [Nat.succ_mul] at h
    omega
  · omega

section

variable {τ : Type} {count R : ℕ} {g : Config τ BarrierShared BarrierPc}

/-- Threads that do not release a group are not affected by the progress of the others. -/
theorem BarrierPc.Fits.mono {R' : ℕ} {w w' : BarrierShared} {l : BarrierPc} (h : l.Fits count R w)
    (hl : ¬l.releases) (hR : R ≤ R') (hw : w.arrived ≤ w'.arrived) : l.Fits count R' w' := by
  cases l with
  | store | advance => exact absurd rfl hl
  | wake | leave => exact ⟨h.1, h.2.trans_le (Nat.mul_le_mul_right count hR)⟩
  | wait | asleep | check => exact ⟨h.1, h.2.1, h.2.2.trans_le hw⟩
  | outside | load | arrive => exact True.intro

theorem BarrierPc.leads_of_releases {l : BarrierPc} (h : l.releases) : ∃ n, l.leads n := by
  cases l with
  | store n | advance n => exact ⟨n, decide_eq_true rfl⟩
  | _ => cases h

theorem BarrierPc.Fits.congr {w w' : BarrierShared} {l : BarrierPc} (h : l.Fits count R w)
    (hwaiting : w'.waiting = w.waiting) (harrived : w'.arrived = w.arrived) :
    l.Fits count R w' := by
  cases l with
  | outside | load | arrive => exact True.intro
  | _ => simpa only [Fits, hwaiting, harrived] using h

/-- While a thread releases a group, all calls of the group have arrived and no others. -/
theorem BarrierPc.Fits.arrived_eq {w : BarrierShared} {l : BarrierPc} (h : l.Fits count R w)
    (hl : l.releases) : w.arrived = (R + 1) * count := by
  cases l with
  | store n => exact h.2.trans h.1
  | advance n => exact h.2.1.trans h.1
  | _ => cases hl

namespace BarrierInv

/-- No group is complete beyond the one that is being released. -/
theorem arrived_le (h : BarrierInv count g R) : g.shared.arrived ≤ (R + 1) * count := by
  by_cases hclosed : ∀ t, ¬(g.loc t).releases
  · have := h.closed hclosed
    rw [Nat.succ_mul]
    omega
  · obtain ⟨t, ht⟩ := not_forall.1 hclosed
    exact ((h.fits t).arrived_eq (not_not.1 ht)).le

/-- When the invariant holds, the calls are in groups. -/
theorem grouped (h : BarrierInv count g R) (hcount : 0 < count) : Grouped count g where
  complete n b hmem := (h.returned n b hmem).1
  unique n m hn hm hgroup := by
    have hlast := last_of_group ((h.returned n true hn).2.1 rfl)
    rw [hgroup, last_of_group ((h.returned m true hm).2.1 rfl)] at hlast
    omega
  leader k hall := by
    have hgroup : ((k + 1) * count - 1) / count = k :=
      group_of_last hcount (Nat.sub_add_cancel (Nat.mul_pos k.succ_pos hcount))
    obtain ⟨b, hmem⟩ := hall _ hgroup
    have hb : b = true := (h.returned _ b hmem).2.2 (by
      rw [Nat.sub_add_cancel (Nat.mul_pos k.succ_pos hcount), Nat.mul_mod_left])
    exact ⟨_, hgroup, hb ▸ hmem⟩
  released k hk := by
    obtain ⟨n, hn, hleads⟩ := h.leader k hk
    exact ⟨n, group_of_last hcount hn, hleads⟩

theorem init (hcount : 0 < count) : BarrierInv count (barrierInit τ) 0 where
  phase := rfl
  le := (Nat.zero_mul count).le
  closed _ := ⟨Nat.zero_mul count, hcount⟩
  alone _ _ ht := by cases ht
  fits _ := True.intro
  returned _ _ hmem := by cases hmem
  leader k hk := absurd hk (Nat.not_le.2 (Nat.mul_pos k.succ_pos hcount))

end BarrierInv

variable [DecidableEq τ] {t : τ} {w : BarrierShared} {l : BarrierPc}

/-- Threads that are woken, and the thread that wakes them, are in the same calls as before. -/
theorem sameCall_wakeUp {us : Finset τ} (u : τ) :
    (g.loc u).SameCall (((barrierMachine count τ).wakeUp g t us).loc u) := by
  refine Machine.rel_wakeUp (fun _ => ⟨rfl, fun _ => rfl, fun _ _ _ => Iff.rfl⟩) ?_
    (fun u _ => ?_) u
  · cases g.loc t <;> exact ⟨rfl, fun _ => rfl, fun _ _ _ => Iff.rfl⟩
  · cases g.loc u <;> exact ⟨rfl, fun _ => rfl, fun _ _ _ => Iff.rfl⟩

/-- A group keeps the call that releases it until this call returns. -/
theorem leads_set {n : ℕ} (h : (n, true) ∈ g.shared.returned ∨ ∃ u, (g.loc u).leads n)
    (hsub : g.shared.returned ⊆ w.returned)
    (hleads : (g.loc t).leads n → l.leads n ∨ (n, true) ∈ w.returned) :
    (n, true) ∈ w.returned ∨ ∃ u, ((g.set t w l).loc u).leads n := by
  rcases h with hmem | hlead
  · exact .inl (hsub hmem)
  · by_cases hmem : (n, true) ∈ w.returned
    · exact .inl hmem
    · exact .inr (@Config.exists_set _ _ _ _ g t w l (fun l => l.leads n) hlead fun ht =>
        (hleads ht).resolve_right hmem)

namespace BarrierInv

section

variable (h : BarrierInv count g R)

include h

/-- A step that leaves the words as they are keeps the invariant, also if it is a return. -/
theorem quiet {rs : List (ℕ × Bool)} (hpc : ¬(g.loc t).releases) (hl : ¬l.releases)
    (hfits : l.Fits count R g.shared) (hsub : g.shared.returned ⊆ rs)
    (hreturned : ∀ n b, (n, b) ∈ rs → (n, b) ∈ g.shared.returned ∨
      (n / count + 1) * count ≤ g.shared.arrived ∧ (b = true ↔ (n + 1) % count = 0))
    (hleads : ∀ n, (g.loc t).leads n → l.leads n ∨ (n, true) ∈ rs) :
    BarrierInv count (g.set t { g.shared with returned := rs } l) R := by
  -- the threads that release a group are the same as before
  have hreleases : ∀ u, (Function.update g.loc t l u).releases ↔ (g.loc u).releases := by
    intro u
    by_cases hut : u = t
    · rw [hut, Function.update_self]
      exact iff_of_false hl hpc
    · rw [Function.update_of_ne hut]
  refine ⟨h.phase, h.le, fun hclosed => h.closed fun u hu => hclosed u ((hreleases u).2 hu),
    fun u v hu hv => h.alone u v ((hreleases u).1 hu) ((hreleases v).1 hv),
    g.forall_set (fun u => (h.fits u).congr rfl rfl) (hfits.congr rfl rfl),
    fun n b hmem => (hreturned n b hmem).elim (h.returned n b) id, fun k hk => ?_⟩
  obtain ⟨n, hn, hcases⟩ := h.leader k hk
  exact ⟨n, hn, leads_set hcases hsub (hleads n)⟩

/-- A step that leaves everything shared as it is keeps the invariant. -/
theorem still (hleads : ∀ n, ¬(g.loc t).leads n) (hl : ¬l.releases)
    (hfits : l.Fits count R g.shared) : BarrierInv count (g.set t g.shared l) R := by
  refine h.quiet (fun hpc => ?_) hl hfits (fun _ hmem => hmem) (fun _ _ hmem => .inl hmem)
    fun n hn => absurd hn (hleads n)
  obtain ⟨n, hn⟩ := BarrierPc.leads_of_releases hpc
  exact hleads n hn

/-- When no other thread releases a group, the progress of one affects none of the others. A
    group that it completes is released by its call. -/
theorem progress {R' : ℕ} (hothers : ∀ u ≠ t, ¬(g.loc u).releases) (hR : R ≤ R')
    (hw : g.shared.arrived ≤ w.arrived) (hreturned : w.returned = g.shared.returned)
    (hleads : ∀ n, (g.loc t).leads n → l.leads n) (hphase : w.phase = R' % 2 ^ 32)
    (hle : R' * count ≤ w.arrived)
    (hclosed : ¬l.releases → R' * count + w.waiting = w.arrived ∧ w.waiting < count)
    (hl : l.Fits count R' w)
    (hnew : ∀ k, (k + 1) * count ≤ w.arrived → (k + 1) * count ≤ g.shared.arrived ∨
      ∃ n, n + 1 = (k + 1) * count ∧ l.leads n) : BarrierInv count (g.set t w l) R' := by
  have hself : ∀ u, ((g.set t w l).loc u).releases → u = t := by
    intro u hu
    by_contra hut
    rw [Config.set_loc_of_ne g hut] at hu
    exact hothers u hut hu
  refine ⟨hphase, hle, fun hall => hclosed ?_,
    fun u v hu hv => (hself u hu).trans (hself v hv).symm, fun u => ?_, fun n b hmem => ?_,
    fun k hk => ?_⟩
  · have ht := hall t
    rwa [Config.set_loc_self] at ht
  · by_cases hut : u = t
    · rwa [hut, Config.set_loc_self]
    · rw [Config.set_loc_of_ne g hut]
      exact (h.fits u).mono (hothers u hut) hR hw
  · rw [Config.set_shared, hreturned] at hmem
    exact (h.returned n b hmem).imp_left hw.trans'
  · rcases hnew k hk with hold | ⟨n, hn, hlead⟩
    · obtain ⟨n, hn, hcases⟩ := h.leader k hold
      exact ⟨n, hn, leads_set hcases (hreturned ▸ List.Subset.refl _)
        fun hlead => .inl (hleads n hlead)⟩
    · exact ⟨n, hn, .inr ⟨t, by rwa [Config.set_loc_self]⟩⟩

omit [DecidableEq τ] in
theorem others_of_releases (ht : (g.loc t).releases) : ∀ u ≠ t, ¬(g.loc u).releases :=
  fun u hut hu => hut (h.alone u t hu ht)

end

variable {phase n : ℕ}

variable (h : BarrierInv count g R)

include h

/-- The last call of a group arrives. -/
theorem arriveLast (hclosed : ∀ u, ¬(g.loc u).releases) (hpc : g.loc t = .arrive phase)
    (hlast : g.shared.waiting + 1 = count) :
    BarrierInv count (g.set t
      { g.shared with waiting := g.shared.waiting + 1, arrived := g.shared.arrived + 1 }
      (.store g.shared.arrived)) R := by
  obtain ⟨hsum, -⟩ := h.closed hclosed
  have hfull : g.shared.arrived + 1 = (R + 1) * count := by
    rw [Nat.succ_mul]
    omega
  refine h.progress (fun u _ => hclosed u) (le_refl R) (Nat.le_succ _) rfl
    (by simp [hpc, BarrierPc.leads]) h.phase (Nat.le_succ_of_le h.le) (absurd rfl) ⟨hfull, rfl⟩
    fun k hk => ?_
  refine (Nat.le_or_eq_of_le_succ hk).imp_right fun hnew => ⟨_, hnew.symm, decide_eq_true rfl⟩

/-- Another call of a group arrives. -/
theorem arriveOther (hclosed : ∀ u, ¬(g.loc u).releases) (hpc : g.loc t = .arrive phase)
    (hphase : phase = g.shared.phase) (hother : g.shared.waiting + 1 ≠ count) :
    BarrierInv count (g.set t { g.shared with
      waiting := g.shared.waiting + 1, arrived := g.shared.arrived + 1 }
      (.wait phase g.shared.arrived)) R := by
  obtain ⟨hsum, hlt⟩ := h.closed hclosed
  have hgroup : g.shared.arrived / count = R := by
    refine Nat.div_eq_of_lt_le h.le ?_
    rw [Nat.succ_mul]
    omega
  have hrest : (g.shared.arrived + 1) % count = g.shared.waiting + 1 := by
    rw [← hsum, Nat.add_assoc, Nat.mul_add_mod_self_right, Nat.mod_eq_of_lt (by omega)]
  refine h.progress (fun u _ => hclosed u) (le_refl R) (Nat.le_succ _) rfl
    (by simp [hpc, BarrierPc.leads])
    h.phase (Nat.le_succ_of_le h.le) (fun _ => by dsimp only; omega) ⟨?_, ?_, Nat.lt_succ_self _⟩
    fun k hk => .inl ?_
  · rw [hphase, hgroup, h.phase]
  · rw [hrest]
    omega
  · -- the call does not complete a group
    refine (Nat.le_or_eq_of_le_succ hk).resolve_right fun heq => ?_
    rw [← show (k + 1) * count = g.shared.arrived + 1 from heq, Nat.mul_mod_left] at hrest
    omega

/-- The last call of a group sets `waiting` to 0. -/
theorem store (hpc : g.loc t = .store n) :
    BarrierInv count (g.set t { g.shared with waiting := 0 } (.advance n)) R := by
  have hfits := h.fits t
  rw [hpc] at hfits
  have hothers := h.others_of_releases (t := t) (by rw [hpc]; rfl)
  exact h.progress hothers (le_refl R) (le_refl _) rfl (by rw [hpc]; exact fun _ => id) h.phase h.le
    (absurd rfl) ⟨hfits.1, hfits.2, rfl⟩ fun k => .inl

/-- The last call of a group increments `phase`. -/
theorem advance (hcount : 0 < count) (hpc : g.loc t = .advance n) :
    BarrierInv count (g.set t { g.shared with phase := (g.shared.phase + 1) % 2 ^ 32 } (.wake n))
      (R + 1) := by
  have hfits := h.fits t
  rw [hpc] at hfits
  obtain ⟨hn, harrived, hwaiting⟩ := hfits
  have hothers := h.others_of_releases (t := t) (by rw [hpc]; rfl)
  refine h.progress hothers (Nat.le_succ R) (le_refl _) rfl (by rw [hpc]; exact fun _ => id) ?_
    (harrived.trans hn).ge (fun _ => by dsimp only; omega) ⟨?_, by omega⟩ fun k => .inl
  · simp only [h.phase, Nat.mod_add_mod]
  · rw [hn, Nat.mul_mod_left]

omit [DecidableEq τ] in
/-- A call that does not release its group returns when `phase` is not what it has loaded:
    then its group has been released. -/
theorem lt_of_phase_ne (hcount : 0 < count)
    (hfits : (BarrierPc.check phase n).Fits count R g.shared) (hne : g.shared.phase ≠ phase) :
    n / count < R := by
  obtain ⟨hphase, -, hlt⟩ := hfits
  have hle : n / count < R + 1 := (Nat.div_lt_iff_lt_mul hcount).2 (hlt.trans_le h.arrived_le)
  refine lt_of_le_of_ne (Nat.le_of_lt_succ hle) fun heq => hne ?_
  rw [hphase, heq, h.phase]

/-- Each step of a thread keeps the invariant, if calls arrive only when they may. -/
theorem next (hcount : 0 < count) (hword : count < 2 ^ 32)
    (horderly : ∀ phase, g.loc t = .arrive phase →
      phase = g.shared.phase ∧ ∀ u, ¬(g.loc u).releases)
    (hstep : (g.loc t).step count g.shared = some (w, l)) :
    BarrierInv count (g.set t w l) (R + (g.loc t).advances) := by
  have hfits := h.fits t
  cases hpc : g.loc t <;> rw [hpc] at hfits hstep
  case outside | load | asleep =>
    obtain ⟨rfl, rfl⟩ := step_inj hstep
    exact h.still (by simp [hpc, BarrierPc.leads]) (by simp [BarrierPc.releases]) hfits
  case arrive phase =>
    obtain ⟨hphase, hclosed⟩ := horderly phase hpc
    have hwrap : (g.shared.waiting + 1) % 2 ^ 32 = g.shared.waiting + 1 :=
      Nat.mod_eq_of_lt (Nat.lt_of_le_of_lt (h.closed hclosed).2 hword)
    rw [BarrierPc.step, hwrap] at hstep
    obtain ⟨rfl, rfl⟩ := step_inj hstep
    split
    · exact h.arriveLast hclosed hpc ‹_›
    · exact h.arriveOther hclosed hpc hphase ‹_›
  case store n =>
    obtain ⟨rfl, rfl⟩ := step_inj hstep
    exact h.store hpc
  case advance n =>
    obtain ⟨rfl, rfl⟩ := step_inj hstep
    exact h.advance hcount hpc
  case wake => cases hstep
  case leave n =>
    obtain ⟨rfl, rfl⟩ := step_inj hstep
    refine h.quiet (by simp [hpc, BarrierPc.releases]) (by decide) True.intro
      (List.subset_cons_self _ _) (fun m b hmem => ?_) fun m hm => .inr ?_
    · refine (List.mem_cons.1 hmem).symm.imp_right fun heq => ?_
      obtain ⟨rfl, rfl⟩ := Prod.mk.inj heq
      refine ⟨?_, iff_of_true rfl hfits.1⟩
      rw [last_of_group hfits.1]
      exact hfits.2.trans_le h.le
    · rw [hpc] at hm
      rw [of_decide_eq_true hm]
      exact List.mem_cons_self
  case wait phase n =>
    obtain ⟨rfl, rfl⟩ := step_inj hstep
    refine h.still (by simp [hpc, BarrierPc.leads]) ?_ ?_ <;> split
    · simp [BarrierPc.releases]
    · simp [BarrierPc.releases]
    · exact hfits
    · exact hfits
  case check phase n =>
    rw [BarrierPc.step] at hstep
    split at hstep <;> obtain ⟨rfl, rfl⟩ := step_inj hstep
    · exact h.still (by simp [hpc, BarrierPc.leads]) (by simp [BarrierPc.releases]) hfits
    · refine h.quiet (by simp [hpc, BarrierPc.releases]) (by decide) True.intro
        (List.subset_cons_self _ _) (fun m b hmem => ?_) (by simp [hpc, BarrierPc.leads])
      refine (List.mem_cons.1 hmem).symm.imp_right fun heq => ?_
      obtain ⟨rfl, rfl⟩ := Prod.mk.inj heq
      refine ⟨?_, iff_of_false Bool.false_ne_true hfits.2.1⟩
      exact (Nat.mul_le_mul_right count (h.lt_of_phase_ne hcount hfits ‹_›)).trans h.le

/-- Wake-up calls keep the invariant. -/
theorem wakeUp {us : Finset τ} : BarrierInv count ((barrierMachine count τ).wakeUp g t us) R := by
  have hsame : ∀ u, (g.loc u).SameCall (((barrierMachine count τ).wakeUp g t us).loc u) :=
    sameCall_wakeUp
  refine ⟨h.phase, h.le, fun hclosed => h.closed fun u hu => hclosed u ?_, fun u v hu hv => ?_,
    fun u => ((hsame u).fits count R g.shared).2 (h.fits u), h.returned, fun k hk => ?_⟩
  · rwa [(hsame u).releases]
  · rw [(hsame u).releases] at hu
    rw [(hsame v).releases] at hv
    exact h.alone u v hu hv
  · obtain ⟨n, hn, hcases⟩ := h.leader k hk
    refine ⟨n, hn, hcases.imp_right fun hlead => ?_⟩
    obtain ⟨u, hu⟩ := hlead
    exact ⟨u, by rwa [(hsame u).leads n]⟩

end BarrierInv

/-- In an orderly run the invariant holds. -/
theorem barrierInv_steps [Fintype τ] (hcount : 0 < count) (hword : count < 2 ^ 32)
    (h : (barrierMachine count τ).Steps Orderly (barrierInit τ) g) : ∃ R, BarrierInv count g R := by
  refine h.invariant (I := fun g => ∃ R, BarrierInv count g R) ?_ ?_ ⟨0, .init hcount⟩
  · rintro g t c w l ⟨R, hg⟩ horderly hnext
    exact ⟨_, hg.next hcount hword horderly hnext⟩
  · rintro g t us f n ⟨R, hg⟩ _ _ _
    exact ⟨R, hg.wakeUp⟩

/-- In every run of any number of threads in which a call arrives only while `phase` is what
    it has loaded and no group is being released: the calls are in groups of `count`. -/
theorem barrier_grouped [Fintype τ] (hcount : 0 < count) (hword : count < 2 ^ 32)
    (h : (barrierMachine count τ).Steps Orderly (barrierInit τ) g) : Grouped count g := by
  obtain ⟨R, hinv⟩ := barrierInv_steps hcount hword h
  exact hinv.grouped hcount

end

/-- A thread makes some steps. -/
def barrierOps (t : Trio) (ops : ℕ) : List (Act Trio Unit) := List.replicate ops (.run t ())

instance {τ : Type} [Fintype τ] (g : Config τ BarrierShared BarrierPc) :
    (a : Act τ Unit) → Decidable (Orderly g a)
  | .run t _ =>
    match h : g.loc t with
    | .arrive phase =>
      decidable_of_iff (phase = g.shared.phase ∧ ∀ u, ¬(g.loc u).releases)
        ⟨fun hp p hpc => by cases h.symm.trans hpc; exact hp, fun hp => hp phase h⟩
    | .outside | .load | .store _ | .advance _ | .wake _ | .leave _ | .wait _ _ | .asleep _ _
    | .check _ _ => isTrue fun p hpc => by cases h.symm.trans hpc
  | .wake _ _ => isTrue trivial

/-- Two threads pass the barrier together, while a third one is not in a call. -/
def passed : Config Trio BarrierShared BarrierPc :=
  ((barrierMachine 2 Trio).replay Orderly (barrierInit Trio)
    (List.flatten [barrierOps .a 4, barrierOps .b 5, [.wake .b {.a}], barrierOps .b 1,
      barrierOps .a 1])).get (by decide)

theorem barrier_grouped_passed :
    passed.shared = ⟨0, 1, 2, [(0, false), (1, true)]⟩ ∧ Grouped 2 passed :=
  ⟨by decide, barrier_grouped (by decide) (by decide) (Machine.steps_replay_get _)⟩

/-- A call arrives before the one that is alone in its group has set `waiting` to 0. -/
def arrivedEarly : Config Trio BarrierShared BarrierPc :=
  ((barrierMachine 1 Trio).replay (fun _ _ => True) (barrierInit Trio)
    (barrierOps .a 3 ++ barrierOps .b 3)).get (by decide)

/-- A thread loads `phase`. Two others pass the barrier. Then it arrives, and returns at
    once. -/
def loadedEarly : Config Trio BarrierShared BarrierPc :=
  ((barrierMachine 2 Trio).replay (fun _ _ => True) (barrierInit Trio)
    (List.flatten [barrierOps .c 2, barrierOps .a 4, barrierOps .b 5, barrierOps .c 3])).get
    (by decide)

/-- The call that arrives early belongs to a group that nobody releases; and the one that has
    loaded `phase` early returns when its group has not arrived. -/
theorem barrier_ungrouped :
    ((barrierMachine 1 Trio).Steps (fun _ _ => True) (barrierInit Trio) arrivedEarly ∧
      ¬Grouped 1 arrivedEarly) ∧
    (barrierMachine 2 Trio).Steps (fun _ _ => True) (barrierInit Trio) loadedEarly ∧
      ¬Grouped 2 loadedEarly := by
  refine ⟨⟨Machine.steps_replay_get _, fun h => ?_⟩, Machine.steps_replay_get _, fun h => ?_⟩
  · obtain ⟨n, hn, hleads⟩ := h.released 1 (by decide)
    obtain rfl : n = 1 := n.div_one.symm.trans hn
    exact absurd hleads (by decide)
  · exact absurd (h.complete 2 false (by decide)) (by decide)

section

variable {τ : Type} {count R : ℕ} {g : Config τ BarrierShared BarrierPc} [DecidableEq τ] {t : τ}
  {w : BarrierShared} {l : BarrierPc}

/-! ## As many threads as a group has calls -/

/-- The thread is in a call with at least this number. -/
def BarrierPc.joins (m : ℕ) : BarrierPc → Bool
  | store n | advance n | wake n | leave n | wait _ n | asleep _ n | check _ n => m ≤ n
  | _ => false

theorem BarrierPc.eq_advance_of_pos (h : 0 < l.advances) : ∃ n, l = .advance n := by
  cases l with
  | advance n => exact ⟨n, rfl⟩
  | _ => cases h

section

variable {w w' : BarrierShared} {l l' : BarrierPc}

/-- Only one step changes `phase`. -/
theorem BarrierPc.step_phase (h : l.step count w = some (w', l')) (hl : ∀ n, l ≠ .advance n) :
    w'.phase = w.phase := by
  cases l with
  | advance n => exact absurd rfl (hl n)
  | wake => cases h
  | check =>
    rw [step] at h
    split at h <;> obtain ⟨rfl, rfl⟩ := step_inj h <;> rfl
  | _ =>
    obtain ⟨rfl, rfl⟩ := step_inj h
    rfl

/-- A thread that is about to arrive has just loaded `phase`. -/
theorem BarrierPc.step_arrive {phase : ℕ} (h : l.step count w = some (w', .arrive phase)) :
    phase = w'.phase := by
  cases l with
  | load =>
    obtain ⟨rfl, hl⟩ := step_inj h
    exact (BarrierPc.arrive.inj hl).symm
  | wake => cases h
  | arrive | wait | check =>
    rw [step] at h
    split at h <;> cases h
  | _ => cases h

end

namespace BarrierInv

omit [DecidableEq τ] in
/-- All numbers of calls are below the number of arrivals. -/
theorem not_joins (h : BarrierInv count g R) (u : τ) :
    (g.loc u).joins g.shared.arrived = false := by
  have hle := h.le
  have hfits := h.fits u
  cases hpc : g.loc u <;> rw [hpc] at hfits <;> simp only [BarrierPc.Fits] at hfits <;>
    simp only [BarrierPc.joins, decide_eq_false_iff_not] <;> omega

omit [DecidableEq τ] in
/-- A step other than the increment of `phase` adds a call to those that have not been
    released exactly when it is an arrival. -/
theorem step_joins (h : BarrierInv count g R) (hcount : 0 < count) (hpc : (g.loc t).advances = 0)
    (hstep : (g.loc t).step count g.shared = some (w, l)) :
    ((g.loc t).joins (R * count)).toNat + w.arrived =
      (l.joins (R * count)).toNat + g.shared.arrived := by
  have hfits := h.fits t
  cases hloc : g.loc t <;> rw [hloc] at hfits hstep hpc
  case advance => cases hpc
  case wake => cases hstep
  case arrive =>
    obtain ⟨rfl, rfl⟩ := step_inj hstep
    have hjoins : decide (R * count ≤ g.shared.arrived) = true := decide_eq_true h.le
    split <;> simp only [BarrierPc.joins, hjoins, Bool.toNat_true, Bool.toNat_false] <;> omega
  case leave n =>
    obtain ⟨rfl, rfl⟩ := step_inj hstep
    simp only [BarrierPc.joins, decide_eq_false (Nat.not_le.2 hfits.2)]
  case wait =>
    obtain ⟨rfl, rfl⟩ := step_inj hstep
    split <;> rfl
  case check n =>
    rw [BarrierPc.step] at hstep
    split at hstep <;> obtain ⟨rfl, rfl⟩ := step_inj hstep
    · rfl
    · have hlt := (Nat.div_lt_iff_lt_mul hcount).1 (h.lt_of_phase_ne hcount hfits ‹_›)
      simp only [BarrierPc.joins, decide_eq_false (Nat.not_le.2 hlt)]
  all_goals
    obtain ⟨rfl, rfl⟩ := step_inj hstep
    rfl

end BarrierInv

/-- The calls of the groups that have not been released are those of distinct threads; and
    threads that are about to arrive have loaded the present `phase`. -/
structure Crew [Fintype τ] (count : ℕ) (g : Config τ BarrierShared BarrierPc) (R : ℕ) : Prop extends
    BarrierInv count g R where
  joined : R * count + ∑ t, ((g.loc t).joins (R * count)).toNat = g.shared.arrived
  current : ∀ t phase, g.loc t = .arrive phase → phase = g.shared.phase

namespace Crew

variable [Fintype τ]

variable (h : Crew count g R)

include h

omit [DecidableEq τ] in
/-- While a thread is about to arrive, the others are too few to complete a group. -/
theorem arrived_lt {phase : ℕ} (hcard : Fintype.card τ ≤ count) (hpc : g.loc t = .arrive phase) :
    g.shared.arrived < (R + 1) * count := by
  have hfew : ∑ u, ((g.loc u).joins (R * count)).toNat < ∑ _u : τ, 1 := by
    refine Finset.sum_lt_sum (fun u _ => Bool.toNat_le _) ⟨t, Finset.mem_univ t, ?_⟩
    rw [hpc]
    exact Nat.zero_lt_one
  rw [← Finset.card_eq_sum_ones, Finset.card_univ] at hfew
  rw [← h.joined, Nat.succ_mul]
  omega

omit [DecidableEq τ] in
theorem orderly {c : Unit} (hcard : Fintype.card τ ≤ count) : Orderly g (.run t c) := by
  intro phase hpc
  refine ⟨h.current t phase hpc, fun u hu => ?_⟩
  exact (h.arrived_lt hcard hpc).ne ((h.fits u).arrived_eq hu)

theorem next (hcount : 0 < count) (hword : count < 2 ^ 32) (hcard : Fintype.card τ ≤ count)
    (hstep : (g.loc t).step count g.shared = some (w, l)) :
    Crew count (g.set t w l) (R + (g.loc t).advances) := by
  have hinv := h.toBarrierInv.next hcount hword (h.orderly (c := ()) hcard) hstep
  refine ⟨hinv, ?_, fun u phase hu => ?_⟩
  · rcases Nat.eq_zero_or_pos (g.loc t).advances with hzero | hpos
    · have hsum := @Config.sum_set _ _ _ _ g t w l _ fun l => (l.joins (R * count)).toNat
      have hjoins := h.step_joins hcount hzero hstep
      have hold := h.joined
      rw [hzero, Nat.add_zero, Config.set_shared]
      omega
    · -- all calls that have arrived are in groups that have been released
      obtain ⟨n, hpc⟩ := BarrierPc.eq_advance_of_pos hpos
      have hfits := h.fits t
      rw [hpc] at hstep hfits
      obtain ⟨rfl, rfl⟩ := step_inj hstep
      rw [hpc, show R + (BarrierPc.advance n).advances = R + 1 from rfl, ← hfits.1, ← hfits.2.1,
        Config.set_shared, Finset.sum_eq_zero fun u _ => ?_, Nat.add_zero]
      exact congrArg Bool.toNat (hinv.not_joins u)
  · by_cases hut : u = t
    · rw [hut, Config.set_loc_self] at hu
      exact BarrierPc.step_arrive (hu ▸ hstep)
    · rw [Config.set_loc_of_ne g hut] at hu
      refine (h.current u phase hu).trans (BarrierPc.step_phase hstep fun n hpc => ?_).symm
      exact (h.arrived_lt hcard hu).ne ((h.fits t).arrived_eq (by rw [hpc]; rfl))

theorem wakeUp {us : Finset τ} : Crew count ((barrierMachine count τ).wakeUp g t us) R := by
  refine ⟨h.toBarrierInv.wakeUp, ?_, fun u phase hu => h.current u phase ?_⟩
  · rw [Machine.sum_wakeUp (fun l : BarrierPc => (l.joins (R * count)).toNat)]
    · exact h.joined
    · cases g.loc t <;> rfl
    · intro u _
      cases g.loc u <;> rfl
  · refine Machine.rel_wakeUp (r := fun l l' : BarrierPc => l' = .arrive phase → l = .arrive phase)
      (fun _ hl => hl) ?_ (fun u _ => ?_) u hu
    · cases g.loc t <;> first | exact id | exact (by cases ·)
    · cases g.loc u <;> first | exact id | exact (by cases ·)

end Crew

/-- With no more threads than a group has calls, every run is orderly: in each interleaving the
    calls are in groups of `count`. -/
theorem barrier_grouped_of_card_le [Fintype τ] (hcount : 0 < count) (hword : count < 2 ^ 32)
    (hcard : Fintype.card τ ≤ count)
    (h : (barrierMachine count τ).Steps (fun _ _ => True) (barrierInit τ) g) : Grouped count g := by
  have hcrew : ∃ R, Crew count g R := by
    refine h.invariant (I := fun g => ∃ R, Crew count g R) ?_ ?_ ⟨0, .init hcount, ?_, ?_⟩
    · rintro g t c w l ⟨R, hg⟩ - hnext
      exact ⟨_, hg.next hcount hword hcard hnext⟩
    · rintro g t us f n ⟨R, hg⟩ - - -
      exact ⟨R, hg.wakeUp⟩
    · simp [barrierInit, BarrierPc.joins]
    · intro t phase hpc
      cases hpc
  obtain ⟨R, hg⟩ := hcrew
  exact hg.grouped hcount

end

/-- Three threads pass a barrier for three, and one of them comes back. -/
def passedTwice : Config Trio BarrierShared BarrierPc :=
  ((barrierMachine 3 Trio).replay (fun _ _ => True) (barrierInit Trio)
    (List.flatten [barrierOps .c 2, barrierOps .a 4, barrierOps .b 4, barrierOps .c 3,
      [.wake .c {.a, .b}], barrierOps .a 5])).get (by decide)

theorem barrier_grouped_of_card_le_trio :
    passedTwice.shared.arrived = 4 ∧ Grouped 3 passedTwice :=
  ⟨by decide, barrier_grouped_of_card_le (by decide) (by decide) (by decide)
    (Machine.steps_replay_get _)⟩

end Sync

end Trona
