import Trona.Lib.Threads
import Trona.Posix.Signal

/-!
# Dispositions of signals

What is to be done with a signal is noted twice: the table of a process has the handler, and
procmgr has its disposition, which is the default action, or to ignore the signal, or to catch it.
`posix_signal` changes the table first and then tells procmgr; when the call fails, it puts the old
handler back. When a handler is called only once (`SA_RESETHAND`), then `posix_sigcheck` and
`dispatch_signal_bits` change the table too, and tell procmgr (`posix/signals.rs`).

Any number of threads do this, and a signal may come while such a call waits: then its handler
runs before the call goes on. So a thread has a stack of functions, and the threads are
interleaved in every way.

The two can come to differ (`disposition_differs`). `posix_signal` takes an interruption for a
failure, but procmgr has done what it was asked for; the message about a handler that is called
only once is not sent again; and a change of the disposition of a signal may come in the middle of
another one. When none of this happens, they agree on each signal whenever nobody is about to
change its disposition (`disposition_agrees`).
-/

namespace Trona

namespace Posix

/-! ## procmgr -/

/-- `SIG_DISP_IGN`. -/
def sigDispIgn : ℕ := 1

/-- `SIG_DISP_CATCH`. -/
def sigDispCatch : ℕ := 2

/-- The disposition that goes with a handler. -/
def disposition (handler : ℕ) : ℕ :=
  if handler = sigDfl then sigDispDfl else if handler = sigIgn then sigDispIgn else sigDispCatch

/-- procmgr has a disposition for each signal, and does as it is asked. -/
def procmgr : Server Unit (ℕ → ℕ) := fun _ msg applied =>
  if msg.label = pmSigactionLabel then
    ({ label := tronaOk }, Function.update applied (msg.reg 0) (msg.reg 1))
  else ({ label := tronaInvalidArgument }, applied)

/-! ## The threads -/

/-- `__sig_handlers`, and the dispositions that procmgr has. -/
structure SigShared where
  handlers : ℕ → ℕ
  applied : ℕ → ℕ

/-- A place in a function. -/
inductive SigFrame
  /-- `posix_signal`: at the load of the handler that the signal has. -/
  | load (sig handler : ℕ)
  | store (sig handler old : ℕ)
  /-- `posix_signal`: in the call to procmgr. -/
  | call (sig handler old : ℕ)
  | revert (sig old : ℕ)
  /-- `dispatch_signal_bits` or `posix_sigcheck`: at the store of `SIG_DFL`, for a handler that
      is called only once. -/
  | reset (sig : ℕ)
  /-- In the call to procmgr that follows. -/
  | notify (sig : ℕ)
  /-- In the handler. -/
  | handler (sig : ℕ)
  deriving DecidableEq

inductive SigChoice
  /-- `posix_signal` is called. -/
  | signal (sig : ℤ) (handler : ℕ)
  /-- A signal is there. The flag of its entry is free: whether its handler is called only once. -/
  | deliver (sig : ℕ) (resethand : Bool)
  | op
  | ipc (a : Attempt Unit)
  | ret

/-- The program runs, or a handler does. -/
def running : List SigFrame → Bool
  | [] | .handler _ :: _ => true
  | _ => false

/-- A signal may come: when a function asks for signals, and in a call to a server. -/
def interruptible : List SigFrame → Bool
  | [] | .handler _ :: _ | .call _ _ _ :: _ | .revert _ _ :: _ | .notify _ :: _ => true
  | _ => false

/-- `posix_signal` does not take these. -/
def refusesSignal (sig : ℤ) (handler : ℕ) : Bool :=
  sig ≤ 0 || sig ≥ nsig || sig = 9 || sig = sigstop || handler = 2 ^ 64 - 1

/-- A call to procmgr: what it has then, and what is left for the caller. -/
def SigShared.call (s : SigShared) (msg : Msg) (a : Attempt Unit) :
    Option (CallResult × SigShared) :=
  match callCtx procmgr msg a s.applied with
  | .ok r applied => some (r, { s with applied })
  | .error _ _ => none

def SigShared.setHandler (s : SigShared) (sig handler : ℕ) : SigShared :=
  { s with handlers := Function.update s.handlers sig handler }

/-- A step of a thread. Only a signal with a handler changes anything when it comes. -/
def sigStep (c : SigChoice) (s : SigShared) (stack : List SigFrame) :
    Option (SigShared × List SigFrame) :=
  match c, stack with
  | .signal sig handler, stack =>
    if running stack then
      some (s, if refusesSignal sig handler then stack else .load sig.toNat handler :: stack)
    else none
  | .deliver sig resethand, stack =>
    if interruptible stack then
      some (s,
        if disposition (s.handlers sig) = sigDispCatch then
          (if resethand then .reset sig else .handler sig) :: stack
        else stack)
    else none
  | .op, .load sig handler :: stack => some (s, .store sig handler (s.handlers sig) :: stack)
  | .op, .store sig handler old :: stack =>
    some (s.setHandler sig handler, .call sig handler old :: stack)
  | .op, .revert sig old :: stack => some (s.setHandler sig old, stack)
  | .op, .reset sig :: stack => some (s.setHandler sig sigDfl, .notify sig :: stack)
  | .ipc a, .call sig handler old :: stack =>
    (s.call (sigactionMsg sig (disposition handler)) a).map fun p =>
      (p.2,
        if p.1.err = (tronaRestart : ℤ) then .call sig handler old :: stack
        else if p.1.err ≠ 0 ∨ p.1.reply.label ≠ tronaOk then .revert sig old :: stack
        else stack)
  | .ipc a, .notify sig :: stack =>
    (s.call (sigactionMsg sig sigDispDfl) a).map fun p => (p.2, .handler sig :: stack)
  | .ret, .handler _ :: stack => some (s, stack)
  | _, _ => none

/-- The threads of a process. None of them waits for another one. -/
def sigMachine (τ : Type) : Machine τ SigShared (List SigFrame) SigChoice Empty where
  next _ := sigStep
  sleeping _ := none
  roused := id
  waking _ := none
  resumed := id

/-- At first all signals have the default action. -/
def sigStart (τ : Type) : Config τ SigShared (List SigFrame) :=
  ⟨⟨fun _ => sigDfl, fun _ => sigDispDfl⟩, fun _ => []⟩

/-! ## The condition -/

/-- The signal whose disposition is about to be changed. -/
def SigFrame.changes : SigFrame → Option ℕ
  | load sig _ | store sig _ _ | call sig _ _ | revert sig _ | reset sig | notify sig => some sig
  | handler _ => none

/-- The functions of a thread that are about to change the disposition of a signal. -/
def pending (sig : ℕ) (stack : List SigFrame) : List SigFrame :=
  stack.filter fun f => f.changes = some sig

/-- Nobody is about to change the disposition of a signal. -/
def Quiet {τ : Type} (g : Config τ SigShared (List SigFrame)) (sig : ℕ) : Prop :=
  ∀ t, pending sig (g.loc t) = []

instance {τ : Type} [Fintype τ] (g : Config τ SigShared (List SigFrame)) (sig : ℕ) :
    Decidable (Quiet g sig) :=
  inferInstanceAs (Decidable (∀ t, pending sig (g.loc t) = []))

/-- The reply to a call is not lost, or does not matter; the message about a handler that is called
    only once is delivered. -/
def SigFrame.Takes : SigFrame → Attempt Unit → Bool
  | call _ new old, .interrupted _ _ => disposition old = disposition new
  | notify _, .restart | notify _, .failed _ => false
  | _, _ => true

/-- The calls go well, and a change of the disposition of a signal does not begin before another
    one is over. -/
def Orderly {τ : Type} (g : Config τ SigShared (List SigFrame)) : Act τ SigChoice → Prop
  | .run _ (.signal sig _) => Quiet g sig.toNat
  | .run _ (.deliver sig resethand) => resethand → Quiet g sig
  | .run t (.ipc a) => ∀ f ∈ (g.loc t).head?, f.Takes a
  | .run _ .op | .run _ .ret | .wake _ _ => True

instance {τ : Type} [Fintype τ] (g : Config τ SigShared (List SigFrame)) :
    (a : Act τ SigChoice) → Decidable (Orderly g a)
  | .run _ (.signal sig _) => inferInstanceAs (Decidable (Quiet g sig.toNat))
  | .run _ (.deliver sig resethand) => inferInstanceAs (Decidable (resethand → Quiet g sig))
  | .run t (.ipc a) => inferInstanceAs (Decidable (∀ f ∈ (g.loc t).head?, f.Takes a))
  | .run _ .op | .run _ .ret | .wake _ _ => inferInstanceAs (Decidable True)

/-! ## One signal -/

/-- What a step of a thread is for one signal: its handler, the disposition that procmgr has, and
    the functions of the thread that are about to change it. A change begins only when `Q` holds. -/
inductive SigMove (sig : ℕ) (Q : Prop) : ℕ → ℕ → List SigFrame → ℕ → ℕ → List SigFrame → Prop
  | none {h a : ℕ} {fs : List SigFrame} : SigMove sig Q h a fs h a fs
  | begins {h a : ℕ} {fs : List SigFrame} {f : SigFrame} (hq : Q)
    (hf : f = .reset sig ∨ ∃ new, f = .load sig new) : SigMove sig Q h a fs h a (f :: fs)
  | loads {h a new : ℕ} {fs : List SigFrame} :
    SigMove sig Q h a (.load sig new :: fs) h a (.store sig new h :: fs)
  | stores {h a new old : ℕ} {fs : List SigFrame} :
    SigMove sig Q h a (.store sig new old :: fs) new a (.call sig new old :: fs)
  | fails {h a new old : ℕ} {fs : List SigFrame} :
    SigMove sig Q h a (.call sig new old :: fs) h a (.revert sig old :: fs)
  | loses {h a new old : ℕ} {fs : List SigFrame} (heq : disposition old = disposition new) :
    SigMove sig Q h a (.call sig new old :: fs) h (disposition new) (.revert sig old :: fs)
  | applies {h a new old : ℕ} {fs : List SigFrame} :
    SigMove sig Q h a (.call sig new old :: fs) h (disposition new) fs
  | reverts {h a old : ℕ} {fs : List SigFrame} : SigMove sig Q h a (.revert sig old :: fs) old a fs
  | resets {h a : ℕ} {fs : List SigFrame} :
    SigMove sig Q h a (.reset sig :: fs) sigDfl a (.notify sig :: fs)
  | notifies {h a : ℕ} {fs : List SigFrame} : SigMove sig Q h a (.notify sig :: fs) h sigDispDfl fs

section

variable {sig : ℕ} {Q : Prop} {f : SigFrame} {stack stack' : List SigFrame} {s s' : SigShared}
  {c : SigChoice}

theorem pending_cons_of_eq (h : f.changes = some sig) :
    pending sig (f :: stack) = f :: pending sig stack := by
  rw [pending, List.filter_cons, if_pos (decide_eq_true h), pending]

theorem pending_cons_of_ne (h : f.changes ≠ some sig) :
    pending sig (f :: stack) = pending sig stack := by
  rw [pending, List.filter_cons, if_neg (by simpa using h), pending]

variable {sig' h : ℕ} {a : Attempt Unit} {r : CallResult}

theorem pending_cons_other (hf : f.changes = some sig') (hne : sig ≠ sig') :
    pending sig (f :: stack) = pending sig stack :=
  pending_cons_of_ne fun h => hne (Option.some.inj (h.symm.trans hf))

@[simp] theorem pending_handler : pending sig (.handler sig' :: stack) = pending sig stack :=
  pending_cons_of_ne (by simp [SigFrame.changes])

/-- procmgr notes a disposition, and the reply says so. -/
theorem SigShared.call_cases {disp : ℕ} (h : s.call (sigactionMsg sig' disp) a = some (r, s')) :
    (s' = s ∧ (r.err = tronaRestart ∧ a = .restart ∨
      r.err ≠ tronaRestart ∧ r.err ≠ 0 ∧ ∃ e, a = .failed e)) ∨
      (s' = { s with applied := Function.update s.applied sig' disp } ∧
        (r.err = 0 ∧ r.reply.label = tronaOk ∨
          r.err = tronaInterrupted ∧ ∃ lastRestart, a = .interrupted () lastRestart)) := by
  cases a with
  | restart =>
    obtain ⟨rfl, rfl⟩ := step_inj h
    exact .inl ⟨rfl, .inl ⟨rfl, rfl⟩⟩
  | failed e =>
    obtain ⟨rfl, rfl⟩ := step_inj h
    exact .inl ⟨rfl, .inr ⟨e.ne_restart, e.ne_zero, e, rfl⟩⟩
  | interrupted u lastRestart =>
    obtain ⟨rfl, rfl⟩ := step_inj h
    exact .inr ⟨rfl, .inr ⟨rfl, lastRestart, rfl⟩⟩
  | answered u =>
    obtain ⟨rfl, rfl⟩ := step_inj h
    exact .inr ⟨rfl, .inl ⟨rfl, rfl⟩⟩

@[simp] theorem SigShared.setHandler_self : (s.setHandler sig h).handlers sig = h :=
  Function.update_self ..

theorem SigShared.setHandler_of_ne (hne : sig ≠ sig') :
    (s.setHandler sig' h).handlers sig = s.handlers sig := Function.update_of_ne hne ..

/-- A step that is about another signal. -/
theorem SigMove.of_eq (hhandlers : s'.handlers sig = s.handlers sig)
    (happlied : s'.applied sig = s.applied sig)
    (hpending : pending sig stack' = pending sig stack) :
    SigMove sig Q (s.handlers sig) (s.applied sig) (pending sig stack) (s'.handlers sig)
      (s'.applied sig) (pending sig stack') := by
  rw [hhandlers, happlied, hpending]
  exact .none

/-- A step of a function that is about to change the disposition of a signal is nothing for the
    other ones. -/
theorem SigMove.of_changes (hf : f.changes = some sig')
    (hother : sig ≠ sig' → s'.handlers sig = s.handlers sig ∧ s'.applied sig = s.applied sig ∧
      pending sig stack' = pending sig stack)
    (hself : SigMove sig' (sig' = sig → Q) (s.handlers sig') (s.applied sig')
      (f :: pending sig' stack) (s'.handlers sig') (s'.applied sig') (pending sig' stack')) :
    SigMove sig Q (s.handlers sig) (s.applied sig) (pending sig (f :: stack)) (s'.handlers sig)
      (s'.applied sig) (pending sig stack') := by
  rcases eq_or_ne sig' sig with rfl | hsig
  · rw [pending_cons_of_eq hf]
    simpa using hself
  · obtain ⟨hhandlers, happlied, hpending⟩ := hother (Ne.symm hsig)
    exact .of_eq hhandlers happlied (hpending.trans (pending_cons_other hf (Ne.symm hsig)).symm)

/-- The call of `posix_signal`. -/
theorem move_call {new old : ℕ} (htakes : (SigFrame.call sig' new old).Takes a)
    (hcall : s.call (sigactionMsg sig' (disposition new)) a = some (r, s')) :
    SigMove sig Q (s.handlers sig) (s.applied sig) (pending sig (.call sig' new old :: stack))
      (s'.handlers sig) (s'.applied sig)
      (pending sig (if r.err = (tronaRestart : ℤ) then .call sig' new old :: stack
        else if r.err ≠ 0 ∨ r.reply.label ≠ tronaOk then .revert sig' old :: stack
        else stack)) := by
  refine .of_changes rfl (fun hne => ?_) ?_
  · -- nothing is changed for another signal
    refine ⟨?_, ?_, ?_⟩
    · rcases SigShared.call_cases hcall with ⟨rfl, -⟩ | ⟨rfl, -⟩ <;> rfl
    · rcases SigShared.call_cases hcall with ⟨rfl, -⟩ | ⟨rfl, -⟩
      · rfl
      · exact Function.update_of_ne hne ..
    · split_ifs
      · exact pending_cons_other rfl hne
      · exact pending_cons_other rfl hne
      · rfl
  · -- the call is made again, or it has failed, or it is answered, or its answer is lost
    rcases SigShared.call_cases hcall with ⟨rfl, ⟨herr, -⟩ | ⟨hrestart, herr, -⟩⟩ |
      ⟨rfl, ⟨herr, hlabel⟩ | ⟨herr, lastRestart, rfl⟩⟩
    · rw [if_pos herr, pending_cons_of_eq rfl]
      exact .none
    · rw [if_neg hrestart, if_pos (.inl herr), pending_cons_of_eq rfl]
      exact .fails
    · rw [if_neg (by rw [herr]; decide), if_neg (by simp [herr, hlabel])]
      simp only [Function.update_self]
      exact .applies
    · rw [if_neg (by rw [herr]; decide), if_pos (.inl (by rw [herr]; decide)),
        pending_cons_of_eq rfl]
      simp only [Function.update_self]
      exact .loses (of_decide_eq_true htakes)

/-- The message that a handler is not in the table any more is delivered. -/
theorem move_notify (htakes : (SigFrame.notify sig').Takes a)
    (hcall : s.call (sigactionMsg sig' sigDispDfl) a = some (r, s')) :
    SigMove sig Q (s.handlers sig) (s.applied sig) (pending sig (.notify sig' :: stack))
      (s'.handlers sig) (s'.applied sig) (pending sig (.handler sig' :: stack)) := by
  rcases SigShared.call_cases hcall with ⟨-, ⟨-, rfl⟩ | ⟨-, -, e, rfl⟩⟩ | ⟨rfl, -⟩
  · cases htakes
  · cases htakes
  · refine .of_changes rfl (fun hne => ⟨rfl, Function.update_of_ne hne .., pending_handler⟩) ?_
    simp only [Function.update_self, pending_handler]
    exact .notifies

/-- A step of a thread is one of those for each signal. -/
theorem sigStep_move (hstep : sigStep c s stack = some (s', stack'))
    (htakes : ∀ a, c = .ipc a → ∀ f ∈ stack.head?, f.Takes a)
    (hsignal : ∀ z new, c = .signal z new → z.toNat = sig → Q)
    (hdeliver : c = .deliver sig true → Q) :
    SigMove sig Q (s.handlers sig) (s.applied sig) (pending sig stack)
      (s'.handlers sig) (s'.applied sig) (pending sig stack') := by
  cases c with
  | signal z new =>
    obtain ⟨-, rfl, rfl⟩ := guarded_inj hstep
    split
    · -- a number that is refused
      exact .none
    · by_cases hsig : z.toNat = sig
      · rw [hsig, pending_cons_of_eq rfl]
        exact .begins (hsignal z new rfl hsig) (.inr ⟨new, rfl⟩)
      · exact .of_eq rfl rfl (pending_cons_other rfl (Ne.symm hsig))
  | deliver sig' resethand =>
    obtain ⟨-, rfl, rfl⟩ := guarded_inj hstep
    split
    · cases resethand with
      | true =>
        rcases eq_or_ne sig' sig with rfl | hsig
        · rw [if_pos rfl, pending_cons_of_eq rfl]
          exact .begins (hdeliver rfl) (.inl rfl)
        · exact .of_eq rfl rfl (pending_cons_other rfl (Ne.symm hsig))
      | false => exact .of_eq rfl rfl pending_handler
    · exact .none
  | op =>
    cases stack with
    | nil => cases hstep
    | cons f stack =>
      cases f with
      | call | notify | handler => cases hstep
      | load sig' new =>
        obtain ⟨rfl, rfl⟩ := step_inj hstep
        refine .of_changes rfl (fun hne => ⟨rfl, rfl, pending_cons_other rfl hne⟩) ?_
        rw [pending_cons_of_eq rfl]
        exact .loads
      | store sig' new old =>
        obtain ⟨rfl, rfl⟩ := step_inj hstep
        refine .of_changes rfl (fun hne => ⟨SigShared.setHandler_of_ne hne, rfl, ?_⟩) ?_
        · exact pending_cons_other rfl hne
        · rw [pending_cons_of_eq rfl, SigShared.setHandler_self]
          exact .stores
      | revert sig' old =>
        obtain ⟨rfl, rfl⟩ := step_inj hstep
        refine .of_changes rfl (fun hne => ⟨SigShared.setHandler_of_ne hne, rfl, rfl⟩) ?_
        rw [SigShared.setHandler_self]
        exact .reverts
      | reset sig' =>
        obtain ⟨rfl, rfl⟩ := step_inj hstep
        refine .of_changes rfl (fun hne => ⟨SigShared.setHandler_of_ne hne, rfl, ?_⟩) ?_
        · exact pending_cons_other rfl hne
        · rw [pending_cons_of_eq rfl, SigShared.setHandler_self]
          exact .resets
  | ipc a =>
    cases stack with
    | nil => cases hstep
    | cons f stack =>
      cases f with
      | load | store | revert | reset | handler => cases hstep
      | call sig' new old =>
        obtain ⟨⟨r, s'⟩, hcall, rfl, rfl⟩ := mapped_inj hstep
        exact move_call (htakes a rfl _ rfl) hcall
      | notify sig' =>
        obtain ⟨⟨r, s'⟩, hcall, rfl, rfl⟩ := mapped_inj hstep
        exact move_notify (htakes a rfl _ rfl) hcall
  | ret =>
    cases stack with
    | nil => cases hstep
    | cons f stack =>
      cases f with
      | handler sig' =>
        obtain ⟨rfl, rfl⟩ := step_inj hstep
        exact .none
      | _ => cases hstep

/-- How a function that is about to change the disposition of a signal fits to the handler and to
    what procmgr has. -/
def SigFrame.Fits (h a : ℕ) : SigFrame → Prop
  | load _ _ => disposition h = a
  | store _ _ old => old = h ∧ disposition old = a
  | call _ new old => h = new ∧ disposition old = a
  | revert _ old => disposition old = a
  | notify _ => h = sigDfl
  | reset _ | handler _ => True

/-- A step is nothing for a signal, or it begins a change when that is allowed, or it goes on with
    one. At the end of a change the two agree. -/
theorem SigMove.fits {a h' a' : ℕ} {fs fs' : List SigFrame}
    (hmove : SigMove sig Q h a fs h' a' fs') :
    (h' = h ∧ a' = a ∧ fs' = fs) ∨
    (Q ∧ h' = h ∧ a' = a ∧ ∃ f, fs' = f :: fs ∧ (disposition h = a → f.Fits h a)) ∨
    ∃ f rest, fs = f :: rest ∧
      (f.Fits h a → fs' = rest ∧ disposition h' = a' ∨ ∃ f', fs' = f' :: rest ∧ f'.Fits h' a') := by
  cases hmove with
  | none => exact .inl ⟨rfl, rfl, rfl⟩
  | begins hq hf =>
    refine .inr (.inl ⟨hq, rfl, rfl, _, rfl, fun heq => ?_⟩)
    rcases hf with rfl | ⟨new, rfl⟩
    · exact True.intro
    · exact heq
  | loads => exact .inr (.inr ⟨_, _, rfl, fun hfits => .inr ⟨_, rfl, rfl, hfits⟩⟩)
  | stores => exact .inr (.inr ⟨_, _, rfl, fun hfits => .inr ⟨_, rfl, rfl, hfits.2⟩⟩)
  | fails => exact .inr (.inr ⟨_, _, rfl, fun hfits => .inr ⟨_, rfl, hfits.2⟩⟩)
  | loses heq => exact .inr (.inr ⟨_, _, rfl, fun _ => .inr ⟨_, rfl, heq⟩⟩)
  | applies => exact .inr (.inr ⟨_, _, rfl, fun hfits => .inl ⟨rfl, congrArg disposition hfits.1⟩⟩)
  | reverts => exact .inr (.inr ⟨_, _, rfl, fun hfits => .inl ⟨rfl, hfits⟩⟩)
  | resets => exact .inr (.inr ⟨_, _, rfl, fun _ => .inr ⟨_, rfl, rfl⟩⟩)
  | notifies => exact .inr (.inr ⟨_, _, rfl, fun hfits => .inl ⟨rfl, congrArg disposition hfits⟩⟩)

end

/-! ## Runs -/

section

variable {τ : Type} {g : Config τ SigShared (List SigFrame)} {sig : ℕ} {t : τ}

/-- Nobody is about to change the disposition of the signal and the two agree, or one function is
    about to do so. -/
def AgreesOn (g : Config τ SigShared (List SigFrame)) (sig : ℕ) : Prop :=
  Quiet g sig ∧ disposition (g.shared.handlers sig) = g.shared.applied sig ∨
    ∃ t f, pending sig (g.loc t) = [f] ∧ (∀ u, u ≠ t → pending sig (g.loc u) = []) ∧
      f.Fits (g.shared.handlers sig) (g.shared.applied sig)

variable [DecidableEq τ] {s : SigShared} {stack : List SigFrame}

theorem AgreesOn.set (h : AgreesOn g sig)
    (hmove : SigMove sig (Quiet g sig) (g.shared.handlers sig) (g.shared.applied sig)
      (pending sig (g.loc t)) (s.handlers sig) (s.applied sig) (pending sig stack)) :
    AgreesOn (g.set t s stack) sig := by
  have hself : pending sig ((g.set t s stack).loc t) = pending sig stack := by
    rw [Config.set_loc_self]
  have hothers : ∀ u, u ≠ t → pending sig ((g.set t s stack).loc u) = pending sig (g.loc u) :=
    fun u hut => by rw [Config.set_loc_of_ne g hut]
  -- one function of this thread is about to change the disposition, and nobody else is
  have hone : ∀ f, pending sig stack = [f] → (∀ u, u ≠ t → pending sig (g.loc u) = []) →
      f.Fits (s.handlers sig) (s.applied sig) → AgreesOn (g.set t s stack) sig :=
    fun f hf hquiet hfits =>
      .inr ⟨t, f, hself.trans hf, fun u hut => (hothers u hut).trans (hquiet u hut), hfits⟩
  rcases hmove.fits with ⟨hh, ha, hfs⟩ | ⟨hquiet, hh, ha, f, hfs, hfits⟩ | ⟨f, rest, hfs, hfits⟩
  · have hpending : ∀ u, pending sig ((g.set t s stack).loc u) = pending sig (g.loc u) := by
      intro u
      by_cases hut : u = t
      · rw [hut, hself, hfs]
      · exact hothers u hut
    simpa only [AgreesOn, Quiet, hpending, Config.set_shared, hh, ha] using h
  · rcases h with ⟨-, hagree⟩ | ⟨u, f', hf', -⟩
    · refine hone f ?_ (fun u _ => hquiet u) ?_
      · rw [hfs, hquiet t]
      · rw [hh, ha]
        exact hfits hagree
    · rw [hquiet u] at hf'
      cases hf'
  · rcases h with ⟨hquiet, -⟩ | ⟨u, f', hf', hrest, hold⟩
    · rw [hquiet t] at hfs
      cases hfs
    · obtain rfl : u = t := by
        by_contra hut
        rw [hrest t (Ne.symm hut)] at hfs
        cases hfs
      rw [hf'] at hfs
      obtain ⟨rfl, rfl⟩ := List.cons.inj hfs
      rcases hfits hold with ⟨hend, hagree⟩ | ⟨f'', hfs', hnew⟩
      · refine .inl ⟨fun v => ?_, hagree⟩
        by_cases hvu : v = u
        · rw [hvu, hself, hend]
        · exact (hothers v hvu).trans (hrest v hvu)
      · exact hone f'' hfs' hrest hnew

variable [Fintype τ]

/-- In every run of any number of threads in which the calls go well and the changes of the
    disposition of a signal do not overlap, procmgr has the disposition that goes with the handler,
    for each signal that nobody is about to change. -/
theorem disposition_agrees (h : (sigMachine τ).Steps Orderly (sigStart τ) g)
    (hquiet : Quiet g sig) : disposition (g.shared.handlers sig) = g.shared.applied sig := by
  have hinv : ∀ sig, AgreesOn g sig := by
    refine h.invariant (I := fun g => ∀ sig, AgreesOn g sig) ?_ ?_
      fun sig => .inl ⟨fun _ => rfl, rfl⟩
    · intro g t c s stack hinv horderly hnext sig
      refine (hinv sig).set (sigStep_move hnext ?_ ?_ ?_)
      · rintro a rfl
        exact horderly
      · rintro z new rfl rfl
        exact horderly
      · rintro rfl
        exact horderly rfl
    · intro g t us f n _ _ hwaking
      cases hwaking
  rcases hinv sig with ⟨-, hagree⟩ | ⟨t, f, hf, -⟩
  · exact hagree
  · rw [hquiet t] at hf
    cases hf

end

/-- A handler for a signal is installed. -/
def installRun (sig : ℤ) (handler : ℕ) (attempts : List (Attempt Unit)) :
    List (Act Trio SigChoice) :=
  [.run .a (.signal sig handler), .run .a .op, .run .a .op] ++
    attempts.map fun a => .run .a (.ipc a)

/-- A signal comes whose handler is called only once. While this handler runs, the signal is to be
    ignored, but the call fails. -/
def resetOnce : Config Trio SigShared (List SigFrame) :=
  ((sigMachine Trio).replay Orderly (sigStart Trio)
    (List.flatten [installRun 2 0x1000 [.restart, .answered ()],
      [.run .a (.deliver 2 true), .run .a .op, .run .a (.ipc (.interrupted () false))],
      installRun 2 sigIgn [.failed .invalidCapability],
      [.run .a .op, .run .a .ret]])).get (by decide +kernel)

theorem disposition_agrees_resetOnce :
    (resetOnce.shared.handlers 2 = sigDfl ∧ Quiet resetOnce 2) ∧
      disposition (resetOnce.shared.handlers 2) = resetOnce.shared.applied 2 :=
  ⟨by decide +kernel, disposition_agrees (Machine.steps_replay_get _) (by decide +kernel)⟩

/-- The reply to `posix_signal` is lost. -/
def lostReply : Config Trio SigShared (List SigFrame) :=
  ((sigMachine Trio).replay (fun _ _ => True) (sigStart Trio)
    (installRun 2 0x1000 [.interrupted () false] ++ [.run .a .op])).get (by decide +kernel)

/-- A signal comes whose handler is called only once, and the message to procmgr is not
    delivered. -/
def lostReset : Config Trio SigShared (List SigFrame) :=
  ((sigMachine Trio).replay (fun _ _ => True) (sigStart Trio)
    (installRun 2 0x1000 [.answered ()] ++
      [.run .a (.deliver 2 true), .run .a .op, .run .a (.ipc .restart), .run .a .ret])).get
    (by decide +kernel)

/-- Before the message about a second handler is delivered, the signal comes. The handler is called
    only once, and is taken out again. -/
def overtaken : Config Trio SigShared (List SigFrame) :=
  ((sigMachine Trio).replay (fun _ _ => True) (sigStart Trio)
    (List.flatten [installRun 2 0x1000 [.answered ()], installRun 2 0x2000 [.restart],
      [.run .a (.deliver 2 true), .run .a .op, .run .a (.ipc (.answered ())), .run .a .ret],
      [.run .a (.ipc (.answered ()))]])).get (by decide +kernel)

/-- All functions have returned. -/
def AllReturned (g : Config Trio SigShared (List SigFrame)) : Prop := ∀ t, g.loc t = []

instance (g : Config Trio SigShared (List SigFrame)) : Decidable (AllReturned g) :=
  inferInstanceAs (Decidable (∀ t, g.loc t = []))

/-- In each of these runs all functions have returned, and the two differ. -/
theorem disposition_differs :
    ((sigMachine Trio).Steps (fun _ _ => True) (sigStart Trio) lostReply ∧ AllReturned lostReply ∧
      disposition (lostReply.shared.handlers 2) ≠ lostReply.shared.applied 2) ∧
    ((sigMachine Trio).Steps (fun _ _ => True) (sigStart Trio) lostReset ∧ AllReturned lostReset ∧
      disposition (lostReset.shared.handlers 2) ≠ lostReset.shared.applied 2) ∧
    (sigMachine Trio).Steps (fun _ _ => True) (sigStart Trio) overtaken ∧ AllReturned overtaken ∧
      disposition (overtaken.shared.handlers 2) ≠ overtaken.shared.applied 2 :=
  ⟨⟨Machine.steps_replay_get _, by decide +kernel⟩, ⟨Machine.steps_replay_get _, by decide +kernel⟩,
    Machine.steps_replay_get _, by decide +kernel⟩

end Posix

end Trona
