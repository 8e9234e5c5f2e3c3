import Mathlib.Data.List.Range
import Trona.Lib.LockStep
import Trona.Posix.Call

/-!
# Dispatching signals

Signals come as the bits of a word. `dispatch_signal_bits` (`posix/signals.rs`) goes through them in
ascending order: a signal that is blocked is posted again at the end, and any other one is ignored,
ends the process, or is given to its handler, by what the table of the handlers says when it is its
turn. While a handler runs, more signals are blocked. `posix_sigcheck` asks for the word itself, and
does the same with it.

A handler is any function of the tables and of the mask of the blocked signals, so each signal
finds the tables as the handlers before it have left them. Which signals are posted again is decided
by the mask at the start, and this mask is back in force after each handler
(`dispatchSignalBits_treats`).

Procmgr is told about a handler that is to be called only once. What comes in this call is
dispatched in a run of its own, with handlers that may change the tables and default actions that
may end the process (`SigCall.dispatching`). So the handler need not find `SIG_DFL` in its place
(`dispatchSignalBits_reinstalled`).
-/

namespace Trona

namespace Posix

/-! ## Tables -/

/-- `NSIG`. -/
def nsig : ℕ := 32

/-- `SIG_DFL`. -/
def sigDfl : ℕ := 0

/-- `SIG_IGN`. -/
def sigIgn : ℕ := 1

/-- `SA_RESETHAND`. -/
def saResethand : BitVec 32 := 0x80000000#32

/-- `SA_RESTART`. -/
def saRestart : BitVec 32 := 0x10000000#32

/-- `PM_SIGACTION`. -/
def pmSigactionLabel : ℕ := 9

/-- `SIG_DISP_DFL`. -/
def sigDispDfl : ℕ := 0

def sigchld : ℕ := 17
def sigcont : ℕ := 18
def sigstop : ℕ := 19
def sigtstp : ℕ := 20
def sigttin : ℕ := 21
def sigttou : ℕ := 22

/-- The default action for a signal is to end the process. -/
def sigDefaultAction (sig : ℕ) : Bool :=
  sig ∉ [sigchld, sigcont, sigstop, sigtstp, sigttin, sigttou]

/-- `__sig_handlers`, `__sig_sa_mask`, `__sig_sa_flags` and `__sig_blocked_mask`. -/
structure SigTables where
  handlers : ℕ → ℕ
  saMask : ℕ → BitVec 32
  saFlags : ℕ → BitVec 32
  blocked : BitVec 32

/-- What happens in a call to procmgr: the tables that it leaves, or the status with which the
    process is ended in it. It leaves the mask of the blocked signals as it is. -/
structure SigCall where
  run : SigTables → Except ℕ SigTables
  blocked_eq : ∀ {t t'}, run t = .ok t' → t'.blocked = t.blocked

/-- What the function at an address does when it is called for a signal, and what happens in the
    call to procmgr that is made for a signal. -/
structure SigEnv where
  func : (handler sig : ℕ) → SigTables → SigTables
  call : (sig : ℕ) → SigCall

/-- What becomes of a signal. A handler is called with the tables as they are then, unless the
    process is ended in the call to procmgr before it. -/
inductive Fate
  | reposted
  | ignored
  | byDefault
  | handled (handler : ℕ) (entered : SigTables)
  | inCall (status : ℕ)

/-- A signal with what has become of it, and the tables before and after that. -/
structure Treated where
  sig : ℕ
  before : SigTables
  fate : Fate
  after : SigTables

/-- The tables, the messages to procmgr, the words that are posted to the notification,
    `__sig_last_restart`, and the variables of the functions. Not a variable of the program is
    `treated`, the signals so far. The messages, words and signals are those of one run. -/
structure Dispatch where
  tables : SigTables
  sent : List Msg
  posted : List (BitVec 64)
  lastRestart : Bool
  repost : BitVec 64
  dispatched : ℕ
  anyNoRestart : Bool
  treated : List Treated

/-- The functions do not return when the process is ended, with its status. -/
abbrev SigM := EStateM ℕ Dispatch

/-! ## The functions -/

/-- The request to procmgr to note the disposition of a signal. -/
def sigactionMsg (sig disp : ℕ) : Msg where
  label := pmSigactionLabel
  length := 2
  regs := [sig, disp]

/-- What has become of a signal is noted. -/
def Dispatch.treat (d : Dispatch) (sig : ℕ) (before : SigTables) (fate : Fate) : Dispatch :=
  { d with treated := d.treated ++ [⟨sig, before, fate, d.tables⟩] }

def Dispatch.setBlocked (d : Dispatch) (blocked : BitVec 32) : Dispatch :=
  { d with tables := { d.tables with blocked } }

/-- The handler of a signal is `SIG_DFL` from now on, and procmgr is told so. The outcome of the
    call is not looked at. -/
def Dispatch.resetHandler (d : Dispatch) (sig : ℕ) : Dispatch :=
  { d with
    tables := { d.tables with handlers := Function.update d.tables.handlers sig sigDfl }
    sent := d.sent ++ [sigactionMsg sig sigDispDfl] }

section

variable (env : SigEnv)

/-- The default action for a signal. The process may be ended by it. -/
def takeDefault (sig : ℕ) : SigM PUnit := do
  modify fun d => d.treat sig d.tables .byDefault
  if sigDefaultAction sig then throw (128 + sig) else pure ⟨⟩

/-- The call to procmgr for a signal. -/
def callProcmgr (sig : ℕ) (before : SigTables) : SigM PUnit := do
  match (env.call sig).run (← get).tables with
  | .ok tables => modify fun d => { d with tables }
  | .error status => do
    modify (·.treat sig before (.inCall status))
    throw status

/-- What is done before the call of a handler. -/
def enterHandler (sig : ℕ) : SigM PUnit := do
  let before := (← get).tables
  modify (·.setBlocked (before.blocked ||| before.saMask sig ||| 1#32 <<< sig))
  if before.saFlags sig &&& saResethand ≠ 0#32 then do
    modify (·.resetHandler sig)
    callProcmgr env sig before
  else pure ⟨⟩

variable (note : BitVec 32 → Bool → Bool)

/-- The call of a handler. The two loops differ by `note`, which says what is to become of
    `any_no_restart`. -/
def callHandler (sig handler : ℕ) : SigM PUnit := do
  let before := (← get).tables
  enterHandler env sig
  modify fun d => { d with anyNoRestart := note (before.saFlags sig) d.anyNoRestart }
  let entered := (← get).tables
  modify fun d => { d with tables := env.func handler sig d.tables }
  modify (·.setBlocked before.blocked)
  modify (·.treat sig before (.handled handler entered))

/-- What is done with a signal that is not blocked. -/
def deliver (sig : ℕ) : SigM PUnit := do
  let handler := (← get).tables.handlers sig
  if handler = sigIgn then modify fun d => d.treat sig d.tables .ignored
  else if handler = sigDfl then takeDefault sig
  else callHandler env note sig handler

/-- An iteration of the loops. -/
def treatSignal (bits : BitVec 64) (blocked : BitVec 32) (sig : ℕ) : SigM PUnit :=
  if bits &&& 1#64 <<< sig = 0#64 then pure ⟨⟩
  else if blocked &&& 1#32 <<< sig ≠ 0#32 then
    modify fun d => { d with repost := d.repost ||| 1#64 <<< sig }.treat sig d.tables .reposted
  else do
    deliver env note sig
    modify fun d => { d with dispatched := d.dispatched + 1 }

/-- What the two functions do with the word. They differ by `note` in the loop and by `finish` at
    the end, which says what is to become of `__sig_last_restart`. -/
def treatSignals (finish : Dispatch → Bool) (bits : BitVec 64) : SigM ℕ := do
  let blocked := (← get).tables.blocked
  modify fun d => { d with repost := 0#64, dispatched := 0, anyNoRestart := false }
  (List.range' 1 (nsig - 1)).forM (treatSignal env note bits blocked)
  modify fun d => if d.repost ≠ 0#64 then { d with posted := d.posted ++ [d.repost] } else d
  modify fun d => { d with lastRestart := finish d }
  return (← get).dispatched

/-- `dispatch_signal_bits` also notes whether all signals with a handler have `SA_RESTART`. -/
def dispatchSignalBits : (bits : BitVec 64) → SigM ℕ :=
  treatSignals env
    (fun saFlags anyNoRestart => if saFlags &&& saRestart = 0#32 then true else anyNoRestart)
    fun d => decide (0 < d.dispatched) && !d.anyNoRestart

/-- `posix_sigcheck`, with what the poll of the notification has brought: an error, or a word. -/
def posixSigcheck : (polled : Option (BitVec 64)) → SigM ℕ
  | none => pure 0
  | some bits =>
    if bits = 0#64 then pure 0
    else treatSignals env (fun _ anyNoRestart => anyNoRestart) (·.lastRestart) bits

end

/-! ## What becomes of the signals -/

/-- The signals of a word, in ascending order. -/
def signalsOf (bits : BitVec 64) : List ℕ := (List.range' 1 (nsig - 1)).filter (bits.getLsbD ·)

/-- The status with which a signal ends the process. -/
def Treated.exit (e : Treated) : Option ℕ :=
  match e.fate with
  | .byDefault => if sigDefaultAction e.sig then some (128 + e.sig) else none
  | .inCall status => some status
  | _ => none

/-- The tables that a handler finds: more signals are blocked, and if the handler is to be called
    only once then `SIG_DFL` is put in its place, and procmgr is told so. -/
def SigTables.enter (env : SigEnv) (t : SigTables) (sig : ℕ) : Except ℕ SigTables :=
  let blocked := t.blocked ||| t.saMask sig ||| 1#32 <<< sig
  if t.saFlags sig &&& saResethand ≠ 0#32 then
    (env.call sig).run { t with handlers := Function.update t.handlers sig sigDfl, blocked }
  else .ok { t with blocked }

/-- A signal is treated as it should be, when `mask` is the mask at the start. -/
structure Treated.Right (env : SigEnv) (mask : BitVec 32) (e : Treated) : Prop where
  blocked_before : e.before.blocked = mask
  blocked_after : (∀ status, e.fate ≠ .inCall status) → e.after.blocked = mask
  reposted_iff : e.fate = .reposted ↔ mask.getLsbD e.sig
  ignored_iff : e.fate = .ignored ↔ ¬mask.getLsbD e.sig ∧ e.before.handlers e.sig = sigIgn
  byDefault_iff : e.fate = .byDefault ↔ ¬mask.getLsbD e.sig ∧ e.before.handlers e.sig = sigDfl
  /-- The handler is the one of the table, and finds more signals blocked. -/
  handled : ∀ handler entered, e.fate = .handled handler entered →
    handler = e.before.handlers e.sig ∧ e.before.enter env e.sig = .ok entered ∧
    entered.blocked = mask ||| e.before.saMask e.sig ||| 1#32 <<< e.sig ∧
    e.after = { env.func handler e.sig entered with blocked := mask }
  inCall : ∀ status, e.fate = .inCall status → e.before.enter env e.sig = .error status
  unchanged : (∀ handler entered, e.fate ≠ .handled handler entered) →
    (∀ status, e.fate ≠ .inCall status) → e.after = e.before

/-- Signals are treated one after the other, each with the tables that the ones before it have
    left. -/
inductive Treats (env : SigEnv) (mask : BitVec 32) : SigTables → List Treated → SigTables → Prop
  | nil {t : SigTables} : Treats env mask t [] t
  | snoc {t : SigTables} {es : List Treated} {e : Treated} (h : Treats env mask t es e.before)
    (he : e.Right env mask) : Treats env mask t (es ++ [e]) e.after

def Fate.isReposted : Fate → Bool
  | reposted => true
  | _ => false

/-- All signals of a word are treated. Those that are blocked are posted again, as one word. -/
structure Completed (env : SigEnv) (bits : BitVec 64) (d : Dispatch) (n : ℕ) (d' : Dispatch)
    (es : List Treated) : Prop where
  treated : d'.treated = d.treated ++ es
  signals : es.map (·.sig) = signalsOf bits
  treats : Treats env d.tables.blocked d.tables es d'.tables
  goesOn : ∀ e ∈ es, e.exit = none
  count : n = es.countP fun e => !e.fate.isReposted
  posted : ∃ word : BitVec 64, d'.posted = d.posted ++ (if word = 0#64 then [] else [word]) ∧
    ∀ i, word.getLsbD i ↔ i ∈ signalsOf bits ∧ d.tables.blocked.getLsbD i

/-- The signals of a word are treated up to one that ends the process. -/
structure Ended (env : SigEnv) (bits : BitVec 64) (d : Dispatch) (status : ℕ) (d' : Dispatch)
    (es : List Treated) (e : Treated) : Prop where
  treated : d'.treated = d.treated ++ (es ++ [e])
  signals : (es ++ [e]).map (·.sig) <+: signalsOf bits
  treats : Treats env d.tables.blocked d.tables (es ++ [e]) d'.tables
  goesOn : ∀ e ∈ es, e.exit = none
  ends : e.exit = some status
  posted : d'.posted = d.posted

/-- The same but for `__sig_last_restart` and the variables of the functions. -/
structure Dispatch.Same (d d' : Dispatch) : Prop where
  tables : d.tables = d'.tables
  sent : d.sent = d'.sent
  posted : d.posted = d'.posted
  treated : d.treated = d'.treated

/-! ## One signal -/

section

variable {w : ℕ} {x : BitVec w} {i j : ℕ}

theorem and_bit_eq_zero (hi : i < w) : x &&& 1#w <<< i = 0#w ↔ ¬x.getLsbD i := by
  have hbit : BitVec.twoPow w i ≠ 0#w := by
    intro hzero
    have hget := congrArg (·.getLsbD i) hzero
    simp [hi] at hget
  rw [← BitVec.twoPow_eq, BitVec.and_twoPow]
  by_cases h : x.getLsbD i
  · rw [if_pos h]
    exact ⟨fun hzero => absurd hzero hbit, fun hnot => absurd h hnot⟩
  · rw [if_neg h]
    exact ⟨fun _ => h, fun _ => rfl⟩

theorem getLsbD_or_bit (hi : i < w) : (x ||| 1#w <<< i).getLsbD j ↔ x.getLsbD j ∨ j = i := by
  rw [← BitVec.twoPow_eq, BitVec.getLsbD_or, BitVec.getLsbD_twoPow, decide_eq_true hi,
    Bool.true_and, Bool.or_eq_true, decide_eq_true_iff, @eq_comm ℕ i]

end

section

variable {env : SigEnv} {note : BitVec 32 → Bool → Bool} {bits : BitVec 64} {mask : BitVec 32}
  {d : Dispatch} {sig : ℕ}

/-- A signal has been treated, and what has become of it is noted. -/
structure Advances (env : SigEnv) (sig : ℕ) (d : Dispatch) (e : Treated) (d' : Dispatch) :
    Prop where
  sig_eq : e.sig = sig
  right : e.Right env d.tables.blocked
  before : e.before = d.tables
  after : d'.tables = e.after
  treated : d'.treated = d.treated ++ [e]
  posted : d'.posted = d.posted

theorem Treated.right_reposted {t : SigTables} (h : t.blocked.getLsbD sig) :
    Right env t.blocked ⟨sig, t, .reposted, t⟩ := by
  constructor <;> simp [h]

theorem Treated.right_ignored {t : SigTables} (h : ¬t.blocked.getLsbD sig)
    (hign : t.handlers sig = sigIgn) :
    Right env t.blocked ⟨sig, t, .ignored, t⟩ := by
  constructor <;> simp [h, hign, sigIgn, sigDfl]

theorem Treated.right_byDefault {t : SigTables} (h : ¬t.blocked.getLsbD sig)
    (hdfl : t.handlers sig = sigDfl) : Right env t.blocked ⟨sig, t, .byDefault, t⟩ := by
  constructor <;> simp [h, hdfl, sigIgn, sigDfl]

theorem SigTables.enter_blocked {t t' : SigTables} (h : t.enter env sig = .ok t') :
    t'.blocked = t.blocked ||| t.saMask sig ||| 1#32 <<< sig := by
  rw [enter] at h
  split at h
  · exact (env.call sig).blocked_eq h
  · cases h
    rfl

/-- The handler is about to be called, or the process has been ended. -/
theorem wp_enterHandler :
    wp (enterHandler env sig)
      (fun _ d' => ∃ entered sent, d.tables.enter env sig = .ok entered ∧
        d' = { d with tables := entered, sent })
      (fun status d' => ∃ tables sent, d.tables.enter env sig = .error status ∧
        d' = Dispatch.treat { d with tables, sent } sig d.tables (.inCall status)) d := by
  simp only [enterHandler, callProcmgr, wp_bind, wp_get, wp_modify, wp_ite]
  refine ⟨fun hreset => ?_, fun hreset => wp_pure.2 ⟨_, _, if_neg hreset, rfl⟩⟩
  have henter : d.tables.enter env sig = (env.call sig).run _ := if_pos hreset
  rw [henter]
  split
  · rename_i hcall
    exact wp_modify.2 ⟨_, _, hcall, rfl⟩
  · rename_i hcall
    exact wp_bind.2 (wp_modify.2 (wp_throw.2 ⟨_, _, hcall, rfl⟩))

/-- A handler is called, and nothing else is to be done with the signal; or the process is ended
    before that. -/
theorem wp_callHandler (hblocked : ¬d.tables.blocked.getLsbD sig)
    (hign : d.tables.handlers sig ≠ sigIgn) (hdfl : d.tables.handlers sig ≠ sigDfl) :
    wp (callHandler env note sig (d.tables.handlers sig))
      (fun _ d' => ∃ e, Advances env sig d e d' ∧ e.exit = none ∧ ¬e.fate.isReposted ∧
        d'.repost = d.repost ∧ d'.dispatched = d.dispatched)
      (fun status d' => ∃ e, Advances env sig d e d' ∧ e.exit = some status) d := by
  rw [callHandler, wp_bind, wp_get, wp_bind]
  refine wp_mono wp_enterHandler (fun _ d' hd => ?_) fun status d' hd => ?_
  · obtain ⟨entered, sent, henter, rfl⟩ := hd
    simp only [wp_bind, wp_get, wp_modify]
    refine ⟨_, ⟨rfl, ?_, rfl, rfl, rfl, rfl⟩, rfl, Bool.false_ne_true, rfl, rfl⟩
    constructor <;> simp [hblocked, hign, hdfl, henter, SigTables.enter_blocked henter,
      Dispatch.setBlocked]
  · obtain ⟨tables, sent, henter, rfl⟩ := hd
    refine ⟨_, ⟨rfl, ?_, rfl, rfl, rfl, rfl⟩, rfl⟩
    constructor <;> simp [hblocked, hign, hdfl, henter]

/-- A signal that is not blocked is ignored, or given to its handler, or it is left to the default
    action, which may end the process. -/
theorem wp_deliver (hblocked : ¬d.tables.blocked.getLsbD sig) :
    wp (deliver env note sig)
      (fun _ d' => ∃ e, Advances env sig d e d' ∧ e.exit = none ∧ ¬e.fate.isReposted ∧
        d'.repost = d.repost ∧ d'.dispatched = d.dispatched)
      (fun status d' => ∃ e, Advances env sig d e d' ∧ e.exit = some status) d := by
  simp only [deliver, takeDefault, wp_bind, wp_get, wp_ite, wp_modify, wp_throw, wp_pure]
  refine ⟨fun hign => ?_, fun hign =>
    ⟨fun hdfl => ⟨fun hends => ?_, fun hends => ?_⟩, wp_callHandler hblocked hign⟩⟩
  · exact ⟨_, ⟨rfl, Treated.right_ignored hblocked hign, rfl, rfl, rfl, rfl⟩, rfl,
      Bool.false_ne_true, rfl, rfl⟩
  · exact ⟨_, ⟨rfl, Treated.right_byDefault hblocked hdfl, rfl, rfl, rfl, rfl⟩, if_pos hends⟩
  · exact ⟨_, ⟨rfl, Treated.right_byDefault hblocked hdfl, rfl, rfl, rfl, rfl⟩, if_neg hends,
      Bool.false_ne_true, rfl, rfl⟩

/-- An iteration with a signal of the word. -/
theorem wp_treatSignal (hsig : sig < nsig) (hset : bits.getLsbD sig) :
    wp (treatSignal env note bits d.tables.blocked sig)
      (fun _ d' => ∃ e, Advances env sig d e d' ∧ e.exit = none ∧
        d'.repost = (if e.fate.isReposted then d.repost ||| 1#64 <<< sig else d.repost) ∧
        d'.dispatched = d.dispatched + if e.fate.isReposted then 0 else 1)
      (fun status d' => ∃ e, Advances env sig d e d' ∧ e.exit = some status) d := by
  have hlt : sig < 32 := hsig
  rw [treatSignal, wp_ite, wp_ite, and_bit_eq_zero (by omega), ne_eq, and_bit_eq_zero hlt]
  refine ⟨fun hnot => absurd hset hnot, fun _ => ⟨fun hblocked => ?_, fun hblocked => ?_⟩⟩
  · rw [not_not] at hblocked
    exact wp_modify.2 ⟨_, ⟨rfl, Treated.right_reposted hblocked, rfl, rfl, rfl, rfl⟩, rfl, rfl, rfl⟩
  · rw [not_not] at hblocked
    refine wp_bind.2 (wp_post (wp_deliver hblocked) fun _ d' hd => wp_modify.2 ?_)
    obtain ⟨e, hadv, hexit, hnot, hrepost, hdispatched⟩ := hd
    exact ⟨e, ⟨hadv.sig_eq, hadv.right, hadv.before, hadv.after, hadv.treated, hadv.posted⟩, hexit,
      by rw [if_neg hnot]; exact hrepost, by rw [if_neg hnot]; exact congrArg (· + 1) hdispatched⟩

theorem wp_treatSignal_of_not (hsig : sig < nsig) (hset : ¬bits.getLsbD sig)
    {Q : PUnit → Dispatch → Prop} {E : ℕ → Dispatch → Prop} (h : Q ⟨⟩ d) :
    wp (treatSignal env note bits mask sig) Q E d := by
  have hlt : sig < 32 := hsig
  rw [treatSignal, if_pos ((and_bit_eq_zero (by omega)).2 hset)]
  exact wp_pure.2 h

/-! ## The loop -/

theorem Treats.blocked_eq {t t' : SigTables} {es : List Treated}
    (h : Treats env t.blocked t es t') (hgoesOn : ∀ e ∈ es, e.exit = none) :
    t'.blocked = t.blocked := by
  cases h with
  | nil => rfl
  | @snoc es e _ he =>
    refine he.blocked_after fun status hfate => ?_
    have hexit := hgoesOn e (by simp)
    rw [Treated.exit, hfate] at hexit
    cases hexit

/-- The loop has gone through some of the signals. -/
structure Progress (env : SigEnv) (bits : BitVec 64) (d : Dispatch) (done : List ℕ)
    (d' : Dispatch) (es : List Treated) : Prop where
  treated : d'.treated = d.treated ++ es
  signals : es.map (·.sig) = done.filter (bits.getLsbD ·)
  treats : Treats env d.tables.blocked d.tables es d'.tables
  goesOn : ∀ e ∈ es, e.exit = none
  posted : d'.posted = d.posted
  repost : ∀ i, d'.repost.getLsbD i ↔ i ∈ done.filter (bits.getLsbD ·) ∧ d.tables.blocked.getLsbD i
  dispatched : d'.dispatched = es.countP fun e => !e.fate.isReposted

section

variable {d' d'' : Dispatch} {done : List ℕ} {es : List Treated} {e : Treated}

theorem Progress.skip (h : Progress env bits d done d' es) (hset : ¬bits.getLsbD sig) :
    Progress env bits d (done ++ [sig]) d' es := by
  have hfilter : (done ++ [sig]).filter (bits.getLsbD ·) = done.filter (bits.getLsbD ·) := by
    simp [hset]
  exact ⟨h.treated, by rw [hfilter]; exact h.signals, h.treats, h.goesOn, h.posted,
    by rw [hfilter]; exact h.repost, h.dispatched⟩

/-- A signal of the word, with those before it. -/
theorem filter_concat (hset : bits.getLsbD sig) :
    (done ++ [sig]).filter (bits.getLsbD ·) = done.filter (bits.getLsbD ·) ++ [sig] := by
  rw [List.filter_append, List.filter_singleton, hset, cond_true]

section

variable (h : Progress env bits d done d' es)

include h

theorem Progress.blocked_eq : d'.tables.blocked = d.tables.blocked :=
  h.treats.blocked_eq h.goesOn

theorem Progress.signals_concat (hset : bits.getLsbD sig) (hadv : Advances env sig d' e d'') :
    (es ++ [e]).map (·.sig) = (done ++ [sig]).filter (bits.getLsbD ·) := by
  rw [filter_concat hset, List.map_append, h.signals, List.map_singleton, hadv.sig_eq]

theorem Progress.treats_concat (hadv : Advances env sig d' e d'') :
    Treats env d.tables.blocked d.tables (es ++ [e]) d''.tables := by
  rw [hadv.after]
  refine .snoc ?_ (h.blocked_eq ▸ hadv.right)
  rw [hadv.before]
  exact h.treats

/-- The word of the signals to post again gets those that are blocked, and no others. -/
theorem Progress.repost_concat (hsig : sig < nsig) (hset : bits.getLsbD sig) {again : Bool}
    (hiff : again ↔ d.tables.blocked.getLsbD sig) (i : ℕ) :
    (if again then d'.repost ||| 1#64 <<< sig else d'.repost).getLsbD i ↔
      i ∈ (done ++ [sig]).filter (bits.getLsbD ·) ∧ d.tables.blocked.getLsbD i := by
  have hlt : sig < 64 := Nat.lt_of_lt_of_le hsig (by decide)
  rw [filter_concat hset, List.mem_append, List.mem_singleton]
  by_cases hagain : again
  · rw [if_pos hagain, getLsbD_or_bit hlt, h.repost]
    have hblocked := hiff.1 hagain
    constructor
    · rintro (⟨hmem, hi⟩ | rfl)
      · exact ⟨.inl hmem, hi⟩
      · exact ⟨.inr rfl, hblocked⟩
    · rintro ⟨hmem | rfl, hi⟩
      · exact .inl ⟨hmem, hi⟩
      · exact .inr rfl
  · rw [if_neg hagain, h.repost]
    have hblocked : ¬d.tables.blocked.getLsbD sig := fun hb => hagain (hiff.2 hb)
    constructor
    · rintro ⟨hmem, hi⟩
      exact ⟨.inl hmem, hi⟩
    · rintro ⟨hmem | rfl, hi⟩
      · exact ⟨hmem, hi⟩
      · exact absurd hi hblocked

/-- The loop goes on after a signal. -/
theorem Progress.step (hsig : sig < nsig) (hset : bits.getLsbD sig)
    (hadv : Advances env sig d' e d'') (hexit : e.exit = none)
    (hrepost : d''.repost = if e.fate.isReposted then d'.repost ||| 1#64 <<< sig else d'.repost)
    (hdispatched : d''.dispatched = d'.dispatched + if e.fate.isReposted then 0 else 1) :
    Progress env bits d (done ++ [sig]) d'' (es ++ [e]) where
  treated := by rw [hadv.treated, h.treated, List.append_assoc]
  signals := h.signals_concat hset hadv
  treats := h.treats_concat hadv
  goesOn := by
    intro e' he'
    rcases List.mem_append.1 he' with he' | he'
    · exact h.goesOn e' he'
    · rwa [List.mem_singleton.1 he']
  posted := hadv.posted.trans h.posted
  repost := by
    have hiff : e.fate.isReposted ↔ d.tables.blocked.getLsbD sig := by
      rw [← hadv.sig_eq, ← h.blocked_eq, ← hadv.right.reposted_iff]
      cases e.fate <;> simp [Fate.isReposted]
    rw [hrepost]
    exact h.repost_concat hsig hset hiff
  dispatched := by
    rw [hdispatched, h.dispatched, List.countP_append, List.countP_singleton]
    cases e.fate.isReposted <;> rfl

/-- A signal that ends the process is the last one. Those that come after it in the word are not
    treated. -/
theorem Progress.ended {todo : List ℕ} {status : ℕ} (hset : bits.getLsbD sig)
    (hadv : Advances env sig d' e d'') (hexit : e.exit = some status)
    (hsplit : List.range' 1 (nsig - 1) = done ++ sig :: todo) :
    Ended env bits d status d'' es e where
  treated := by rw [hadv.treated, h.treated, List.append_assoc]
  signals := by
    rw [h.signals_concat hset hadv, signalsOf, hsplit]
    have hpre : done ++ [sig] <+: done ++ sig :: todo := ⟨todo, by simp⟩
    exact hpre.filter _
  treats := h.treats_concat hadv
  goesOn := h.goesOn
  ends := hexit
  posted := hadv.posted.trans h.posted

end

/-- The loop, as the two functions have it. -/
theorem wp_forM_treatSignal (hrepost : d.repost = 0#64) (hdispatched : d.dispatched = 0) :
    wp ((List.range' 1 (nsig - 1)).forM (treatSignal env note bits d.tables.blocked))
      (fun _ d' => ∃ es, Progress env bits d (List.range' 1 (nsig - 1)) d' es)
      (fun status d' => ∃ es e, Ended env bits d status d' es e) d := by
  refine wp_forM (fun done d' => ∃ es, Progress env bits d done d' es) ?_ ?_
  · exact ⟨[], by simp, rfl, .nil, by simp, rfl, by simp [hrepost], hdispatched⟩
  · rintro done sig todo d' hsplit ⟨es, hprogress⟩
    have hsig : sig < nsig := by
      have hmem : sig ∈ List.range' 1 (nsig - 1) := by simp [hsplit]
      have := (List.mem_range'_1.1 hmem).2
      exact this
    by_cases hset : bits.getLsbD sig
    · have hstep : wp (treatSignal env note bits d'.tables.blocked sig) _ _ d' :=
        wp_treatSignal hsig hset
      rw [hprogress.blocked_eq] at hstep
      refine wp_mono hstep (fun _ d'' hd => ?_) fun status d'' hd => ?_
      · obtain ⟨e, hadv, hexit, hrepost, hdispatched⟩ := hd
        exact ⟨_, hprogress.step hsig hset hadv hexit hrepost hdispatched⟩
      · obtain ⟨e, hadv, hexit⟩ := hd
        exact ⟨es, e, hprogress.ended hset hadv hexit hsplit⟩
    · exact wp_treatSignal_of_not hsig hset ⟨es, hprogress.skip hset⟩

/-- The two functions treat the signals as they should. -/
theorem wp_treatSignals {finish : Dispatch → Bool} :
    wp (treatSignals env note finish bits) (fun n d' => ∃ es, Completed env bits d n d' es)
      (fun status d' => ∃ es e, Ended env bits d status d' es e) d := by
  simp only [treatSignals, wp_bind, wp_get, wp_modify]
  refine wp_mono (wp_forM_treatSignal
    (d := { d with repost := 0#64, dispatched := 0, anyNoRestart := false }) rfl rfl)
    (fun _ d' hd => ?_) fun status d' hd => ?_
  · obtain ⟨es, h⟩ := hd
    refine wp_pure.2 ⟨es, ?_⟩
    by_cases hrepost : d'.repost = 0#64
    · rw [if_neg (not_not.2 hrepost)]
      exact ⟨h.treated, h.signals, h.treats, h.goesOn, h.dispatched,
        d'.repost, by rw [if_pos hrepost, List.append_nil]; exact h.posted, h.repost⟩
    · rw [if_pos hrepost]
      exact ⟨h.treated, h.signals, h.treats, h.goesOn, h.dispatched,
        d'.repost, by rw [if_neg hrepost, ← h.posted], h.repost⟩
  · obtain ⟨es, e, h⟩ := hd
    exact ⟨es, e, h.treated, h.signals, h.treats, h.goesOn, h.ends, h.posted⟩

end

end

/-! ## The two functions -/

section

variable {env : SigEnv} {note note' : BitVec 32 → Bool → Bool} {bits : BitVec 64}

/-- The states of the two functions in their loops. -/
def Alike (d d' : Dispatch) : Prop :=
  ∃ anyNoRestart lastRestart, d' = { d with anyNoRestart, lastRestart }

theorem lockStep_modify {f : Dispatch → Dispatch}
    (h : ∀ d anyNoRestart lastRestart, Alike (f d) (f { d with anyNoRestart, lastRestart })) :
    LockStep Alike (modify f : SigM PUnit) (modify f) := by
  refine .modify ?_
  rintro d _ ⟨anyNoRestart, lastRestart, rfl⟩
  exact h d anyNoRestart lastRestart

theorem lockStep_enterHandler {sig : ℕ} :
    LockStep Alike (enterHandler env sig) (enterHandler env sig) := by
  refine .get ?_
  rintro d _ ⟨anyNoRestart, lastRestart, rfl⟩
  refine LockStep.bind (lockStep_modify fun _ _ _ => ⟨_, _, rfl⟩) (fun _ => .ite (fun _ => ?_)
    fun _ => .pure) _ _ ⟨_, _, rfl⟩
  refine .bind (lockStep_modify fun _ _ _ => ⟨_, _, rfl⟩) fun _ => .get ?_
  rintro d _ ⟨anyNoRestart, lastRestart, rfl⟩
  -- both make the call with the same tables
  cases (env.call sig).run d.tables with
  | ok tables => exact .ok ⟨_, _, rfl⟩
  | error status => exact .error ⟨_, _, rfl⟩

theorem lockStep_callHandler {sig handler : ℕ} :
    LockStep Alike (callHandler env note sig handler) (callHandler env note' sig handler) := by
  refine .get ?_
  rintro d _ ⟨anyNoRestart, lastRestart, rfl⟩
  refine LockStep.bind lockStep_enterHandler (fun _ => .bind ?_ fun _ => .get ?_) _ _ ⟨_, _, rfl⟩
  · refine .modify ?_
    rintro d _ ⟨anyNoRestart, lastRestart, rfl⟩
    exact ⟨_, _, rfl⟩
  · rintro d _ ⟨anyNoRestart, lastRestart, rfl⟩
    refine LockStep.bind ?_ (fun _ => .bind ?_ fun _ => ?_) _ _ ⟨_, _, rfl⟩
    all_goals exact lockStep_modify fun _ _ _ => ⟨_, _, rfl⟩

theorem lockStep_deliver {sig : ℕ} :
    LockStep Alike (deliver env note sig) (deliver env note' sig) := by
  rintro d _ ⟨anyNoRestart, lastRestart, rfl⟩
  refine LockStep.ite (fun _ => ?_) (fun _ => .ite (fun _ => ?_) fun _ => lockStep_callHandler) _ _
    ⟨_, _, rfl⟩
  · exact lockStep_modify fun _ _ _ => ⟨_, _, rfl⟩
  · exact .bind (lockStep_modify fun _ _ _ => ⟨_, _, rfl⟩) fun _ =>
      .ite (fun _ => .throw) fun _ => .pure

theorem lockStep_treatSignal {blocked : BitVec 32} {sig : ℕ} :
    LockStep Alike (treatSignal env note bits blocked sig)
      (treatSignal env note' bits blocked sig) := by
  refine .ite (fun _ => .pure) fun _ => .ite (fun _ => ?_) fun _ => .bind lockStep_deliver
    fun _ => ?_
  all_goals exact lockStep_modify fun _ _ _ => ⟨_, _, rfl⟩

/-- The two functions do the same with a word, but for `__sig_last_restart`. -/
theorem lockStep_treatSignals {finish finish' : Dispatch → Bool} :
    LockStep Alike (treatSignals env note finish bits) (treatSignals env note' finish' bits) := by
  refine .get ?_
  rintro d _ ⟨anyNoRestart, lastRestart, rfl⟩
  refine LockStep.bind (lockStep_modify fun _ _ _ => ⟨_, _, rfl⟩) (fun _ => ?_) _ _ ⟨_, _, rfl⟩
  refine .bind (.forM fun _ _ => lockStep_treatSignal) fun _ => .bind ?_ fun _ => .bind ?_
    fun _ => .get ?_
  · refine lockStep_modify fun d _ _ => ?_
    split <;> exact ⟨_, _, rfl⟩
  · refine .modify ?_
    rintro d _ ⟨anyNoRestart, lastRestart, rfl⟩
    exact ⟨_, _, rfl⟩
  · rintro d _ ⟨anyNoRestart, lastRestart, rfl⟩
    exact .ok ⟨_, _, rfl⟩

theorem Alike.same {d d' : Dispatch} (h : Alike d d') : d.Same d' := by
  obtain ⟨anyNoRestart, lastRestart, rfl⟩ := h
  exact ⟨rfl, rfl, rfl, rfl⟩

/-- With no signals there is nothing to do. -/
theorem sameEnd_treatSignals_zero {finish : Dispatch → Bool} {d : Dispatch} :
    SameEnd Dispatch.Same ((pure 0 : SigM ℕ).run d)
      ((treatSignals env note finish 0#64).run d) := by
  have hloop : ∀ (sigs : List ℕ) (blocked : BitVec 32),
      sigs.forM (treatSignal env note 0#64 blocked) = pure ⟨⟩ := by
    intro sigs blocked
    induction sigs with
    | nil => rfl
    | cons sig sigs ih =>
      rw [List.forM, ih, treatSignal, if_pos BitVec.zero_and]
      rfl
  exact .ok ⟨rfl, rfl, rfl, rfl⟩

end

/-- Whatever the handlers do, and whatever happens in the calls to procmgr, `dispatch_signal_bits`
    treats each signal of a word as it should, in ascending order and up to one that ends the
    process, and posts those that are blocked again as one word; and `posix_sigcheck` does the same
    with this word. -/
theorem dispatchSignalBits_treats (env : SigEnv) (bits : BitVec 64) (d : Dispatch) :
    wp (dispatchSignalBits env bits) (fun n d' => ∃ es, Completed env bits d n d' es)
        (fun status d' => ∃ es e, Ended env bits d status d' es e) d ∧
      SameEnd Dispatch.Same ((posixSigcheck env (some bits)).run d)
        ((dispatchSignalBits env bits).run d) := by
  refine ⟨wp_treatSignals, ?_⟩
  rw [posixSigcheck]
  split
  · subst bits
    exact sameEnd_treatSignals_zero
  · exact (lockStep_treatSignals d d ⟨_, _, rfl⟩).mono fun _ _ => Alike.same

/-! ## Signals that come in a call -/

/-- A run begins. -/
def Dispatch.start (tables : SigTables) : Dispatch :=
  ⟨tables, [], [], false, 0#64, 0, false, []⟩

/-- The call is interrupted, and `__signal_dispatcher` dispatches the word that has come. -/
def SigCall.dispatching (env : SigEnv) (bits : BitVec 64) : SigCall where
  run t :=
    match (dispatchSignalBits env bits).run (.start t) with
    | .ok _ d => .ok d.tables
    | .error status _ => .error status
  blocked_eq {t t'} h := by
    split at h
    · rename_i hrun
      obtain ⟨es, hdone⟩ := wp_ok wp_treatSignals hrun
      cases h
      exact hdone.treats.blocked_eq hdone.goesOn
    · cases h

/-- No signal comes. -/
def SigCall.quiet : SigCall := ⟨.ok, fun h => by cases h; rfl⟩

/-- The function at 100 installs the one at 200 as the handler of signal 1. -/
def installing (handler _sig : ℕ) (t : SigTables) : SigTables :=
  if handler = 100 then { t with handlers := Function.update t.handlers 1 200 } else t

/-- Signal 2 comes in every call to procmgr. -/
def reinstalling : SigEnv where
  func := installing
  call _ := .dispatching ⟨installing, fun _ => .quiet⟩ (1#64 <<< 2)

/-- The handler of signal 1, at 200, is to be called only once. It is installed again by the one of
    signal 2, at 100, and then entered. -/
theorem dispatchSignalBits_reinstalled :
    let t : SigTables := ⟨fun sig => if sig = 1 then 200 else 100, fun _ => 0#32,
      fun sig => if sig = 1 then saResethand else 0#32, 0#32⟩
    ∃ d' e entered, (dispatchSignalBits reinstalling (1#64 <<< 1)).run (.start t) = .ok 1 d' ∧
      d'.treated = [e] ∧ e.sig = 1 ∧ e.fate = .handled 200 entered ∧ entered.handlers 1 = 200 :=
  ⟨_, _, _, rfl, rfl, rfl, rfl, rfl⟩

end Posix

end Trona
