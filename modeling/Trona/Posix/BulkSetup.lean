import Trona.Lib.Run
import Trona.Posix.Bulk

/-!
# The set-up of the memory for bulk transfers

`ensure_bulk_shm` (`posix/bulk.rs`) sets up the memory in three calls: the server for memory
creates it, maps it for the process, and VFS maps it too. The state says that the memory is ready
when all of this is done, and it is meant to say so only then.

A process is followed over any number of steps of its threads, and over forks: the run then goes
on in the child. The child has a copy of all variables, `posix_personality_fork_child`
(`posix/pthread.rs`) does not touch those of the bulk transfers, and of the threads only the one
that has called `fork` is there. Its process number is new, and with it the number of the memory.

Both the calls and the forks can break the promise. The error of a call is not looked at, so the
set-up goes on after a call that has failed; and the child believes that the memory of its parent
is its own (`bulkSetup_unacknowledged`). When all calls are answered and a process forks only
before it has any of the memory, the state is right (`bulkSetup_acknowledged`).
-/

namespace Trona

namespace Posix

/-! ## Processes -/

/-- A process: whether it has the endpoints of the servers, the number of its memory, and its
    threads. -/
structure BulkProcess (τ : Type) where
  caps : Bool
  shmId : ℕ
  threads : Config τ BulkShared BulkLoc

/-- What happens to a process. -/
inductive BulkInput (τ : Type)
  | act (a : Act τ BulkChoice)
  /-- A thread forks, and the run goes on in the child. The child has what the kernel and the
      process manager give it. -/
  | fork (t : τ) (caps : Bool) (shmId : ℕ) (mapped : List ℕ)

/-- What can be seen of it: the answers of the servers, and the beginning of a new process. -/
inductive BulkEvent
  | answered (msg reply : Msg)
  | forked

/-- The request that a thread in the set-up is about to make. -/
def BulkPc.asks (shmId : ℕ) : BulkPc → Option Msg
  | create => some (shmCreateMsg shmId)
  | map => some (shmMapMsg shmId)
  | setup => some (bulkSetupMsg shmId)
  | _ => none

/-- A thread that is in no call of the functions. -/
def BulkPc.isIdle : BulkPc → Bool
  | idle _ => true
  | _ => false

namespace BulkProcess

variable {τ : Type}

/-- A call without an error brings the answer of the server. -/
def heard (p : BulkProcess τ) : Act τ BulkChoice → List BulkEvent
  | .run t (.ipc o) =>
    match (p.threads.loc t).pc.asks p.shmId with
    | some msg =>
      match p.threads.shared.call msg o with
      | some (r, _) => if r.err = 0 then [.answered msg r.reply] else []
      | none => []
    | none => []
  | _ => []

/-- The process before its first step. -/
def start (τ : Type) (caps : Bool) (shmId : ℕ) : BulkProcess τ := ⟨caps, shmId, bulkInit τ⟩

variable [Fintype τ] [DecidableEq τ]

/-- The child of a process. The other threads of the parent are gone; the child may start its
    own. -/
def child (p : BulkProcess τ) (t : τ) (caps : Bool) (shmId : ℕ) (mapped : List ℕ) :
    BulkProcess τ where
  caps := caps
  shmId := shmId
  threads :=
    (bulkInit τ).set t { p.threads.shared with mapped } (p.threads.loc t)

/-- A step of a process. -/
def step (p : BulkProcess τ) : BulkInput τ → Option (BulkProcess τ × List BulkEvent)
  | .act a =>
    ((bulkMachine τ p.caps p.shmId).exec p.threads a).map fun g =>
      ({ p with threads := g }, p.heard a)
  | .fork t caps shmId mapped =>
    if (p.threads.loc t).pc.isIdle then some (p.child t caps shmId mapped, [.forked]) else none

/-- The runs of a process, in which all steps meet a condition. -/
def system (τ : Type) [Fintype τ] [DecidableEq τ] (caps : Bool) (shmId : ℕ)
    (C : BulkProcess τ → BulkInput τ → Prop) : Lts (BulkProcess τ) BulkEvent :=
  .ofInputs (start τ caps shmId) step C

end BulkProcess

/-! ## Acknowledgements -/

/-- The requests of a process with their answers. -/
abbrev Answers := List (Msg × Msg)

/-- A child has heard nothing yet. -/
def Answers.note (log : Answers) : BulkEvent → Answers
  | .answered msg reply => (msg, reply) :: log
  | .forked => []

section

variable (shmId addr : ℕ) (log : Answers)

/-- The server for memory has said that the memory is there. -/
def Created : Prop :=
  ∃ reply, (shmCreateMsg shmId, reply) ∈ log ∧
    (reply.label = tronaOk ∨ reply.label = tronaAlreadyExists)

/-- The server for memory has said that the memory is mapped for the process at an address. -/
def MappedAt : Prop :=
  ∃ reply, (shmMapMsg shmId, reply) ∈ log ∧ reply.label = tronaOk ∧ reply.reg 0 = addr

/-- VFS has said that it has mapped the memory. -/
def VfsMapped : Prop :=
  ∃ reply, (bulkSetupMsg shmId, reply) ∈ log ∧ reply.label = tronaOk

/-- The memory is there and mapped for the process. -/
structure Attached : Prop where
  created : Created shmId log
  mapped : MappedAt shmId addr log

/-- All of the set-up is acknowledged. -/
structure Acknowledged : Prop extends Attached shmId addr log where
  setup : VfsMapped shmId log

end

/-- The thread is about to wake those that wait for the set-up. -/
def BulkPc.isWaking : BulkPc → Bool
  | wake _ => true
  | _ => false

section

variable {τ : Type}

/-- The state of the set-up is right. -/
structure BulkProcess.Proper (p : BulkProcess τ) (log : Answers) : Prop where
  /-- What is ready is acknowledged for this process. -/
  ready : p.threads.shared.state = .ready → Acknowledged p.shmId p.threads.shared.addr log
  /-- One thread at a time sets up the memory. -/
  alone : ∀ t u, (p.threads.loc t).pc.isSetup → (p.threads.loc u).pc.isSetup → t = u
  /-- A thread is blocked only while another one sets up the memory, or is about to wake it. -/
  blocked : ∀ t, (p.threads.loc t).pc = .asleep →
    ∃ u, (p.threads.loc u).pc.isSetup ∨ (p.threads.loc u).pc.isWaking

/-- The server has answered. -/
def Attempt.isAnswered {κ : Type} : Attempt κ → Bool
  | .answered _ => true
  | _ => false

/-- The calls of the set-up are answered, and a process forks only while it has nothing of the
    memory. -/
def BulkProcess.Sound (p : BulkProcess τ) : BulkInput τ → Prop
  | .act (.run t (.ipc o)) => (p.threads.loc t).pc.isSetup → o.last.isAnswered
  | .act _ => True
  | .fork _ _ _ _ => p.threads.shared.state = .uninit ∧ p.threads.shared.addr = 0

instance (p : BulkProcess τ) : (i : BulkInput τ) → Decidable (p.Sound i)
  | .act (.run t (.ipc o)) =>
    inferInstanceAs (Decidable ((p.threads.loc t).pc.isSetup → o.last.isAnswered))
  | .act (.run _ (.call _ _)) | .act (.run _ .op) | .act (.wake _ _) =>
    inferInstanceAs (Decidable True)
  | .fork _ _ _ _ =>
    inferInstanceAs (Decidable (p.threads.shared.state = .uninit ∧ p.threads.shared.addr = 0))

end

/-! ## Steps of the set-up -/

section

variable {shmId addr : ℕ} {log log' : Answers}

theorem Created.mono (h : Created shmId log) (hlog : log ⊆ log') : Created shmId log' :=
  h.imp fun _ hr => ⟨hlog hr.1, hr.2⟩

theorem Attached.mono (h : Attached shmId addr log) (hlog : log ⊆ log') :
    Attached shmId addr log' :=
  ⟨h.created.mono hlog, h.mapped.imp fun _ hr => ⟨hlog hr.1, hr.2⟩⟩

theorem Acknowledged.mono (h : Acknowledged shmId addr log) (hlog : log ⊆ log') :
    Acknowledged shmId addr log' :=
  ⟨h.toAttached.mono hlog, h.setup.imp fun _ hr => ⟨hlog hr.1, hr.2⟩⟩

end

/-- What a step of a thread is for the set-up, when the servers have answered all that is in
    `log`. -/
inductive SetupStep (shmId : ℕ) (log : Answers) :
    ShmState → ℕ → BulkPc → ShmState → ℕ → BulkPc → Prop
  /-- The thread is not in the set-up. It goes to sleep only while another one is. -/
  | outside {state : ShmState} {addr : ℕ} {pc pc' : BulkPc} (hpc : ¬pc.isSetup)
    (hpc' : ¬pc'.isSetup) (hasleep : pc' = .asleep → state = .initing) (hwaking : ¬pc.isWaking) :
    SetupStep shmId log state addr pc state addr pc'
  | enter {addr : ℕ} {pc' : BulkPc} (hpc' : pc' = .checkAddr ∨ pc' = .finish false) :
    SetupStep shmId log .uninit addr .cas .initing addr pc'
  | reuse {state : ShmState} {addr : ℕ} (haddr : addr ≠ 0) :
    SetupStep shmId log state addr .checkAddr state addr .setup
  | first {state : ShmState} {addr : ℕ} :
    SetupStep shmId log state addr .checkAddr state addr .create
  | created {state : ShmState} {addr : ℕ} (hcreated : Created shmId log) :
    SetupStep shmId log state addr .create state addr .map
  | mapped {state : ShmState} {addr : ℕ} (addr' : ℕ) (hmapped : MappedAt shmId addr' log) :
    SetupStep shmId log state addr .map state addr (.storeAddr addr')
  | stored {state : ShmState} {addr : ℕ} (addr' : ℕ) :
    SetupStep shmId log state addr (.storeAddr addr') state addr' .setup
  | served {state : ShmState} {addr : ℕ} (hvfs : VfsMapped shmId log) :
    SetupStep shmId log state addr .setup state addr (.finish true)
  | refused {state : ShmState} {addr : ℕ} {pc : BulkPc} (hpc : pc.isSetup) :
    SetupStep shmId log state addr pc state addr (.finish false)
  | finish {state : ShmState} {addr : ℕ} (success : Bool) :
    SetupStep shmId log state addr (.finish success) (if success then .ready else .uninit) addr
      (.wake success)

/-- A step outside of the set-up, after which the thread is awake. -/
theorem SetupStep.elsewhere {shmId addr : ℕ} {log : Answers} {state : ShmState} {pc pc' : BulkPc}
    (hpc : pc.isSetup = false) (hwaking : pc.isWaking = false) (hpc' : pc'.isSetup = false)
    (hawake : pc' ≠ .asleep) : SetupStep shmId log state addr pc state addr pc' :=
  .outside (by simp [hpc]) (by simp [hpc']) (fun h => absurd h hawake) (by simp [hwaking])

namespace BulkLoc

variable {l l' : BulkLoc} {s s' : BulkShared} {shmId : ℕ} {log : Answers}

/-- An answered call of the set-up is in the log, with the reply that the thread has. -/
theorem setupCall_heard {msg : Msg} {o : Retried Served} {next : Msg → BulkPc}
    (hlog : ∀ r w, s.call msg o = some (r, w) → r.err = 0 → (msg, r.reply) ∈ log)
    (hanswered : o.last.isAnswered) (h : setupCall s l msg o next = some (s', l')) :
    ∃ reply, (msg, reply) ∈ log ∧ s'.state = s.state ∧ s'.addr = s.addr ∧ l'.pc = next reply := by
  obtain ⟨r, w, hcall, rfl, rfl⟩ := setupCall_eq h
  refine ⟨r.reply, hlog r w hcall ?_, rfl, rfl, rfl⟩
  rw [BulkShared.call, ipcCallRetry_eq] at hcall
  cases hlast : o.last with
  | answered c =>
    rw [hlast] at hcall
    obtain ⟨rfl, -⟩ := step_inj hcall
    rfl
  | restart | interrupted | failed =>
    rw [hlast] at hanswered
    cases hanswered

/-- A call of the set-up is refused, or the set-up goes on with the reply. -/
theorem setupCall_setupStep {msg : Msg} {o : Retried Served} {bad : Msg → Prop} [DecidablePred bad]
    {go : Msg → BulkPc} {pc : BulkPc}
    (hlog : ∀ r w, s.call msg o = some (r, w) → r.err = 0 → (msg, r.reply) ∈ log)
    (hanswered : o.last.isAnswered) (hpc : pc.isSetup)
    (hgo : ∀ reply, (msg, reply) ∈ log → ¬bad reply →
      SetupStep shmId log s.state s.addr pc s.state s.addr (go reply))
    (h : setupCall s l msg o (fun reply => if bad reply then .finish false else go reply) =
      some (s', l')) :
    SetupStep shmId log s.state s.addr pc s'.state s'.addr l'.pc := by
  obtain ⟨reply, hmem, hstate, haddr, hpc'⟩ := setupCall_heard hlog hanswered h
  rw [hstate, haddr, hpc']
  split
  · exact .refused hpc
  · exact hgo reply hmem ‹_›

/-- A step of a thread is one of those. -/
theorem step_setupStep {caps : Bool} {c : BulkChoice}
    (hstep : l.step caps shmId c s = some (s', l'))
    (hanswered : ∀ o, c = .ipc o → l.pc.isSetup → o.last.isAnswered)
    (hlog : ∀ o msg r w, c = .ipc o → l.pc.asks shmId = some msg → s.call msg o = some (r, w) →
      r.err = 0 → (msg, r.reply) ∈ log) :
    SetupStep shmId log s.state s.addr l.pc s'.state s'.addr l'.pc := by
  cases hpc : l.pc <;> rw [hpc] at hanswered hlog <;> cases c <;>
    simp only [step, hpc, reduceCtorEq] at hstep
  case idle.call | asleep.op =>
    obtain ⟨rfl, rfl⟩ := step_inj hstep
    exact .elsewhere rfl rfl rfl (by simp [goto])
  case load.op =>
    split at hstep <;> obtain ⟨rfl, rfl⟩ := step_inj hstep <;>
      exact .elsewhere rfl rfl rfl (by simp [goto])
  case wait.op =>
    obtain ⟨rfl, rfl⟩ := step_inj hstep
    simp only [goto]
    split
    · exact .outside Bool.false_ne_true Bool.false_ne_true (fun _ => ‹_›) Bool.false_ne_true
    · exact .elsewhere rfl rfl rfl (by simp)
  case cas.op =>
    split at hstep <;> obtain ⟨rfl, rfl⟩ := step_inj hstep
    · rename_i hstate
      rw [hstate]
      refine .enter ?_
      split
      · exact .inl rfl
      · exact .inr rfl
    · exact .elsewhere rfl rfl rfl (by simp [goto])
  case checkAddr.op =>
    obtain ⟨rfl, rfl⟩ := step_inj hstep
    split
    · exact .first
    · exact .reuse ‹_›
  -- the three calls: what is known after each of them is the answer that has been heard
  case create.ipc o =>
    refine setupCall_setupStep (hlog o _ · · rfl rfl) (hanswered o rfl rfl) rfl
      (fun reply hmem hlabel => ?_) hstep
    exact .created ⟨reply, hmem, by tauto⟩
  case map.ipc o =>
    refine setupCall_setupStep (hlog o _ · · rfl rfl) (hanswered o rfl rfl) rfl
      (fun reply hmem hlabel => ?_) hstep
    exact .mapped _ ⟨reply, hmem, not_not.1 hlabel, rfl⟩
  case setup.ipc o =>
    refine setupCall_setupStep (hlog o _ · · rfl rfl) (hanswered o rfl rfl) rfl
      (fun reply hmem hlabel => ?_) hstep
    exact .served ⟨reply, hmem, not_not.1 hlabel⟩
  case storeAddr.op addr =>
    obtain ⟨rfl, rfl⟩ := step_inj hstep
    exact .stored addr
  case finish.op success =>
    obtain ⟨rfl, rfl⟩ := step_inj hstep
    exact .finish success
  case loadAddr.op =>
    obtain ⟨rfl, rfl⟩ := step_inj hstep
    exact .elsewhere rfl rfl head_pc.1 head_pc.2
  case copyIn.op =>
    split at hstep
    · obtain ⟨-, rfl, rfl⟩ := guarded_inj hstep
      split
      · exact .elsewhere rfl rfl rfl (by simp [goto])
      · exact .elsewhere rfl rfl rfl (by simp [ret])
    · cases hstep
  case request.ipc o =>
    obtain ⟨⟨r, w⟩, -, rfl, rfl⟩ := mapped_inj hstep
    exact .elsewhere rfl rfl replied_pc.1 replied_pc.2
  case copyOut.op got =>
    obtain ⟨-, rfl, rfl⟩ := guarded_inj hstep
    exact .elsewhere rfl rfl advance_pc.1 advance_pc.2

end BulkLoc

/-! ## Runs -/

/-- What a thread in the set-up knows at its place. -/
def BulkPc.Knows (shmId addr : ℕ) (log : Answers) : BulkPc → Prop
  | map => Created shmId log
  | storeAddr addr' => Attached shmId addr' log
  | setup => Attached shmId addr log
  | finish true => Acknowledged shmId addr log
  | _ => True

/-- What is kept by every step, for the places of the threads. -/
structure SetupLog {τ : Type} (shmId : ℕ) (log : Answers) (state : ShmState) (addr : ℕ)
    (pc : τ → BulkPc) : Prop where
  inv : SetupInv state pc
  exists_setup : state = .initing → ∃ t, (pc t).isSetup
  asleep : ∀ t, pc t = .asleep → state = .initing ∨ ∃ u, (pc u).isWaking
  knows : ∀ t, (pc t).Knows shmId addr log
  /-- An address that is not zero is kept for the next attempt. -/
  attached : addr ≠ 0 → Attached shmId addr log
  acknowledged : state = .ready → Acknowledged shmId addr log

section

variable {shmId addr addr' : ℕ} {log log' : Answers} {state state' : ShmState}

theorem BulkPc.Knows.mono {pc : BulkPc} (h : pc.Knows shmId addr log) (hlog : log ⊆ log') :
    pc.Knows shmId addr log' := by
  rw [Knows.eq_def] at h ⊢
  split at h
  · exact Created.mono h hlog
  · exact Attached.mono h hlog
  · exact Attached.mono h hlog
  · exact Acknowledged.mono h hlog
  · exact True.intro

theorem BulkPc.knows_of_not_isSetup {pc : BulkPc} (h : ¬pc.isSetup) : pc.Knows shmId addr log := by
  cases pc <;> first | exact True.intro | exact absurd rfl h

namespace SetupStep

variable {pc pc' : BulkPc}

variable (h : SetupStep shmId log state addr pc state' addr' pc')

include h

/-- Who is about to wake the others makes no step of this kind. -/
theorem not_isWaking : ¬pc.isWaking := by
  cases h with
  | outside _ _ _ hwaking => exact hwaking
  | refused hpc =>
    intro hwaking
    cases pc with
    | wake success => cases hpc
    | _ => cases hwaking
  | _ => exact Bool.false_ne_true

/-- A thread goes on with the set-up, or begins with it, or ends it and has the wake-up call to
    make. -/
theorem state_cases :
    state' = state ∧ (pc.isSetup → pc'.isSetup) ∨ state' = .initing ∧ pc'.isSetup ∨
      state' ≠ .initing ∧ pc'.isWaking := by
  cases h with
  | outside hnot => exact .inl ⟨rfl, fun hpc => absurd hpc hnot⟩
  | enter hpc' => exact .inr (.inl ⟨rfl, by rcases hpc' with rfl | rfl <;> rfl⟩)
  | finish success => exact .inr (.inr ⟨by cases success <;> simp, rfl⟩)
  | _ => exact .inl ⟨rfl, fun _ => rfl⟩

/-- A thread goes to sleep only while the memory is set up. -/
theorem asleep (hpc' : pc' = .asleep) : state' = .initing := by
  cases h with
  | outside _ _ hasleep => exact hasleep hpc'
  | enter => rfl
  | _ => cases hpc'

/-- The address is changed by a thread in the set-up. -/
theorem addr_eq : addr' = addr ∨ pc.isSetup := by
  cases h with
  | stored => exact .inr rfl
  | _ => exact .inl rfl

/-- What a thread in the set-up has to know at its next place is what it knows already, or the
    answer that it has just got. -/
theorem knows (hattached : addr ≠ 0 → Attached shmId addr log) (hpc : pc.Knows shmId addr log) :
    pc'.Knows shmId addr' log ∧ (addr' ≠ 0 → Attached shmId addr' log) := by
  cases h with
  | outside _ hpc' => exact ⟨BulkPc.knows_of_not_isSetup hpc', hattached⟩
  | enter hpc' => exact ⟨by rcases hpc' with rfl | rfl <;> exact True.intro, hattached⟩
  | reuse haddr => exact ⟨hattached haddr, hattached⟩
  | created hcreated => exact ⟨hcreated, hattached⟩
  | mapped addr' hmapped => exact ⟨⟨hpc, hmapped⟩, hattached⟩
  | stored addr' => exact ⟨hpc, fun _ => hpc⟩
  | served hvfs => exact ⟨⟨hpc, hvfs⟩, hattached⟩
  | first | refused | finish => exact ⟨True.intro, hattached⟩

/-- Only what is acknowledged is said to be ready. -/
theorem acknowledged (hready : state = .ready → Acknowledged shmId addr log)
    (hpc : pc.Knows shmId addr log) (hinit : pc.isSetup → state = .initing)
    (hstate : state' = .ready) : Acknowledged shmId addr' log := by
  cases h with
  | enter => cases hstate
  | stored => cases hstate.symm.trans (hinit rfl)
  | finish success =>
    cases success with
    | true => exact hpc
    | false => cases hstate
  | _ => exact hready hstate

end SetupStep

variable {τ : Type} {pc pc' : τ → BulkPc} {t : τ}

namespace SetupLog

section

variable (h : SetupLog shmId log state addr pc)
  (hstep : SetupStep shmId log' state addr (pc t) state' addr' (pc' t))
  (hothers : ∀ u, u ≠ t → pc' u = pc u)

include h hstep hothers

/-- While the memory is set up, there is a thread that does it. -/
theorem exists_setup_move (hstate : state' = .initing) : ∃ u, (pc' u).isSetup := by
  rcases hstep.state_cases with ⟨rfl, hgoesOn⟩ | ⟨-, hsetup⟩ | ⟨hne, -⟩
  · obtain ⟨u, hu⟩ := h.exists_setup hstate
    by_cases hut : u = t
    · exact ⟨t, hgoesOn (hut ▸ hu)⟩
    · exact ⟨u, by rwa [hothers u hut]⟩
  · exact ⟨t, hsetup⟩
  · exact absurd hstate hne

/-- Who is asleep waits for the end of the set-up, or for the wake-up call. -/
theorem asleep_move {u : τ} (hu : pc' u = .asleep) : state' = .initing ∨ ∃ v, (pc' v).isWaking := by
  by_cases hut : u = t
  · exact .inl (hstep.asleep (hut ▸ hu))
  rw [hothers u hut] at hu
  rcases hstep.state_cases with ⟨rfl, -⟩ | ⟨hstate, -⟩ | ⟨-, hwaking⟩
  · refine (h.asleep u hu).imp_right fun hv => ?_
    obtain ⟨v, hv⟩ := hv
    have hvt : v ≠ t := by
      rintro rfl
      exact hstep.not_isWaking hv
    exact ⟨v, by rwa [hothers v hvt]⟩
  · exact .inl hstate
  · exact .inr ⟨t, hwaking⟩

end

/-- A step of a thread keeps what is known. -/
theorem move (h : SetupLog shmId log state addr pc) (hlog : log ⊆ log')
    (hstep : SetupStep shmId log' state addr (pc t) state' addr' (pc' t))
    (hothers : ∀ u, u ≠ t → pc' u = pc u) (hinv : SetupInv state' pc') :
    SetupLog shmId log' state' addr' pc' := by
  have hattached : addr ≠ 0 → Attached shmId addr log' := fun ha => (h.attached ha).mono hlog
  have hknows := (h.knows t).mono hlog
  refine ⟨hinv, h.exists_setup_move hstep hothers, fun u => h.asleep_move hstep hothers,
    fun u => ?_,
    (hstep.knows hattached hknows).2,
    hstep.acknowledged (fun hs => (h.acknowledged hs).mono hlog) hknows (h.inv.initing t)⟩
  by_cases hut : u = t
  · exact hut ▸ (hstep.knows hattached hknows).1
  rw [hothers u hut]
  rcases hstep.addr_eq with rfl | hsetup
  · exact (h.knows u).mono hlog
  · -- the address is changed by the one thread in the set-up
    exact BulkPc.knows_of_not_isSetup fun hu => hut (h.inv.unique u t hu hsetup)

end SetupLog

variable [Fintype τ] [DecidableEq τ] {g : Config τ BulkShared BulkLoc} {caps : Bool} {us : Finset τ}

/-- After a wake-up call nobody is asleep. The threads that have been, and the one that has made
    the call, are not in the set-up. -/
theorem wakeUp_pc (hwaking : (g.loc t).pc.isWaking)
    (hus : us = (bulkMachine τ caps shmId).sleepers g ()) (u : τ) :
    (((bulkMachine τ caps shmId).wakeUp g t us).loc u).pc ≠ .asleep ∧
      ((((bulkMachine τ caps shmId).wakeUp g t us).loc u).pc = (g.loc u).pc ∨
        ¬(g.loc u).pc.isSetup ∧ ¬(((bulkMachine τ caps shmId).wakeUp g t us).loc u).pc.isSetup ∧
        ((((bulkMachine τ caps shmId).wakeUp g t us).loc u).pc.isTransfer →
          (g.loc u).pc.isTransfer)) := by
  by_cases hut : u = t
  · -- the thread that wakes the others goes on, or returns
    subst hut
    cases hpc : (g.loc u).pc with
    | wake success =>
      rw [bulkMachine]
      cases success with
      | true => simp [hpc, BulkLoc.goto, BulkPc.isSetup, BulkPc.isTransfer]
      | false => simp [hpc, BulkLoc.ret, BulkPc.isSetup, BulkPc.isTransfer]
    | _ =>
      rw [hpc] at hwaking
      cases hwaking
  have hmem : u ∈ us ↔ (g.loc u).pc = .asleep := by
    rw [hus, Machine.mem_sleepers]
    simp [bulkMachine]
  by_cases hu : u ∈ us
  · rw [Machine.wakeUp_loc_of_mem hut hu]
    rw [hmem] at hu
    simp [bulkMachine, hu, BulkLoc.goto, BulkPc.isSetup, BulkPc.isTransfer]
  · rw [Machine.wakeUp_loc_of_notMem hut hu]
    exact ⟨fun hpc => hu (hmem.2 hpc), .inl rfl⟩

/-- A wake-up call keeps what is known. -/
theorem SetupLog.wakeUp (h : SetupLog shmId log g.shared.state g.shared.addr fun u => (g.loc u).pc)
    (hwaking : (g.loc t).pc.isWaking) (hus : us = (bulkMachine τ caps shmId).sleepers g ()) :
    SetupLog shmId log g.shared.state g.shared.addr
      fun u => (((bulkMachine τ caps shmId).wakeUp g t us).loc u).pc := by
  have hpc := wakeUp_pc hwaking hus
  refine ⟨h.inv.mono fun u => ?_, fun hstate => ?_, fun u hu => absurd hu (hpc u).1, fun u => ?_,
    h.attached, h.acknowledged⟩
  · rcases (hpc u).2 with heq | ⟨-, hnot, htransfer⟩
    · exact ⟨by rw [heq]; exact id, by rw [heq]; exact id⟩
    · exact ⟨fun hsetup => absurd hsetup hnot, htransfer⟩
  · obtain ⟨u, hu⟩ := h.exists_setup hstate
    refine ⟨u, ?_⟩
    rcases (hpc u).2 with heq | ⟨hnot, -⟩
    · rwa [heq]
    · exact absurd hu hnot
  · rcases (hpc u).2 with heq | ⟨-, hnot, -⟩
    · rw [heq]
      exact h.knows u
    · exact BulkPc.knows_of_not_isSetup hnot

end

/-! ## Processes and their children -/

/-- A thread that is in no call neither sets up the memory nor uses it, and is awake. -/
theorem BulkPc.not_of_isIdle {pc : BulkPc} (h : pc.isIdle) :
    ¬pc.isSetup ∧ ¬pc.isTransfer ∧ pc ≠ .asleep := by
  cases pc with
  | idle => exact ⟨Bool.false_ne_true, Bool.false_ne_true, by simp⟩
  | _ => cases h

namespace BulkProcess

variable {τ : Type} {p p' : BulkProcess τ} {log : Answers}

/-- What is kept by every step of a process. -/
def Logged (p : BulkProcess τ) (log : Answers) : Prop :=
  SetupLog p.shmId log p.threads.shared.state p.threads.shared.addr fun t => (p.threads.loc t).pc

theorem Logged.proper (h : p.Logged log) : p.Proper log where
  ready := h.acknowledged
  alone := h.inv.unique
  blocked t ht := by
    rcases h.asleep t ht with hstate | ⟨u, hu⟩
    · exact (h.exists_setup hstate).imp fun _ hu => .inl hu
    · exact ⟨u, .inr hu⟩

/-- A process that has nothing of the memory, with no thread in a call. -/
theorem logged_of_isIdle (hstate : p.threads.shared.state = .uninit)
    (haddr : p.threads.shared.addr = 0) (hidle : ∀ t, (p.threads.loc t).pc.isIdle) :
    p.Logged [] := by
  have hnot := fun t => BulkPc.not_of_isIdle (hidle t)
  have hne : ∀ state, state ≠ .uninit → p.threads.shared.state ≠ state := by
    rintro state hne rfl
    exact hne hstate
  exact ⟨⟨fun t ht => absurd ht (hnot t).1, fun t _ ht => absurd ht (hnot t).1,
      fun t ht => absurd ht (hnot t).2.1⟩,
    fun h => absurd h (hne _ (by simp)), fun t ht => absurd ht (hnot t).2.2,
    fun t => BulkPc.knows_of_not_isSetup (hnot t).1, fun h => absurd haddr h,
    fun h => absurd h (hne _ (by simp))⟩

/-- The answer to a call is in the log after that. -/
theorem mem_replay_heard {t : τ} {o : Retried Served} {msg : Msg} {r : CallResult} {w : ShmWorld}
    (hasks : (p.threads.loc t).pc.asks p.shmId = some msg)
    (hcall : p.threads.shared.call msg o = some (r, w)) (herr : r.err = 0) :
    (msg, r.reply) ∈ replay Answers.note log (p.heard (.run t (.ipc o))) := by
  simp [heard, hasks, hcall, herr, Answers.note]

theorem subset_replay_heard {a : Act τ BulkChoice} : log ⊆ replay Answers.note log (p.heard a) := by
  rw [heard.eq_def]
  repeat' split
  all_goals simp [Answers.note]

variable [Fintype τ] [DecidableEq τ]

/-- A step of a thread keeps what is known of a process. -/
theorem Logged.act {a : Act τ BulkChoice} {g : Config τ BulkShared BulkLoc} (h : p.Logged log)
    (hsound : p.Sound (.act a)) (hexec : (bulkMachine τ p.caps p.shmId).exec p.threads a = some g) :
    Logged { p with threads := g } (replay Answers.note log (p.heard a)) := by
  obtain ⟨t, c, s, l, rfl, hnext, rfl⟩ | ⟨t, us, f, n, rfl, hwaking, hwakes, rfl⟩ :=
    Machine.exec_cases hexec
  · have hothers : ∀ u, u ≠ t → ((p.threads.set t s l).loc u).pc = (p.threads.loc u).pc :=
      fun u hut => by rw [Config.set_loc_of_ne _ hut]
    have hself : ((p.threads.set t s l).loc t).pc = l.pc := by rw [Config.set_loc_self]
    refine SetupLog.move (t := t) h subset_replay_heard ?_ hothers (h.inv.move (t := t) ?_ hothers)
    · rw [hself]
      refine BulkLoc.step_setupStep hnext ?_ ?_
      · rintro o rfl hsetup
        exact hsound hsetup
      · rintro o msg r w rfl hasks hcall herr
        exact mem_replay_heard hasks hcall herr
    · rw [hself]
      exact BulkLoc.step_setup hnext
  · rw [bulkMachine] at hwaking
    -- only the end of the set-up makes a wake-up call, and it is one for all
    cases hpc : (p.threads.loc t).pc with
    | wake success =>
      simp only [hpc, Option.some.injEq, Prod.mk.injEq] at hwaking
      obtain ⟨-, rfl⟩ := hwaking
      exact SetupLog.wakeUp h (by rw [hpc]; rfl) hwakes
    | _ => simp only [hpc, reduceCtorEq] at hwaking

omit [Fintype τ] in
/-- A child whose parent has had nothing of the memory has nothing of it either. -/
theorem logged_child {t : τ} {caps : Bool} {shmId : ℕ} {mapped : List ℕ}
    (hstate : p.threads.shared.state = .uninit) (haddr : p.threads.shared.addr = 0)
    (hidle : (p.threads.loc t).pc.isIdle) : (p.child t caps shmId mapped).Logged [] :=
  logged_of_isIdle hstate haddr fun u =>
    Config.forall_set (bulkInit τ) (P := fun l => l.pc.isIdle) (fun _ => rfl) hidle u

end BulkProcess

/-- In every run of a process and of its children, with any number of threads, in which the calls
    of the set-up are answered and no process forks that has something of the memory: what is
    ready is acknowledged for this process, one thread at a time sets it up, and a thread waits
    only while another one does so. -/
theorem bulkSetup_acknowledged {τ : Type} [Fintype τ] [DecidableEq τ] {caps : Bool} {shmId : ℕ}
    {p : BulkProcess τ} {events : List BulkEvent}
    (h : (BulkProcess.system τ caps shmId BulkProcess.Sound).Reaches p events) :
    p.Proper (replay Answers.note [] events) := by
  refine BulkProcess.Logged.proper ?_
  refine h.invariant (P := fun p events => p.Logged (replay Answers.note [] events)) ?_ ?_
  · rintro p rfl
    exact BulkProcess.logged_of_isIdle rfl rfl fun _ => rfl
  · rintro p events new p' hp ⟨input, hsound, hstep⟩
    rw [replay_append]
    cases input with
    | act a =>
      obtain ⟨g, hexec, rfl, rfl⟩ := mapped_inj hstep
      exact hp.act hsound hexec
    | fork t caps shmId mapped =>
      obtain ⟨hidle, rfl, rfl⟩ := guarded_inj hstep
      exact BulkProcess.logged_child hsound.1 hsound.2 hidle

/-- The first thread of a process sets up the memory, with these outcomes of its calls. -/
def setupInputs (create map setup : Retried Served) : List (BulkInput Trio) :=
  [.act (.run .a (.call ⟨.read, 3, 8192, by decide⟩ fun _ => 0)), .act (.run .a .op),
    .act (.run .a .op), .act (.run .a .op), .act (.run .a (.ipc create)), .act (.run .a (.ipc map)),
    .act (.run .a .op), .act (.run .a (.ipc setup)), .act (.run .a .op)]

/-- A process forks, and its child sets up its memory. -/
def childSetUp : BulkProcess Trio × List BulkEvent :=
  (Lts.feed BulkProcess.step BulkProcess.Sound
    (.fork .a true 8 [] :: setupInputs (answered (.served 0 [])) (answered (.served 0x7000 []))
      (answered (.served 0 []))) (BulkProcess.start Trio true 7, [])).get (by decide +kernel)

theorem bulkSetup_acknowledged_childSetUp :
    (childSetUp.1.threads.shared.state = .ready ∧ childSetUp.1.threads.shared.addr = 0x7000) ∧
      childSetUp.1.Proper (replay Answers.note [] childSetUp.2) := by
  have hreaches :
      (BulkProcess.system Trio true 7 BulkProcess.Sound).Reaches childSetUp.1 childSetUp.2 :=
    Lts.reaches_feed (.init rfl) (Option.some_get _).symm
  exact ⟨by decide +kernel, bulkSetup_acknowledged hreaches⟩

/-- The call to VFS is not delivered. -/
def lostSetup : BulkProcess Trio × List BulkEvent :=
  (Lts.feed BulkProcess.step (fun _ _ => True)
    (setupInputs (answered (.served 0 [])) (answered (.served 0x7000 []))
      ⟨0, .failed .invalidCapability, by simp⟩)
    (BulkProcess.start Trio true 7, [])).get (by decide +kernel)

/-- A process sets up its memory, and another one of its threads forks. -/
def readyChild : BulkProcess Trio × List BulkEvent :=
  (Lts.feed BulkProcess.step (fun _ _ => True)
    (setupInputs (answered (.served 0 [])) (answered (.served 0x7000 []))
      (answered (.served 0 [])) ++ [.fork .b true 8 [0x7000]])
    (BulkProcess.start Trio true 7, [])).get (by decide +kernel)

/-- The memory is said to be ready, but VFS has never mapped it; and a child says so of the memory
    of its parent. -/
theorem bulkSetup_unacknowledged :
    ((BulkProcess.system Trio true 7 fun _ _ => True).Reaches lostSetup.1 lostSetup.2 ∧
      ¬lostSetup.1.Proper (replay Answers.note [] lostSetup.2)) ∧
    (BulkProcess.system Trio true 7 fun _ _ => True).Reaches readyChild.1 readyChild.2 ∧
      ¬readyChild.1.Proper (replay Answers.note [] readyChild.2) := by
  have hlost : ∀ e ∈ replay Answers.note [] lostSetup.2, e.1 ≠ bulkSetupMsg lostSetup.1.shmId := by
    decide +kernel
  have hchild : ∀ e ∈ replay Answers.note [] readyChild.2,
      e.1 ≠ bulkSetupMsg readyChild.1.shmId := by
    decide +kernel
  refine ⟨⟨Lts.reaches_feed (.init rfl) (Option.some_get _).symm, fun h => ?_⟩,
    Lts.reaches_feed (.init rfl) (Option.some_get _).symm, fun h => ?_⟩
  · obtain ⟨reply, hmem, -⟩ := (h.ready (by decide +kernel)).setup
    exact hlost _ hmem rfl
  · obtain ⟨reply, hmem, -⟩ := (h.ready (by decide +kernel)).setup
    exact hchild _ hmem rfl

end Posix

end Trona
