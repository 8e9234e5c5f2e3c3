import Trona.Posix.Call
import Trona.Substrate.ThreadPool

/-!
# Creating a thread

`pthread_create` (`posix/pthread.rs`) takes a descriptor from the pool, has the memory server
map a stack and touch its last pages (`posix/mm.rs`), takes a slot and asks the process manager
to make the thread. When one of these fails it gives back what it has got.

It takes a request that is interrupted for one that has failed. If the server has received the
request and only the reply is lost, the stack stays mapped, or the thread runs, on a stack that
is then unmapped (`pthreadCreate_leaves`). The call to unmap the stack may fail too. In all other
cases a call that returns an error leaves nothing behind (`pthreadCreate_leavesNothing_iff`).
-/

namespace Trona

namespace Posix

open ThreadPool

/-! ## The servers -/

/-- The pages of a stack. -/
def stackPages (base size : ℕ) : Finset ℕ := ThreadPool.pageRange base (size / 4096)

/-- A process: the pool with what the process has, and its threads, which the process manager
    has made, by their numbers. -/
structure Process where
  pool : Pool
  threads : Finset ℕ

namespace Process

variable (s : Process)

def onPool (f : Pool → Pool) : Process := { s with pool := f s.pool }

/-- The pages that are mapped. -/
def pages : Finset ℕ := s.pool.res.pages

def setPages (g : Finset ℕ) : Process := s.onPool fun p => { p with res.pages := g }

/-- What the memory server answers: pages in the lower half of the address space that are not
    mapped, or that there are none. -/
def offerStack (size : ℕ) (choice : Option ℕ) : Option ℕ :=
  choice.filter fun base => 0 < base ∧ base % 4096 = 0 ∧ base + size ≤ 2 ^ 47 ∧
    Disjoint (stackPages base size) s.pages

/-- What the process manager answers: the number of a new thread, or that there is none. -/
def offerThread (choice : Option ℕ) : Option ℕ :=
  choice.filter fun tid => 0 < tid ∧ tid < 2 ^ 32 ∧ tid ∉ s.threads

end Process

/-- `MM_MMAP`, for pages that are not those of a file. -/
def mmMmap : Server (Option ℕ) Process := fun choice msg s =>
  match s.offerStack (msg.reg 1) choice with
  | some base => ({ label := tronaOk, regs := [base] },
      s.setPages (s.pages ∪ stackPages base (msg.reg 1)))
  | none => ({ label := tronaOutOfMemory }, s)

/-- `MM_MUNMAP`. -/
def mmMunmap : Server Bool Process := fun choice msg s =>
  if choice then
    ({ label := tronaOk }, s.setPages (s.pages \ stackPages (msg.reg 0) (msg.reg 1)))
  else ({ label := tronaInvalidArgument }, s)

/-- `MM_PREFAULT_RANGE`. The pages are mapped already. -/
def mmPrefaultRange : Server Bool Process := fun choice _ s =>
  ({ label := if choice then tronaOk else tronaOutOfMemory }, s)

/-- `PM_THREAD_CREATE`: the IPC buffer is mapped, and the thread is made and resumed. -/
def pmThreadCreate : Server (Option ℕ) Process := fun choice msg s =>
  match s.offerThread choice with
  | some tid => ({ label := tronaOk, regs := [tid] },
      { s.setPages (insert (msg.reg 3) s.pages) with threads := insert tid s.threads })
  | none => ({ label := tronaOutOfMemory }, s)

/-! ## The functions -/

/-- The attributes of a thread, where it begins, and what becomes of the calls. -/
structure ThreadCall where
  /-- The size of the stack, zero for the default, and whether the thread is detached. -/
  stackSize : ℕ
  detached : Bool
  /-- The entry, the stack and the variables of the thread, as numbers for the request. -/
  entryPc : ℕ
  stackTop : ℕ
  tlsBase : ℕ
  /-- There is an endpoint of the memory server. -/
  mmsrv : Bool
  mmap : Retried (Option ℕ)
  /-- What `posix_getpid` returns. -/
  pid : ℤ
  prefault : Retried Bool
  /-- What the slot allocator answers. -/
  slot : Option ℕ
  create : Retried (Option ℕ)
  munmap : Retried Bool

/-- `usize::MAX`, which `posix_mmap` returns when it fails. -/
def mapFailed : ℕ := 2 ^ 64 - 1

namespace ThreadCall

variable (i : ThreadCall)

/-- The size of the stack: whole pages. -/
def size : ℕ :=
  if i.stackSize ≠ 0 then (i.stackSize + 4095) % 2 ^ 64 / 4096 * 4096 else defaultStackSize

/-- The request for a stack: readable and writable, private, and committed when touched. -/
def mapRequest : Msg where
  label := 0x84
  length := 4
  regs := [0, i.size, 0x1 + 0x2, 0x02 + 0x20 + 0x40]

def unmapRequest (base : ℕ) : Msg where
  label := 0x85
  length := 2
  regs := [base, i.size]

/-- The request to touch the last two pages of a stack. -/
def prefaultRequest (base : ℕ) : Msg where
  label := 0xA4
  length := 4
  regs := [i.pid.toNat, base + i.size - 8192, 2, 0x1 + 0x2]

/-- The request for a thread. -/
def createRequest (ipcBufVaddr : ℕ) : Msg where
  label := 55
  length := 5
  regs := [i.entryPc, i.stackTop, i.tlsBase, ipcBufVaddr, if i.detached then 1 else 0]

/-- `posix_mmap`, for a stack. -/
def posixMmap : CallM Process ℕ :=
  if i.mmsrv = false ∨ i.size = 0 then pure mapFailed
  else do
    let r ← ipcCallRetry mmMmap i.mapRequest i.mmap
    pure (if r.err ≠ 0 ∨ r.reply.label ≠ tronaOk then mapFailed else r.reply.reg 0)

/-- `posix_munmap`. -/
def posixMunmap (base : ℕ) : CallM Process ℤ :=
  if i.mmsrv = false then pure (-1)
  else do
    let r ← ipcCallRetry mmMunmap (i.unmapRequest base) i.munmap
    pure (if r.err ≠ 0 ∨ r.reply.label ≠ tronaOk then -1 else 0)

/-- `posix_prefault`, for the last two pages of a stack. -/
def posixPrefault (base : ℕ) : CallM Process ℤ :=
  if i.mmsrv = false ∨ i.pid ≤ 0 then pure (-1)
  else do
    let r ← ipcCallRetry mmPrefaultRange (i.prefaultRequest base) i.prefault
    pure (if r.err ≠ 0 ∨ r.reply.label ≠ tronaOk then -1 else 0)

/-- The end of a call that has failed after the stack was mapped. What `posix_munmap` returns is
    ignored. -/
def giveBack (k base : ℕ) : CallM Process ℤ := do
  let _ ← i.posixMunmap base
  modify (·.onPool (·.abandon k))
  pure (-12)

/-- `pm_thread_create_call` and what follows it. The capability comes with the reply. -/
def createThread (k base slot : ℕ) : CallM Process ℤ := do
  let s ← get
  let r ← ipcCallRetry pmThreadCreate (i.createRequest (s.pool.descs k).ipcBufVaddr) i.create
  if r.err ≠ 0 ∨ r.reply.label ≠ tronaOk then do
    modify (·.onPool (·.dropSlot slot))
    i.giveBack k base
  else do
    modify (·.onPool (·.publish k slot (r.reply.reg 0)))
    pure 0

/-- `pthread_create` when there is a stack. -/
def createOnStack (k base : ℕ) : CallM Process ℤ := do
  let err ← i.posixPrefault base
  if err ≠ 0 then i.giveBack k base
  else do
    modify (·.onPool (·.giveIpcBuffer k))
    let s ← get
    match s.pool.res.offer 1 i.slot with
    | none => i.giveBack k base
    | some slot => do
      modify (·.onPool (·.takeSlot slot))
      i.createThread k base slot

/-- `pthread_create`, without the writes to the stack. -/
def pthreadCreate : CallM Process ℤ := do
  let s ← get
  match s.pool.nextUnused with
  | none => pure (-11)
  | some k => do
    modify (·.onPool (·.takeDesc k i.detached))
    let base ← i.posixMmap
    if base = mapFailed ∨ base = 0 then do
      modify (·.onPool (·.abandon k))
      pure (-12)
    else do
      modify (·.onPool (·.giveStack k base i.size))
      i.createOnStack k base

end ThreadCall

/-! ## What is left behind -/

/-- No thread has come up, the process has the slots, capabilities and pages that it had, and each
    descriptor is in use if it was. -/
def LeavesNothing (s s' : Process) : Prop :=
  s'.threads = s.threads ∧ s'.pool.res = s.pool.res ∧
    ∀ k, (s'.pool.descs k).state = (s.pool.descs k).state

namespace ThreadCall

variable (i : ThreadCall) (s : Process)

/-- The memory server has mapped a stack, and the reply is lost. -/
def MmapLost : Prop :=
  i.mmsrv = true ∧ i.size ≠ 0 ∧
    ∃ choice lastRestart, i.mmap.last = .interrupted choice lastRestart ∧
      (s.offerStack i.size choice).isSome

/-- The memory server has mapped a stack and replied. -/
def Mapped (base : ℕ) : Prop :=
  i.mmsrv = true ∧ i.size ≠ 0 ∧
    ∃ choice, i.mmap.last = .answered choice ∧ s.offerStack i.size choice = some base

/-- If the stack is to be unmapped, the memory server does it. -/
def Unmaps : Prop :=
  i.munmap.last = .answered true ∨ ∃ lastRestart, i.munmap.last = .interrupted true lastRestart

/-- The process manager is asked for a thread and makes it, and the reply is lost. -/
def CreateLost : Prop :=
  0 < i.pid ∧ i.prefault.last = .answered true ∧ (s.pool.res.offer 1 i.slot).isSome ∧
    ∃ choice lastRestart, i.create.last = .interrupted choice lastRestart ∧
      (s.offerThread choice).isSome

/-- No reply is lost of a request that has been met, and a stack is unmapped when it is to be. -/
def Settled : Prop :=
  s.pool.nextUnused.isSome →
    ¬i.MmapLost s ∧ ∀ base, i.Mapped s base → i.Unmaps ∧ ¬i.CreateLost s

section

variable {i s} {k base slot : ℕ} {E : Waiting → Process → Prop} {choice : Option ℕ}
  {Q : ℤ → Process → Prop}

theorem mmMmap_of_some (h : s.offerStack i.size choice = some base) :
    mmMmap choice i.mapRequest s =
      ({ label := tronaOk, regs := [base] }, s.setPages (s.pages ∪ stackPages base i.size)) := by
  have hsize : i.mapRequest.reg 1 = i.size := rfl
  rw [mmMmap, hsize, h]

theorem mmMmap_of_none (h : s.offerStack i.size choice = none) :
    mmMmap choice i.mapRequest s = ({ label := tronaOutOfMemory }, s) := by
  have hsize : i.mapRequest.reg 1 = i.size := rfl
  rw [mmMmap, hsize, h]

/-- A stack is not mapped, is mapped and the reply is lost, or is mapped. -/
theorem wp_posixMmap {Q : ℕ → Process → Prop}
    (hfailed : ¬i.MmapLost s → (∀ base, ¬i.Mapped s base) → Q mapFailed s)
    (hlost : ∀ choice base, i.MmapLost s → s.offerStack i.size choice = some base →
      Q mapFailed (s.setPages (s.pages ∪ stackPages base i.size)))
    (hmapped : ∀ base, i.Mapped s base → Q base (s.setPages (s.pages ∪ stackPages base i.size))) :
    wp i.posixMmap Q E s := by
  rw [posixMmap]
  split
  · -- there is no request
    have hno : ¬(i.mmsrv = true ∧ i.size ≠ 0) := by
      rintro ⟨hmmsrv, hsize⟩
      simp_all
    exact wp_pure.2 (hfailed (fun h => hno ⟨h.1, h.2.1⟩) fun _ h => hno ⟨h.1, h.2.1⟩)
  · have hask : i.mmsrv = true ∧ i.size ≠ 0 := by simp_all
    rw [wp_bind, ipcCallRetry_eq]
    cases hlast : i.mmap.last with
    | restart => exact absurd hlast i.mmap.last_ne
    | failed e =>
      rw [wp_callCtx_failed, wp_pure, if_pos (.inl e.ne_zero)]
      exact hfailed (by simp [MmapLost, hlast]) (by simp [Mapped, hlast])
    | interrupted choice lastRestart =>
      rw [wp_callCtx_interrupted, wp_pure, if_pos (.inl (by simp [tronaInterrupted]))]
      cases hoffer : s.offerStack i.size choice with
      | none =>
        rw [mmMmap_of_none hoffer]
        exact hfailed (by simp [MmapLost, hlast, hoffer]) (by simp [Mapped, hlast])
      | some base =>
        rw [mmMmap_of_some hoffer]
        have hsome : (s.offerStack i.size choice).isSome := by rw [hoffer]; rfl
        exact hlost choice base ⟨hask.1, hask.2, choice, lastRestart, hlast, hsome⟩ hoffer
    | answered choice =>
      rw [wp_callCtx_answered, wp_pure]
      cases hoffer : s.offerStack i.size choice with
      | none =>
        rw [mmMmap_of_none hoffer, if_pos (.inr (by simp [tronaOutOfMemory, tronaOk]))]
        exact hfailed (by simp [MmapLost, hlast]) (by simp [Mapped, hlast, hoffer])
      | some base =>
        rw [mmMmap_of_some hoffer, if_neg (by simp)]
        exact hmapped base ⟨hask.1, hask.2, choice, hlast, hoffer⟩

/-- A stack is unmapped, or it is not. -/
theorem wp_posixMunmap (hmmsrv : i.mmsrv = true)
    (hdone : i.Unmaps → ∀ r, Q r (s.setPages (s.pages \ stackPages base i.size)))
    (hleft : ¬i.Unmaps → ∀ r, Q r s) : wp (i.posixMunmap base) Q E s := by
  rw [posixMunmap, if_neg (by simp [hmmsrv]), wp_bind, ipcCallRetry_eq]
  cases hlast : i.munmap.last with
  | restart => exact absurd hlast i.munmap.last_ne
  | failed e =>
    rw [wp_callCtx_failed, wp_pure]
    exact hleft (by simp [Unmaps, hlast]) _
  | interrupted choice lastRestart =>
    rw [wp_callCtx_interrupted, wp_pure]
    cases choice with
    | true => exact hdone (.inr ⟨lastRestart, hlast⟩) _
    | false => exact hleft (by simp [Unmaps, hlast]) _
  | answered choice =>
    rw [wp_callCtx_answered, wp_pure]
    cases choice with
    | true => exact hdone (.inl hlast) _
    | false => exact hleft (by simp [Unmaps, hlast]) _

/-- The last pages of a stack are touched, or they are not. -/
theorem wp_posixPrefault (hmmsrv : i.mmsrv = true)
    (hdone : 0 < i.pid → i.prefault.last = .answered true → Q 0 s)
    (hnot : ¬(0 < i.pid ∧ i.prefault.last = .answered true) → Q (-1) s) :
    wp (i.posixPrefault base) Q E s := by
  rw [posixPrefault]
  split
  · refine wp_pure.2 (hnot ?_)
    rintro ⟨hpid, -⟩
    simp_all
    omega
  · have hpid : 0 < i.pid := by
      simp_all
    rw [wp_bind, ipcCallRetry_eq]
    cases hlast : i.prefault.last with
    | restart => exact absurd hlast i.prefault.last_ne
    | failed e =>
      rw [wp_callCtx_failed, wp_pure, if_pos (.inl e.ne_zero)]
      exact hnot (by simp [hlast])
    | interrupted choice lastRestart =>
      rw [wp_callCtx_interrupted, wp_pure, if_pos (.inl (by simp [tronaInterrupted]))]
      exact hnot (by simp [hlast])
    | answered choice =>
      rw [wp_callCtx_answered, wp_pure]
      cases choice with
      | true => exact hdone hpid hlast
      | false => exact hnot (by simp [hlast])

theorem size_mod : i.size % 4096 = 0 := by
  rw [size]
  split
  · exact Nat.mul_mod_left _ _
  · decide

/-- A stack has a page. -/
theorem mem_stackPages (hsize : i.size ≠ 0) : base ∈ stackPages base i.size := by
  have hmod := i.size_mod
  refine Finset.mem_image.2 ⟨0, Finset.mem_range.2 (by omega), by simp⟩

/-- What the call holds of the state at its beginning: a descriptor, which was not in use, and
    some slots and pages. -/
structure Held (s t : Process) (k : ℕ) (slots pages : Finset ℕ) : Prop where
  threads : t.threads = s.threads
  slots : t.pool.res.slots = s.pool.res.slots ∪ slots
  caps : t.pool.res.caps = s.pool.res.caps
  pages : t.pages = s.pages ∪ pages
  others : ∀ j, j ≠ k → (t.pool.descs j).state = (s.pool.descs j).state
  unused : (s.pool.descs k).state = .unused

section

variable {t : Process} {slots pages : Finset ℕ}

/-- Changes of the descriptor, and of nothing else. -/
theorem Held.onPool (h : Held s t k slots pages) {f : Pool → Pool}
    (hres : (f t.pool).res = t.pool.res)
    (hdescs : ∀ j, j ≠ k → (f t.pool).descs j = t.pool.descs j) :
    Held s (t.onPool f) k slots pages where
  threads := h.threads
  slots := by rw [Process.onPool, hres, h.slots]
  caps := by rw [Process.onPool, hres, h.caps]
  pages := by rw [Process.pages, Process.onPool, hres]; exact h.pages
  others j hj := by rw [Process.onPool, hdescs j hj, h.others j hj]
  unused := h.unused

/-- The descriptor goes back to the pool when nothing else is held. -/
theorem Held.leavesNothing (h : Held s t k ∅ ∅) : LeavesNothing s (t.onPool (·.abandon k)) := by
  have hpages := h.pages
  refine ⟨h.threads, ?_, fun j => ?_⟩
  · refine Resources.ext ?_ h.caps ?_
    · exact h.slots.trans (Finset.union_empty _)
    · exact hpages.trans (Finset.union_empty _)
  · rcases eq_or_ne j k with rfl | hj
    · rw [h.unused]
      simp [Process.onPool, Pool.abandon, Pool.setDesc, Entry.free]
    · rw [← h.others j hj]
      simp [Process.onPool, Pool.abandon, Pool.setDesc, hj]

/-- The stack is mapped at pages that were not. -/
structure OnStack (i : ThreadCall) (s : Process) (base : ℕ) : Prop where
  mmsrv : i.mmsrv = true
  size : i.size ≠ 0
  disjoint : Disjoint (stackPages base i.size) s.pages

/-- A thread that has come up stays. -/
theorem wp_giveBack_threads (hmmsrv : i.mmsrv = true) :
    wp (i.giveBack k base) (fun _ s' => s'.threads = t.threads) (fun _ _ => False) t := by
  simp only [giveBack, wp_bind]
  exact wp_posixMunmap hmmsrv (fun _ _ => wp_modify.2 (wp_pure.2 rfl)) fun _ _ =>
    wp_modify.2 (wp_pure.2 rfl)

/-- Nothing is left behind if and only if the stack is unmapped. -/
theorem wp_giveBack (hstack : OnStack i s base) (h : Held s t k ∅ (stackPages base i.size)) :
    wp (i.giveBack k base) (fun _ s' => LeavesNothing s s' ↔ i.Unmaps) (fun _ _ => False) t := by
  simp only [giveBack, wp_bind]
  refine wp_posixMunmap hstack.mmsrv (fun hunmaps _ => ?_) fun hunmaps _ => ?_
  · simp only [wp_modify, wp_pure]
    refine iff_of_true
      (Held.leavesNothing ⟨h.threads, h.slots, h.caps, ?_, h.others, h.unused⟩) hunmaps
    change t.pages \ stackPages base i.size = s.pages ∪ ∅
    rw [h.pages, Finset.union_sdiff_cancel_right hstack.disjoint.symm, Finset.union_empty]
  · simp only [wp_modify, wp_pure]
    refine iff_of_false (fun hnothing => ?_) hunmaps
    -- the first page of the stack is still mapped
    have hpages : t.pages = s.pages := congrArg Resources.pages hnothing.2.1
    have hmem : base ∈ t.pages := by
      rw [h.pages]
      exact Finset.mem_union_right _ (mem_stackPages hstack.size)
    rw [hpages] at hmem
    exact Finset.disjoint_left.1 hstack.disjoint (mem_stackPages hstack.size) hmem

/-- The slot goes back empty. -/
theorem Held.dropSlot (hslot : slot ∉ s.pool.res.slots) (hcaps : s.pool.res.caps ⊆ s.pool.res.slots)
    (h : Held s t k {slot} pages) : Held s (t.onPool (·.dropSlot slot)) k ∅ pages where
  threads := h.threads
  slots := by
    change t.pool.res.slots.erase slot = _
    rw [h.slots, Finset.union_singleton, Finset.erase_insert hslot, Finset.union_empty]
  caps := by
    change t.pool.res.caps.erase slot = _
    rw [h.caps, Finset.erase_eq_of_notMem fun hmem => hslot (hcaps hmem)]
  pages := h.pages
  others := h.others
  unused := h.unused

/-- The call for the thread, and what is left behind if it fails. -/
theorem wp_createThread (hstack : OnStack i s base) (hslot : slot ∉ s.pool.res.slots)
    (hcaps : s.pool.res.caps ⊆ s.pool.res.slots)
    (h : Held s t k {slot} (stackPages base i.size)) :
    wp (i.createThread k base slot)
      (fun r s' => r ≠ 0 → (LeavesNothing s s' ↔ i.Unmaps ∧ ¬∃ choice lastRestart,
        i.create.last = .interrupted choice lastRestart ∧ (s.offerThread choice).isSome))
      (fun _ _ => False) t := by
  -- when no thread has come up, only the stack matters
  have hnone : (¬∃ choice lastRestart, i.create.last = .interrupted choice lastRestart ∧
      (s.offerThread choice).isSome) → wp (do
        modify (·.onPool (·.dropSlot slot))
        i.giveBack k base)
      (fun r s' => r ≠ 0 → (LeavesNothing s s' ↔ i.Unmaps ∧ ¬∃ choice lastRestart,
        i.create.last = .interrupted choice lastRestart ∧ (s.offerThread choice).isSome))
      (fun _ _ => False) t := by
    intro hnot
    rw [wp_bind, wp_modify]
    refine wp_post (wp_giveBack hstack (h.dropSlot hslot hcaps)) fun _ s' hs' _ => ?_
    rw [hs', and_iff_left hnot]
  have hthread : ∀ choice, t.offerThread choice = s.offerThread choice := fun choice => by
    rw [Process.offerThread, Process.offerThread, h.threads]
  simp only [createThread, wp_bind, wp_get]
  rw [ipcCallRetry_eq]
  cases hlast : i.create.last with
  | restart => exact absurd hlast i.create.last_ne
  | failed e =>
    rw [wp_callCtx_failed, if_pos (.inl e.ne_zero)]
    rw [hlast] at hnone
    exact hnone (by simp)
  | interrupted choice lastRestart =>
    rw [wp_callCtx_interrupted, if_pos (.inl (by simp [tronaInterrupted])), pmThreadCreate, hthread]
    cases hoffer : s.offerThread choice with
    | none =>
      rw [hlast] at hnone
      exact hnone (by simp [hoffer])
    | some tid =>
      rw [wp_bind, wp_modify]
      refine wp_post (wp_giveBack_threads hstack.mmsrv) fun _ s' hs' _ => ?_
      refine iff_of_false (fun hnothing => ?_) fun hnot => hnot.2 ⟨choice, lastRestart, rfl, by
        rw [hoffer]; rfl⟩
      -- the new thread is one of the threads
      have hfresh := (Option.filter_eq_some_iff.1 hoffer).2
      have hthreads : insert tid t.threads = s.threads := hs'.symm.trans hnothing.1
      have hmem : tid ∈ s.threads := hthreads ▸ Finset.mem_insert_self tid _
      simp [hmem] at hfresh
  | answered choice =>
    rw [wp_callCtx_answered, pmThreadCreate, hthread]
    cases hoffer : s.offerThread choice with
    | none =>
      rw [hlast] at hnone
      exact hnone (by simp)
    | some tid =>
      rw [if_neg (by simp), wp_bind, wp_modify, wp_pure]
      exact fun hne => absurd rfl hne

theorem wp_createOnStack (hstack : OnStack i s base) (hcaps : s.pool.res.caps ⊆ s.pool.res.slots)
    (h : Held s t k ∅ (stackPages base i.size)) :
    wp (i.createOnStack k base)
      (fun r s' => r ≠ 0 → (LeavesNothing s s' ↔ i.Unmaps ∧ ¬i.CreateLost s))
      (fun _ _ => False) t := by
  have hslots : t.pool.res.slots = s.pool.res.slots := h.slots.trans (Finset.union_empty _)
  have hoffer : (t.onPool (·.giveIpcBuffer k)).pool.res.offer 1 i.slot =
      s.pool.res.offer 1 i.slot := by
    change t.pool.res.offer 1 i.slot = _
    rw [Resources.offer, Resources.offer, hslots]
  simp only [createOnStack, wp_bind]
  refine wp_posixPrefault hstack.mmsrv (fun hpid hprefault => ?_) fun hnot => ?_
  · have hbuffer : Held s (t.onPool (·.giveIpcBuffer k)) k ∅ (stackPages base i.size) :=
      h.onPool rfl fun j hj => by simp [Pool.giveIpcBuffer, Pool.setDesc, hj]
    rw [if_neg (by simp), wp_bind, wp_modify, wp_bind, wp_get, hoffer]
    cases hslot : s.pool.res.offer 1 i.slot with
    | none =>
      -- Without a slot the process manager is not asked.
      refine wp_post (wp_giveBack hstack hbuffer) fun _ s' hs' _ => ?_
      rw [hs', and_iff_left (by simp [CreateLost, hslot])]
    | some slot =>
      have hfree : slot ∉ s.pool.res.slots := by
        have hdisjoint := (Option.filter_eq_some_iff.1 hslot).2
        simp only [decide_eq_true_eq] at hdisjoint
        exact Finset.disjoint_left.1 hdisjoint.2 (Finset.mem_image.2 ⟨0, by simp, rfl⟩)
      have htaken : Held s ((t.onPool (·.giveIpcBuffer k)).onPool (·.takeSlot slot)) k {slot}
          (stackPages base i.size) := by
        refine ⟨hbuffer.threads, ?_, hbuffer.caps, hbuffer.pages, hbuffer.others, hbuffer.unused⟩
        change t.pool.res.slots ∪ slotRange slot 1 = _
        rw [hslots]
        simp [slotRange]
      rw [wp_bind, wp_modify]
      refine wp_post (wp_createThread hstack hfree hcaps htaken) fun r s' hs' hr => ?_
      rw [hs' hr, CreateLost, hslot]
      simp [hpid, hprefault]
  · -- The pages of the stack are not there.
    refine wp_post (wp_giveBack hstack h) fun _ s' hs' _ => ?_
    rw [hs', and_iff_left]
    exact fun hlost => hnot ⟨hlost.1, hlost.2.1⟩

/-- The search of `pthread_create` finds a descriptor that is not in use. -/
theorem unused_of_nextUnused (h : s.pool.nextUnused = some k) :
    (s.pool.descs k).state = .unused := by
  simpa using List.find?_some h

end

end

/-- A call of `pthread_create` that returns an error leaves nothing behind, no thread, no page, no
    slot, no capability and no descriptor in use, if and only if no reply is lost of a request
    that has been met, and a stack is unmapped when it is to be. -/
theorem pthreadCreate_leavesNothing_iff (hcaps : s.pool.res.caps ⊆ s.pool.res.slots) :
    wp i.pthreadCreate (fun r s' => r ≠ 0 → (LeavesNothing s s' ↔ i.Settled s))
      (fun _ _ => False) s := by
  simp only [pthreadCreate, wp_bind, wp_get]
  cases hunused : s.pool.nextUnused with
  | none =>
    refine wp_pure.2 fun _ => iff_of_true ⟨rfl, rfl, fun _ => rfl⟩ ?_
    rw [Settled, hunused]
    simp
  | some k =>
    have hsettled : i.Settled s ↔
        ¬i.MmapLost s ∧ ∀ base, i.Mapped s base → i.Unmaps ∧ ¬i.CreateLost s := by
      rw [Settled, hunused]
      simp
    have htaken : Held s (s.onPool (·.takeDesc k i.detached)) k ∅ ∅ :=
      ⟨rfl, (Finset.union_empty _).symm, rfl, (Finset.union_empty _).symm,
        fun j hj => by simp [Process.onPool, Pool.takeDesc, Pool.setDesc, hj],
        unused_of_nextUnused hunused⟩
    rw [wp_bind, wp_modify, wp_bind]
    refine wp_posixMmap (fun hlost hmapped => ?_) (fun choice base hlost hoffer => ?_)
      fun base hmapped => ?_
    · -- there is no stack
      rw [if_pos (.inl rfl), wp_bind, wp_modify, wp_pure, hsettled]
      exact fun _ => iff_of_true htaken.leavesNothing
        ⟨hlost, fun base hbase => absurd hbase (hmapped base)⟩
    · -- the first page of the stack is still mapped
      rw [if_pos (.inl rfl), wp_bind, wp_modify, wp_pure, hsettled]
      refine fun _ => iff_of_false (fun hnothing => ?_) fun h => h.1 hlost
      have hdisjoint := (Option.filter_eq_some_iff.1 hoffer).2
      simp only [decide_eq_true_eq] at hdisjoint
      have hpages : s.pages ∪ stackPages base i.size = s.pages :=
        congrArg Resources.pages hnothing.2.1
      have hmem : base ∈ s.pages := hpages ▸ Finset.mem_union_right _ (mem_stackPages hlost.2.1)
      exact Finset.disjoint_left.1 hdisjoint.2.2.2 (mem_stackPages hlost.2.1) hmem
    · obtain ⟨hmmsrv, hsize, choice, hlast, hoffer⟩ := id hmapped
      have hgood := (Option.filter_eq_some_iff.1 hoffer).2
      simp only [decide_eq_true_eq] at hgood
      have hstack : OnStack i s base := ⟨hmmsrv, hsize, hgood.2.2.2⟩
      have hheld : Held s (((s.onPool (·.takeDesc k i.detached)).setPages
          (s.pages ∪ stackPages base i.size)).onPool (·.giveStack k base i.size)) k ∅
          (stackPages base i.size) := by
        refine ⟨rfl, htaken.slots, rfl, ?_, fun j hj => ?_, htaken.unused⟩
        · exact Finset.union_eq_left.2 Finset.subset_union_right
        · simp [Process.onPool, Process.setPages, Pool.giveStack, Pool.takeDesc, Pool.setDesc, hj]
      rw [if_neg (by rw [mapFailed]; omega), wp_bind, wp_modify]
      refine wp_post (wp_createOnStack hstack hcaps hheld) fun r s' hs' hr => ?_
      have hnot : ¬i.MmapLost s := by simp [MmapLost, hlast]
      rw [hs' hr, hsettled]
      exact ⟨fun h => ⟨hnot, fun _ _ => h⟩, fun h => h.2 base hmapped⟩

/-- A call that is answered at the first attempt. -/
def answered {κ : Type} (choice : κ) : Retried κ := ⟨0, .answered choice, by simp⟩

/-- A process with its main thread. -/
def newProcess : Process := ⟨.start noHoldings, ∅⟩

/-- A thread with a stack of two pages. The request for the thread goes in some way. -/
def smallCall (create : Retried (Option ℕ)) : ThreadCall where
  stackSize := 8192
  detached := false
  entryPc := 0x400000
  stackTop := 0x11F00
  tlsBase := 0x11F80
  mmsrv := true
  mmap := answered (some 0x10000)
  pid := 1
  prefault := answered true
  slot := some 10
  create := create
  munmap := answered true

/-- The process manager does not make the thread. -/
theorem pthreadCreate_leavesNothing_refused :
    wp (smallCall (answered none)).pthreadCreate (fun r s' => r = -12 ∧ LeavesNothing newProcess s')
      (fun _ _ => False) newProcess := by
  have hret : wp (smallCall (answered none)).pthreadCreate (fun r _ => r = -12) (fun _ _ => False)
      newProcess := by decide
  have hsettled : (smallCall (answered none)).Settled newProcess := by
    refine fun _ => ⟨?_, fun base _ => ⟨.inl rfl, ?_⟩⟩
    · rintro ⟨-, -, choice, lastRestart, h, -⟩
      cases h
    · rintro ⟨-, -, -, choice, lastRestart, h, -⟩
      cases h
  have hiff := pthreadCreate_leavesNothing_iff (smallCall (answered none)) newProcess
    (Finset.Subset.refl ∅)
  refine wp_mono (wp_and hret hiff) (fun r s' h => ?_) fun _ _ h => h.1
  exact ⟨h.1, (h.2 (by rw [h.1]; decide)).2 hsettled⟩

/-- The process manager makes the thread, and the call is interrupted before the reply comes: the
    caller is told that there is no thread, and the stack is unmapped under it. -/
theorem pthreadCreate_leaves :
    wp (smallCall ⟨0, .interrupted (some 1) false, by simp⟩).pthreadCreate
      (fun r s' => r = -12 ∧ s'.threads = {1} ∧ 0x11000 ∉ s'.pages ∧
        (s'.pool.descs 1).state = .unused ∧ ¬LeavesNothing newProcess s')
      (fun _ _ => False) newProcess := by
  have hrun : wp (smallCall ⟨0, .interrupted (some 1) false, by simp⟩).pthreadCreate
      (fun r s' => r = -12 ∧ s'.threads = {1} ∧ 0x11000 ∉ s'.pages ∧
        (s'.pool.descs 1).state = .unused) (fun _ _ => False) newProcess := by decide
  refine wp_post hrun fun r s' h => ⟨h.1, h.2.1, h.2.2.1, h.2.2.2, fun hnothing => ?_⟩
  have hthreads : ({1} : Finset ℕ) = ∅ := h.2.1.symm.trans hnothing.1
  exact absurd hthreads (by decide)

end ThreadCall

end Posix

end Trona
