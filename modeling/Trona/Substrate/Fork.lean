import Trona.Substrate.ThreadPool

/-!
# The child of a fork

In the child of a fork there is one thread, the one that has called `fork`. It runs
`_trona_post_fork_child` (`substrate/tls.rs`) before it returns, and through the hook of the main
descriptor `posix_personality_fork_child` (`posix/pthread.rs`). The entry zero of the pool gets the
capabilities of the child, all other entries that are in use are taken for those of threads that
are gone: their pages are unmapped and the entries become unused. The numbers for new threads start
again from one.

This is right for the main thread (`postForkChild_survives_iff`). A thread of the POSIX layer can
fork too, and in the child it loses its stack and its descriptor, and the next thread gets its
number (`postForkChild_pthread`).
-/

namespace Trona

namespace ThreadPool

/-! ## The functions -/

/-- The pages that a descriptor names are unmapped. The capabilities stay. -/
def ThreadDesc.unmapNamed (d : ThreadDesc) (w : Resources) : Resources :=
  let w :=
    if d.stackBase ≠ 0 ∧ d.stackSize ≠ 0 then w.unmapRange d.stackBase (d.stackSize / 4096) else w
  let w := if d.ipcBufVaddr ≠ 0 then w.unmap d.ipcBufVaddr else w
  if d.tlsRegion ≠ 0 ∧ d.tlsRegionSize ≠ 0 then
    w.unmapRange d.tlsRegion (d.tlsRegionSize / 4096)
  else w

/-- A `ThreadDesc` with the fields that attach it to its thread. A pointer is zero if it is null,
    and `personality_data` is the extension with the index of the entry if it is not null. -/
structure FullDesc extends ThreadDesc where
  tlsPtr : ℕ := 0
  threadId : ℕ := 0
  personalityCleanup : Bool := false
  personalityForkChild : Bool := false
  deriving DecidableEq

namespace FullDesc

variable (d : FullDesc)

/-- An entry is invalidated. -/
def invalidate : FullDesc :=
  { d with
    toEntry := d.recycle
    personalityCleanup := false
    personalityForkChild := false
    stackBase := 0
    stackSize := 0
    tlsRegion := 0
    tlsRegionSize := 0
    ipcBufVaddr := 0
    tlsPtr := 0
    stackFrameBase := 0
    stackFrameCount := 0
    tlsFrameBase := 0
    tlsFrameCount := 0 }

/-- The extension of an entry is cleared. -/
def resetExt : FullDesc :=
  { d with tid := 0, extTcbCap := 0, extStackBase := 0, extStackSize := 0, detached := false }

end FullDesc

/-- `CAP_SELF_TCB`. -/
def capSelfTcb : ℕ := 0

/-- `THREAD_POOL` with the extensions, what the process has, `NEXT_THREAD_ID`, `NEXT_FREE_HINT`,
    `IPC_BUF_NEXT` and `__trona_sc_cap`, and the pages of the main thread: its stack, its variables
    and its IPC buffer, which no descriptor names. -/
structure FullPool where
  descs : ℕ → FullDesc
  res : Resources
  nextId : ℕ
  hint : ℕ
  ipcNext : ℕ
  scCap : ℕ
  mainPages : Finset ℕ

namespace FullPool

variable (p : FullPool)

def setDesc (k : ℕ) (d : FullDesc) : FullPool := { p with descs := Function.update p.descs k d }

/-- The new main descriptor. The capability of the scheduling context is what procmgr answers,
    zero if it does not. -/
def adoptMain (sc : ℕ) : FullPool :=
  { p.setDesc 0 { p.descs 0 with tcbCap := capSelfTcb, scCap := sc } with scCap := sc }

/-- One entry other than that of the main thread. -/
def invalidateEntry (k : ℕ) : FullPool :=
  if (p.descs k).state = .unused then p
  else { p.setDesc k (p.descs k).invalidate with res := (p.descs k).unmapNamed p.res }

/-- The loop over these entries. -/
def invalidateThreads : FullPool := (List.range' 1 (maxThreads - 1)).foldl invalidateEntry p

/-- `posix_personality_fork_child`, called for the main descriptor. -/
def posixPersonalityForkChild : FullPool :=
  { p with
    descs := fun k =>
      if k = 0 then { (p.descs 0).resetExt with data := true }
      else (p.descs k).resetExt
    hint := 1
    ipcNext := ipcBufRegionBase }

/-- The hook of the main descriptor is called, and the numbers of threads start again. -/
def restart : FullPool :=
  let p := if (p.descs 0).personalityForkChild then p.posixPersonalityForkChild else p
  { p with nextId := 1 }

/-- `_trona_post_fork_child`. -/
def postForkChild (sc : ℕ) : FullPool := (p.adoptMain sc).invalidateThreads.restart

/-- `next_thread_id`. -/
def nextThreadId : ℕ × FullPool := (p.nextId, { p with nextId := (p.nextId + 1) % 2 ^ 64 })

/-- The numbers that the next threads get, whoever creates them. -/
def laterIds (p : FullPool) : ℕ → List ℕ
  | 0 => []
  | n + 1 => p.nextThreadId.1 :: p.nextThreadId.2.laterIds n

/-! ## The thread that has forked -/

/-- The pages of the thread of an entry: its stack, its variables and its IPC buffer. -/
def ownPages (k : ℕ) : Finset ℕ := if k = 0 then p.mainPages else (p.descs k).namedPages

/-- In the child, the thread of an entry has what it had, and the numbers of the next threads are
    not its number. -/
structure Survives (k sc n : ℕ) : Prop where
  /-- None of its pages has been unmapped. -/
  pages : p.ownPages k ∩ p.res.pages ⊆ (p.postForkChild sc).res.pages
  /-- Its descriptor is in use. -/
  inUse : ((p.postForkChild sc).descs k).state ≠ .unused
  /-- Its descriptor is its own: it leads to the variables of the thread, and has its number. -/
  tlsPtr : ((p.postForkChild sc).descs k).tlsPtr = (p.descs k).tlsPtr
  threadId : ((p.postForkChild sc).descs k).threadId = (p.descs k).threadId
  ids : (p.descs k).threadId ∉ (p.postForkChild sc).laterIds n

/-- No entry in use, other than its own, names a mapped page of the main thread. -/
def MainApart : Prop :=
  ∀ k < maxThreads, k ≠ 0 → (p.descs k).state ≠ .unused →
    Disjoint (p.mainPages ∩ p.res.pages) (p.descs k).namedPages

section

variable {p} {j k n sc x : ℕ}

theorem mem_unmapNamed {d : ThreadDesc} {w : Resources} :
    x ∈ (d.unmapNamed w).pages ↔ x ∈ w.pages ∧ x ∉ d.namedPages := by
  have hpages : (d.unmapNamed w).pages = w.pages \ d.namedPages := by
    simp only [ThreadDesc.unmapNamed, Resources.unmapRange_eq, Resources.unmap_eq,
      Resources.ite_without, ite_self]
    simp only [Resources.without_without, Finset.union_empty]
    rfl
  rw [hpages, Finset.mem_sdiff]

theorem invalidateEntry_descs_self (h : (p.descs k).state ≠ .unused) :
    (p.invalidateEntry k).descs k = (p.descs k).invalidate := by
  simp [invalidateEntry, setDesc, h]

theorem invalidateEntry_descs_ne (h : j ≠ k) : (p.invalidateEntry k).descs j = p.descs j := by
  rw [invalidateEntry]
  split
  · rfl
  · exact Function.update_of_ne h _ _

/-- An entry that has been visited is unused. -/
theorem invalidateEntry_unused : ((p.invalidateEntry k).descs k).state = .unused := by
  by_cases h : (p.descs k).state = .unused
  · rw [invalidateEntry, if_pos h, h]
  · rw [invalidateEntry_descs_self h]
    rfl

theorem mem_invalidateEntry :
    x ∈ (p.invalidateEntry k).res.pages ↔
      x ∈ p.res.pages ∧ ((p.descs k).state ≠ .unused → x ∉ (p.descs k).namedPages) := by
  by_cases h : (p.descs k).state = .unused
  · simp [invalidateEntry, h]
  · rw [invalidateEntry, if_neg h]
    simpa [h] using mem_unmapNamed

/-- The entries that are not visited stay as they are. -/
theorem descs_foldl_of_notMem (l : List ℕ) (h : k ∉ l) :
    (l.foldl invalidateEntry p).descs k = p.descs k := by
  induction l generalizing p with
  | nil => rfl
  | cons a l ih =>
    obtain ⟨hka, hkl⟩ := not_or.1 (mt List.mem_cons.2 h)
    rw [List.foldl_cons, ih hkl, invalidateEntry_descs_ne hka]

/-- Those that are visited are unused in the end. -/
theorem unused_foldl (l : List ℕ) (h : k ∈ l ∨ (p.descs k).state = .unused) :
    ((l.foldl invalidateEntry p).descs k).state = .unused := by
  induction l generalizing p with
  | nil => simpa using h
  | cons a l ih =>
    refine ih (or_iff_not_imp_right.2 fun hused => ?_)
    rcases h with h | h
    · rcases List.mem_cons.1 h with rfl | h
      · exact absurd invalidateEntry_unused hused
      · exact h
    · by_cases hka : k = a
      · exact absurd (hka ▸ invalidateEntry_unused) hused
      · exact absurd ((invalidateEntry_descs_ne hka).symm ▸ h) hused

/-- What is mapped in the end is what no entry has named. -/
theorem mem_foldl_invalidateEntry (l : List ℕ) :
    x ∈ (l.foldl invalidateEntry p).res.pages ↔
      x ∈ p.res.pages ∧
        ∀ k ∈ l, (p.descs k).state ≠ .unused → x ∉ (p.descs k).namedPages := by
  induction l generalizing p with
  | nil => simp
  | cons a l ih =>
    rw [List.foldl_cons, ih, mem_invalidateEntry, List.forall_mem_cons, and_assoc]
    refine and_congr_right fun _ => and_congr_right fun ha => forall₂_congr fun k hk => ?_
    -- the first entry may come again, but then it is unused
    rcases eq_or_ne k a with rfl | hka
    · exact iff_of_true (fun hused => absurd invalidateEntry_unused hused) ha
    · rw [invalidateEntry_descs_ne hka]

theorem mem_threadEntries : k ∈ List.range' 1 (maxThreads - 1) ↔ k < maxThreads ∧ k ≠ 0 := by
  rw [List.mem_range'_1, maxThreads]
  omega

theorem adoptMain_descs_ne (h : k ≠ 0) : (p.adoptMain sc).descs k = p.descs k :=
  Function.update_of_ne h _ _

theorem restart_descs :
    ∃ data, p.restart.descs k = { p.descs k with data := data } ∨
      p.restart.descs k = { (p.descs k).resetExt with data := data } := by
  rw [restart]
  split
  · by_cases hk : k = 0
    · exact ⟨true, .inr (by simp [posixPersonalityForkChild, hk])⟩
    · exact ⟨(p.descs k).data, .inr (by simp [posixPersonalityForkChild, hk]; rfl)⟩
  · exact ⟨(p.descs k).data, .inl rfl⟩

/-- The end of the function leaves an entry in use or unused, and attached to its thread. -/
theorem restart_attached :
    (p.restart.descs k).state = (p.descs k).state ∧
      (p.restart.descs k).tlsPtr = (p.descs k).tlsPtr ∧
      (p.restart.descs k).threadId = (p.descs k).threadId := by
  obtain ⟨data, h | h⟩ := p.restart_descs (k := k)
  · rw [h]
    exact ⟨rfl, rfl, rfl⟩
  · rw [h]
    exact ⟨rfl, rfl, rfl⟩

theorem restart_res : p.restart.res = p.res := by
  rw [restart]
  split
  · rfl
  · rfl

theorem restart_nextId : p.restart.nextId = 1 := rfl

/-- Of the entries that are in use, only that of the main thread remains. -/
theorem postForkChild_unused (hk : k < maxThreads) (hne : k ≠ 0) :
    ((p.postForkChild sc).descs k).state = .unused := by
  rw [postForkChild, restart_attached.1, invalidateThreads]
  exact unused_foldl _ (.inl (mem_threadEntries.2 ⟨hk, hne⟩))

/-- The main descriptor keeps what attaches it to the main thread. -/
theorem postForkChild_main :
    ((p.postForkChild sc).descs 0).state = (p.descs 0).state ∧
      ((p.postForkChild sc).descs 0).tlsPtr = (p.descs 0).tlsPtr ∧
      ((p.postForkChild sc).descs 0).threadId = (p.descs 0).threadId := by
  have hmain : (p.adoptMain sc).invalidateThreads.descs 0 =
      { p.descs 0 with tcbCap := capSelfTcb, scCap := sc } := by
    rw [invalidateThreads, descs_foldl_of_notMem _ fun h => (mem_threadEntries.1 h).2 rfl,
      adoptMain]
    exact Function.update_self 0 _ p.descs
  rw [postForkChild]
  have hattached := restart_attached (p := (p.adoptMain sc).invalidateThreads) (k := 0)
  rwa [hmain] at hattached

theorem mem_postForkChild :
    x ∈ (p.postForkChild sc).res.pages ↔
      x ∈ p.res.pages ∧ ∀ k < maxThreads, k ≠ 0 → (p.descs k).state ≠ .unused →
        x ∉ (p.descs k).namedPages := by
  rw [postForkChild, restart_res, invalidateThreads, mem_foldl_invalidateEntry]
  refine and_congr_right fun _ => forall_congr' fun k => ?_
  rw [mem_threadEntries, and_imp]
  refine forall₂_congr fun _ hne => ?_
  rw [adoptMain_descs_ne hne]

/-- The pages of the main thread stay mapped if and only if no other entry names one of them. -/
theorem mainPages_subset_iff :
    p.mainPages ∩ p.res.pages ⊆ (p.postForkChild sc).res.pages ↔ p.MainApart := by
  simp only [Finset.subset_iff, mem_postForkChild]
  constructor
  · intro h k hk hne hused
    exact Finset.disjoint_left.2 fun x hx => (h hx).2 k hk hne hused
  · intro h x hx
    refine ⟨(Finset.mem_inter.1 hx).2, fun k hk hne hused => ?_⟩
    exact Finset.disjoint_left.1 (h k hk hne hused) hx

/-- The numbers are consecutive, and wrap. -/
theorem mem_laterIds (hp : p.nextId < 2 ^ 64) :
    x ∈ p.laterIds n ↔ ∃ j < n, (p.nextId + j) % 2 ^ 64 = x := by
  induction n generalizing p with
  | zero => simp [laterIds]
  | succ n ih =>
    have hnext : p.nextThreadId.2.nextId = (p.nextId + 1) % 2 ^ 64 := rfl
    rw [laterIds, List.mem_cons, ih (by rw [hnext]; exact Nat.mod_lt _ (by decide)), hnext]
    constructor
    · rintro (rfl | ⟨j, hj, rfl⟩)
      · exact ⟨0, by omega, Nat.mod_eq_of_lt hp⟩
      · exact ⟨j + 1, by omega, by rw [Nat.mod_add_mod]; congr 1; omega⟩
    · rintro ⟨_ | j, hj, rfl⟩
      · exact .inl (Nat.mod_eq_of_lt hp)
      · exact .inr ⟨j, by omega, by rw [Nat.mod_add_mod]; congr 1; omega⟩

/-- The number zero does not come before all others have come. -/
theorem zero_mem_laterIds_iff : 0 ∈ (p.postForkChild sc).laterIds n ↔ 2 ^ 64 ≤ n := by
  have hone : (p.postForkChild sc).nextId = 1 := restart_nextId
  rw [mem_laterIds (by rw [hone]; decide), hone]
  constructor
  · rintro ⟨j, hj, h⟩
    omega
  · exact fun h => ⟨2 ^ 64 - 1, by omega, by decide⟩

end

/-- A thread that has forked survives in the child if and only if it is the main thread, no other
    entry names its pages, and the numbers of threads do not wrap. -/
theorem postForkChild_survives_iff (k sc n : ℕ) (hk : k < maxThreads)
    (hused : (p.descs k).state ≠ .unused) (hmain : (p.descs 0).threadId = 0) :
    p.Survives k sc n ↔ k = 0 ∧ p.MainApart ∧ n < 2 ^ 64 := by
  constructor
  · intro h
    have hzero : k = 0 := by_contra fun hne => h.inUse (postForkChild_unused hk hne)
    subst hzero
    have hids : 0 ∉ (p.postForkChild sc).laterIds n := hmain ▸ h.ids
    rw [zero_mem_laterIds_iff, not_le] at hids
    exact ⟨rfl, mainPages_subset_iff.1 h.pages, hids⟩
  · rintro ⟨rfl, hapart, hn⟩
    refine ⟨mainPages_subset_iff.2 hapart, ?_, postForkChild_main.2.1, postForkChild_main.2.2, ?_⟩
    · rw [postForkChild_main.1]
      exact hused
    · rw [hmain, zero_mem_laterIds_iff, not_le]
      exact hn

/-- A process whose main thread has a page for its IPC buffer, one for its variables and one for its
    stack, and has created a thread with a stack of two pages. -/
def twoThreads : FullPool where
  descs k := match k with
    | 0 => { state := .running, owner := .personality, data := true, tlsPtr := 0x6000,
             personalityForkChild := true }
    | 1 => { state := .running, owner := .personality, data := true, tid := 1,
             stackBase := 0x10000, stackSize := 0x2000, ipcBufVaddr := ipcBufRegionBase,
             extTcbCap := 10, extStackBase := 0x10000, extStackSize := 0x2000, tlsPtr := 0x11F80,
             threadId := 1, personalityCleanup := true }
    | _ => {}
  res := ⟨{10}, {10}, {0x5000, 0x6000, 0x7000, 0x10000, 0x11000, ipcBufRegionBase}⟩
  nextId := 2
  hint := 2
  ipcNext := ipcBufRegionBase + 4096
  scCap := 0
  mainPages := {0x5000, 0x6000, 0x7000}

/-- The main thread forks, and the child creates three threads. -/
theorem postForkChild_survives_main : twoThreads.Survives 0 5 3 := by
  refine (twoThreads.postForkChild_survives_iff 0 5 3 (by decide +kernel) (by decide +kernel) rfl).2
    ⟨rfl, fun k hk => ?_, by decide +kernel⟩
  revert k
  decide +kernel

/-- The other thread forks. In the child its stack is unmapped and its descriptor is unused, and
    the next thread has its number. -/
theorem postForkChild_pthread :
    (twoThreads.descs 1).state = .running ∧
      0x10000 ∈ twoThreads.ownPages 1 ∩ twoThreads.res.pages ∧
      0x10000 ∉ (twoThreads.postForkChild 5).res.pages ∧
      ((twoThreads.postForkChild 5).descs 1).state = .unused ∧
      ((twoThreads.postForkChild 5).descs 1).tlsPtr = 0 ∧
      (twoThreads.postForkChild 5).laterIds 1 = [(twoThreads.descs 1).threadId] ∧
      ¬twoThreads.Survives 1 5 1 := by
  have hunused : ((twoThreads.postForkChild 5).descs 1).state = .unused := by decide +kernel
  exact ⟨rfl, by decide +kernel, by decide +kernel, hunused, by decide +kernel, by decide +kernel,
    fun h => h.inUse hunused⟩

end FullPool

end ThreadPool

end Trona
