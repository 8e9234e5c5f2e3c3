import Mathlib.Data.List.Iterate
import Trona.Rtld.Bias
import Trona.Rtld.Symbol
import Trona.Rtld.Tls
import Trona.Substrate.Cspace

/-!
# The slots of the dynamic linker

`rtld_main` (`rtld/elf/rtld_main.c`) loads the libraries that the executable needs, and those
that these need, and relocates all objects. For every page that it allocates it takes the next
slot of the CNode, from the first slot for frames of the CSpace layout on. At its end it moves
the start of the slots that the process hands out past the ones it has taken.

How many slots a library takes follows from its program headers: one for each page that is not
mapped from the initial RAM disk (`MappedLibrary.frames`). `Takes` says what a part of the linker
does: it maps some libraries and takes their slots, one after the other. Where the program is
entered, every slot is the linker's own exactly if the frames of the libraries fit into the
layout's range (`rtldMain_owned_iff`).
-/

namespace Trona

namespace Rtld

/-! ## The linker -/

/-- `find_loaded_object`. -/
def findLoadedObject (objects : List LinkMap) (name : List UInt8) : Option LinkMap :=
  (makeCanonicalObjectName name).bind fun canonical => objects.find? (·.name = canonical)

/-- Where the first library goes: where the parent has mapped it, or a page after the linker
    itself. -/
def firstLoadAddr (cfg : Config) (rtldBase : ℕ) (m : Memory) : Option ℕ :=
  if cfg.sharedLibBase ≠ 0 then some cfg.sharedLibBase
  else
    (m.elf64Ehdr rtldBase).bind fun ehdr =>
      (phdrsAt m (rtldBase + ehdr.ePhoff) ehdr.ePhnum 0).map fun phs =>
        let maxEnd := elfBrk phs (wsub rtldBase (minVaddr phs))
        ((if maxEnd = 0 then rtldBase + 0x80000 else maxEnd) + pageSize) % 2 ^ 64

section

variable (cfg : Config) (env : ℕ → Env)

/-- Load a library, and say where the next one goes. The answers of the kernel are by the
    number of the object. -/
def loadNext (name : List UInt8) (loadAddr : ℕ) : M ℕ := do
  let s ← get
  loadSharedLibrary cfg (env s.objects.length) name loadAddr
  let s ← get
  let size := (s.objects.getLast?.map LinkMap.loadSize).getD 0
  return (loadAddr + (if size = 0 then 0x80000 else size) + pageSize) % 2 ^ 64

/-- The loop over the entries of a dynamic table, from an address on, that loads the needed
    libraries. The dependencies of libraries are not loaded twice. -/
def loadNeeded (strtab : ℕ) (transitive : Bool) : (fuel dyn loadAddr : ℕ) → M ℕ
  | 0, _, _ => throw .fault
  | fuel + 1, dyn, loadAddr => do
    let s ← get
    match (s.memory cfg).elf64Dyn dyn with
    | none => throw .fault
    | some d =>
      if d.dTag = dtNull then return loadAddr
      else if d.dTag ≠ dtNeeded then loadNeeded strtab transitive fuel (dyn + 16) loadAddr
      else
        match (s.memory cfg).cstr (2 ^ 64) (strtab + d.dVal) with
        | none => throw .fault
        | some name =>
          if transitive ∧ (findLoadedObject s.objects name).isSome then
            loadNeeded strtab transitive fuel (dyn + 16) loadAddr
          else do
            let next ← loadNext cfg env name loadAddr
            loadNeeded strtab transitive fuel (dyn + 16) next

/-- The objects from number `processed` on, with those that are added meanwhile: load what they
    need. There are no more objects than fuel. -/
def loadTransitive : (fuel processed loadAddr : ℕ) → M PUnit
  | 0, _, _ => return ⟨⟩
  | fuel + 1, processed, loadAddr => do
    let s ← get
    match s.objects[processed]? with
    | none => return ⟨⟩
    | some map =>
      if map.dynSection ≠ 0 ∧ map.strtab ≠ 0 then do
        let next ← loadNeeded cfg env map.strtab true (2 ^ 60) map.dynSection loadAddr
        loadTransitive fuel (processed + 1) next
      else loadTransitive fuel (processed + 1) loadAddr

end

/-- Move the start of the slots that the process hands out past those that the linker has
    taken. -/
def leaveLayout (l : CspaceLayout) (next : ℕ) : CspaceLayout :=
  if next > l.allocBase then
    { l with allocBase := if next < l.allocLimit then next else l.allocLimit }
  else l

section

variable (arch : Arch) (tlsdescResolver : ℕ) (cfg : Config) (env : ℕ → Env) (rtldBase : ℕ)
  (exe : LinkMap)

/-- Load the libraries that the executable needs, and say where the next one goes. -/
def loadDirect (loadAddr : ℕ) : M ℕ :=
  if exe.dynSection ≠ 0 then
    loadNeeded cfg env exe.strtab false (2 ^ 60) exe.dynSection loadAddr
  else return loadAddr

/-- Load all libraries, lay out their thread-local data, and relocate the objects, the last one
    first. -/
def linkObjects : M PUnit := do
  let s ← get
  match firstLoadAddr cfg rtldBase (s.memory cfg) with
  | none => throw .fault
  | some loadAddr => do
    let next ← loadDirect cfg env exe loadAddr
    loadTransitive cfg env (rtldMaxObjects + 1) 1 next
    modify fun s => { s with objects := (finalizeStaticTlsLayout arch s.objects).maps }
    let s ← get
    s.objects.reverse.forM (processRelocations arch tlsdescResolver cfg)

/-- `rtld_main`, from where the object of the executable is made to the entry of the
    program. -/
def rtldMain (layout : CspaceLayout) : M CspaceLayout := do
  modify fun s => { s with nextFrameSlot := layout.frameSlotBase, objects := [exe] }
  linkObjects arch tlsdescResolver cfg env rtldBase exe
  let s ← get
  return leaveLayout layout s.nextFrameSlot

end

/-! ## The frames of a library -/

namespace MappedLibrary

variable (cfg : Config) (lib : MappedLibrary)

/-- The pages of the segments, in order, with the segment and its number. -/
def visits : List (Elf64Phdr × ℕ × ℕ) :=
  (loads lib.phs).flatMap fun r => (r.1.segPages lib.delta).map fun page => (r.1, r.2, page)

/-- A page can be mapped from the initial RAM disk, and the kernel agrees. -/
def FromDisk (v : Elf64Phdr × ℕ × ℕ) : Prop :=
  (deviceOffset cfg lib.cpio v.1 (pageCopy v.1 lib.delta lib.cpio.dataLen v.2.2)).isSome = true ∧
    lib.env.mapDevice (.segment v.2.1 v.2.2) = 0

instance (v : Elf64Phdr × ℕ × ℕ) : Decidable (lib.FromDisk cfg v) :=
  inferInstanceAs (Decidable (_ ∧ _))

/-- One more page of a segment, after some pages and their frames: a page that an earlier segment
    has takes no frame, and neither does one from the RAM disk. -/
def countVisit (acc : List ℕ × ℕ) (v : Elf64Phdr × ℕ × ℕ) : List ℕ × ℕ :=
  if v.2.2 ∈ acc.1 then acc
  else (acc.1 ++ [v.2.2], if lib.FromDisk cfg v then acc.2 else acc.2 + 1)

/-- The number of frames for the pages of a library. -/
def frames : ℕ := (lib.visits.foldl (lib.countVisit cfg) ([], 0)).2

end MappedLibrary

/-! ## Taking slots -/

/-- The slot of a frame that the kernel was asked for. -/
def RtldEvent.frameSlot : RtldEvent → Option ℕ
  | .retype _ slot => some slot
  | .map _ _ => none

/-- The slots into which the linker has retyped frames, in order. -/
def State.frameSlots (s : State) : List ℕ := s.log.filterMap RtldEvent.frameSlot

/-- `next_frame_slot++`. -/
def nextSlot (slot : ℕ) : ℕ := (slot + 1) % 2 ^ 64

/-- From `s` to `s'` the linker has taken `n` slots one after the other, from the next one on, with
    a frame in each. -/
def TakesSlots (n : ℕ) (s s' : State) : Prop :=
  s'.nextFrameSlot = nextSlot^[n] s.nextFrameSlot ∧
    s'.frameSlots = s.frameSlots ++ List.iterate nextSlot s.nextFrameSlot n

/-- From `s` to `s'` the linker has mapped some libraries, and taken the slots for their frames. -/
def Takes (cfg : Config) (s s' : State) : Prop :=
  ∃ libs, s'.mapped = s.mapped ++ libs ∧ TakesSlots (libs.map (·.frames cfg)).sum s s'

/-- No slot is taken, and the pages and the libraries are the same. -/
structure Keeps (s s' : State) : Prop where
  next : s'.nextFrameSlot = s.nextFrameSlot
  slots : s'.frameSlots = s.frameSlots
  pages : s'.pages = s.pages
  mapped : s'.mapped = s.mapped

instance : IsPreorder State Keeps where
  refl _ := ⟨rfl, rfl, rfl, rfl⟩
  trans _ _ _ h h' := ⟨h'.next.trans h.next, h'.slots.trans h.slots, h'.pages.trans h.pages,
    h'.mapped.trans h.mapped⟩

section

variable {s s' s'' : State} {cfg : Config} {env : Env} {site : Site} {n n' : ℕ}

theorem TakesSlots.of_eq (hnext : s'.nextFrameSlot = s.nextFrameSlot)
    (hslots : s'.frameSlots = s.frameSlots) : TakesSlots 0 s s' :=
  ⟨hnext, by rw [hslots, List.iterate, List.append_nil]⟩

theorem TakesSlots.trans (h : TakesSlots n s s') (h' : TakesSlots n' s' s'') :
    TakesSlots (n + n') s s'' := by
  obtain ⟨hnext, hslots⟩ := h
  obtain ⟨hnext', hslots'⟩ := h'
  refine ⟨?_, ?_⟩
  · rw [hnext', hnext, Nat.add_comm, Function.iterate_add_apply]
  · rw [hslots', hslots, List.append_assoc, hnext, List.iterate_add]

theorem Takes.of_eq (hmapped : s'.mapped = s.mapped) (h : TakesSlots 0 s s') : Takes cfg s s' :=
  ⟨[], by rw [hmapped, List.append_nil], h⟩

theorem Keeps.takes (h : Keeps s s') : Takes cfg s s' := .of_eq h.mapped (.of_eq h.next h.slots)

instance : IsPreorder State (Takes cfg) where
  refl _ := .of_eq rfl (.of_eq rfl rfl)
  trans s s' s'' := by
    rintro ⟨libs, hlibs, h⟩ ⟨libs', hlibs', h'⟩
    refine ⟨libs ++ libs', by rw [hlibs', hlibs, List.append_assoc], ?_⟩
    rw [List.map_append, List.sum_append]
    exact h.trans h'

variable {err : ℤ} {v slot vaddr data dataOffset pageOffset copyLen a tlsdescResolver : ℕ}
  {arch : Arch} {map : LinkMap}

/-- A mapping takes no slot. -/
theorem frameSlots_map {m : OwnMapping} : (s.emit (.map v m)).frameSlots = s.frameSlots := by
  simp [State.frameSlots, State.emit, RtldEvent.frameSlot]

theorem frameSlots_retype {untyped : ℕ} :
    (s.emit (.retype untyped slot)).frameSlots = s.frameSlots ++ [slot] := by
  simp [State.frameSlots, State.emit, RtldEvent.frameSlot]

/-! ### Pages -/

/-- A mapping is answered as the kernel likes. -/
theorem vspaceMap_answer {mapping : OwnMapping} : wp (vspaceMap err vaddr mapping)
    (fun err' s' => err' = err ∧ Keeps s s') (fun _ _ => False) s := by
  rw [vspaceMap, wp_bind, wp_modify, wp_bind, wp_modify, wp_pure]
  refine ⟨rfl, ?_⟩
  split
  · exact ⟨rfl, frameSlots_map, rfl, rfl⟩
  · exact ⟨rfl, frameSlots_map, rfl, rfl⟩

theorem vspaceMap_keeps {mapping : OwnMapping} : Within Keeps (vspaceMap err vaddr mapping) :=
  fun _ => wp_mono vspaceMap_answer (fun _ _ h => h.2) fun _ _ h => h.elim

theorem vspaceUnmap_keeps : Within Keeps (vspaceUnmap err vaddr) := by
  refine .modify fun s => ?_
  split
  · exact ⟨rfl, rfl, rfl, rfl⟩
  · exact ⟨rfl, rfl, rfl, rfl⟩

/-- An attempt at some capability that fails has an error to report. -/
theorem foldl_bestErr_ne_zero {f : ℕ → ℤ} {l : List ℕ} (hl : ∀ ut ∈ l, f ut ≠ 0) (herr : err ≠ 0) :
    l.foldl (fun best ut => bestErr best (f ut)) err ≠ 0 := by
  induction l generalizing err with
  | nil => exact herr
  | cons ut l ih =>
    rw [List.forall_mem_cons] at hl
    refine ih hl.2 ?_
    show bestErr err (f ut) ≠ 0
    rw [bestErr]
    split
    · exact hl.1
    · exact herr

/-- From `s` to `s'` the linker has taken the next slot, for a page. -/
structure TakesNext (s s' : State) : Prop where
  slots : TakesSlots 1 s s'
  pages : s'.pages = s.pages
  mapped : s'.mapped = s.mapped

theorem TakesNext.keeps (h : TakesNext s s') (h' : Keeps s' s'') : TakesNext s s'' :=
  ⟨h.slots.trans (.of_eq h'.next h'.slots), h'.pages.trans h.pages, h'.mapped.trans h.mapped⟩

/-- A frame that was retyped is in the slot that was asked for. -/
theorem retypeFrameAny_slots (frameSlot : ℕ) (s : State) :
    wp (retypeFrameAny env site frameSlot) (fun err s' => err = 0 →
      s'.nextFrameSlot = s.nextFrameSlot ∧ s'.frameSlots = s.frameSlots ++ [frameSlot] ∧
        s'.pages = s.pages ∧ s'.mapped = s.mapped) (fun _ _ => True) s := by
  rw [retypeFrameAny, wp_bind, wp_get, wp_ite]
  refine ⟨fun _ => ?_, fun herr => ?_⟩
  · rw [wp_bind, wp_modify, wp_pure]
    exact fun _ => ⟨rfl, frameSlots_retype, rfl, rfl⟩
  · dsimp only
    split
    · rw [wp_bind, wp_modify, wp_pure]
      exact fun _ => ⟨rfl, frameSlots_retype, rfl, rfl⟩
    · rename_i hnone
      rw [wp_pure]
      refine fun h0 => absurd h0 (foldl_bestErr_ne_zero (fun ut hut => ?_) herr)
      exact fun h0 => List.find?_eq_none.1 hnone ut hut (decide_eq_true h0)

/-- A page that was allocated takes the next slot. -/
theorem allocMapPage_takes (vaddr flags data dataOffset pageOffset copyLen : ℕ) (s : State) :
    wp (allocMapPage cfg env site vaddr flags data dataOffset pageOffset copyLen)
      (fun err s' => err = 0 → TakesNext s s') (fun _ _ => True) s := by
  rw [allocMapPage, wp_bind, wp_get, wp_bind, wp_modify, wp_bind]
  refine wp_returns (retypeFrameAny_slots _ _) fun err s₁ h₁ => ?_
  rw [wp_ite, wp_ite]
  refine ⟨fun _ => ?_, fun herr => ⟨fun _ => ?_, fun _ => ?_⟩⟩
  · rw [wp_pure]
    exact fun h => by cases h
  · rw [wp_pure]
    exact fun h => by cases h
  · -- The frame is there; what follows takes no slot.
    obtain ⟨hnext, hslots, hpages, hmapped⟩ := h₁ (not_not.1 herr)
    have htakes : TakesNext s s₁ := ⟨⟨hnext, hslots⟩, hpages, hmapped⟩
    rw [wp_bind, wp_modify, wp_bind]
    refine wp_returns (copyToFrame_within (R := Keeps) (fun _ _ _ _ => ⟨rfl, rfl, rfl, rfl⟩) _)
      fun _ s₂ h₂ => ?_
    rw [wp_bind]
    refine wp_returns (vspaceMap_keeps s₂) fun err' s₃ h₃ => ?_
    have hrest : TakesNext s s₃ := (htakes.keeps ⟨h₂.1, h₂.2, h₂.3, h₂.4⟩).keeps h₃
    rw [wp_ite]
    exact ⟨fun _ => wp_pure.2 (fun h => by cases h), fun _ => wp_pure.2 fun _ => hrest⟩

variable {lib : MappedLibrary} {done : List (Elf64Phdr × ℕ × ℕ)} {v : Elf64Phdr × ℕ × ℕ}
  {name : List UInt8} {loadAddr delta : ℕ} {phs : List Elf64Phdr}

/-- After some pages of the segments, the table has each of them once, and the slots for the
    frames are taken. -/
structure Visited (cfg : Config) (lib : MappedLibrary) (s : State)
    (done : List (Elf64Phdr × ℕ × ℕ)) (s' : State) : Prop where
  slots : TakesSlots (done.foldl (lib.countVisit cfg) ([], 0)).2 s s'
  pages : s'.pages.map LibPage.vaddr = (done.foldl (lib.countVisit cfg) ([], 0)).1
  mapped : s'.mapped = s.mapped

theorem Visited.concat (h : Visited cfg lib s done s') (hmapped : s''.mapped = s'.mapped)
    (hcase : v.2.2 ∈ s'.pages.map LibPage.vaddr ∧ TakesSlots 0 s' s'' ∧
        s''.pages.map LibPage.vaddr = s'.pages.map LibPage.vaddr ∨
      v.2.2 ∉ s'.pages.map LibPage.vaddr ∧
        TakesSlots (if lib.FromDisk cfg v then 0 else 1) s' s'' ∧
        s''.pages.map LibPage.vaddr = s'.pages.map LibPage.vaddr ++ [v.2.2]) :
    Visited cfg lib s (done ++ [v]) s'' := by
  rw [h.pages] at hcase
  have hfold : (done ++ [v]).foldl (lib.countVisit cfg) ([], 0) =
      lib.countVisit cfg (done.foldl (lib.countVisit cfg) ([], 0)) v := by
    rw [List.foldl_append]
    rfl
  rcases hcase with ⟨hmem, hslots, hpages⟩ | ⟨hmem, hslots, hpages⟩
  · refine ⟨?_, ?_, hmapped.trans h.mapped⟩
    · rw [hfold, MappedLibrary.countVisit, if_pos hmem]
      exact h.slots.trans hslots
    · rw [hfold, MappedLibrary.countVisit, if_pos hmem, hpages]
  · have hsum := h.slots.trans hslots
    refine ⟨?_, ?_, hmapped.trans h.mapped⟩
    · rw [hfold, MappedLibrary.countVisit, if_neg hmem]
      split_ifs with hdisk
      · rwa [if_pos hdisk] at hsum
      · rwa [if_neg hdisk] at hsum
    · rw [hfold, MappedLibrary.countVisit, if_neg hmem, hpages]

section

variable (h : Visited cfg lib s done s')

include h

/-- A page that an earlier segment has is patched, and maybe mapped again. -/
theorem mergeLibPage_visited {e : LibPage}
    (hlookup : lookup LibPage.vaddr s'.pages v.2.2 = some e) :
    wp (mergeLibPage cfg lib.env lib.cpio v.1 (.segment v.2.1 v.2.2) v.2.2
        (pageCopy v.1 lib.delta lib.cpio.dataLen v.2.2) e)
      (fun _ => Visited cfg lib s (done ++ [v])) (fun _ _ => True) s' := by
  have hmem : v.2.2 ∈ s'.pages.map LibPage.vaddr :=
    List.mem_map.2 ⟨e, mem_of_lookup hlookup, key_of_lookup hlookup⟩
  have hsame : ∀ {s'' : State}, Keeps s' s'' → Visited cfg lib s (done ++ [v]) s'' := fun hk =>
    h.concat hk.mapped (.inl ⟨hmem, .of_eq hk.next hk.slots, by rw [hk.pages]⟩)
  refine wp_ite.2 ⟨fun _ => wp_ite.2 ⟨fun _ => wp_throw.2 trivial, fun _ =>
    wp_pure.2 (hsame (refl_of Keeps s'))⟩, fun _ => wp_bind.2 ?_⟩
  refine wp_returns (patchMappedPage_within (R := Keeps) (fun _ _ _ _ => ⟨rfl, rfl, rfl, rfl⟩) s')
    fun err s₁ h₁ => ?_
  refine wp_ite.2 ⟨fun _ => wp_throw.2 trivial, fun _ => wp_ite.2 ⟨fun _ => wp_bind.2 ?_,
    fun _ => wp_pure.2 (hsame h₁)⟩⟩
  refine wp_returns (vspaceUnmap_keeps s₁) fun _ s₂ h₂ => wp_bind.2 ?_
  refine wp_returns (vspaceMap_keeps s₂) fun err s₃ h₃ => wp_ite.2 ⟨fun _ => wp_throw.2 trivial,
    fun _ => wp_modify.2 ?_⟩
  have hk : Keeps s' s₃ := trans_of Keeps (trans_of Keeps h₁ h₂) h₃
  refine h.concat hk.mapped (.inl ⟨hmem, .of_eq hk.next hk.slots, ?_⟩)
  rw [← hk.pages] at hlookup ⊢
  exact map_replace LibPage.vaddr hlookup rfl

/-- A new page takes the next slot, if it is not from the RAM disk. -/
theorem addLibPage_visited (hmem : v.2.2 ∉ s'.pages.map LibPage.vaddr) :
    wp (addLibPage cfg lib.env lib.cpio v.1 (.segment v.2.1 v.2.2) v.2.2
        (pageCopy v.1 lib.delta lib.cpio.dataLen v.2.2))
      (fun _ => Visited cfg lib s (done ++ [v])) (fun _ _ => True) s' := by
  generalize hcopy : pageCopy v.1 lib.delta lib.cpio.dataLen v.2.2 = copy
  -- Without the RAM disk the page gets a frame.
  have hframe : ∀ s₁, Keeps s' s₁ → ¬lib.FromDisk cfg v → wp (do
      let s ← get
      let err ← allocMapPage cfg lib.env (.segment v.2.1 v.2.2) v.2.2
        (elfToVspaceFlags v.1.pFlags) lib.cpio.data copy.dataOffset copy.pageOffset copy.copyLen
      if err ≠ 0 then throw (.error (-6))
      else recordLibPage ⟨v.2.2, s.nextFrameSlot, elfToVspaceFlags v.1.pFlags, false⟩)
      (fun _ => Visited cfg lib s (done ++ [v])) (fun _ _ => True) s₁ := by
    intro s₁ h₁ hdisk
    rw [wp_bind, wp_get, wp_bind]
    refine wp_post (allocMapPage_takes _ _ _ _ _ _ s₁) fun err s₂ h₂ => ?_
    refine wp_ite.2 ⟨fun _ => wp_throw.2 trivial, fun herr => wp_modify.2 ?_⟩
    have htakes := h₂ (not_not.1 herr)
    refine h.concat (htakes.mapped.trans h₁.mapped) (.inr ⟨hmem, ?_, ?_⟩)
    · rw [if_neg hdisk]
      exact TakesSlots.trans (n := 0) (.of_eq h₁.next h₁.slots) htakes.slots
    · rw [List.map_append, htakes.pages, h₁.pages]
      rfl
  rw [addLibPage, wp_bind, wp_get]
  refine wp_ite.2 ⟨fun _ => wp_throw.2 trivial, fun _ => ?_⟩
  rw [wp_bind, mapDevicePage]
  cases hoff : deviceOffset cfg lib.cpio v.1 copy with
  | none =>
    refine wp_pure.2 (hframe s' (refl_of Keeps s') fun hdisk => ?_)
    rw [MappedLibrary.FromDisk, hcopy, hoff] at hdisk
    cases hdisk.1
  | some offset =>
    refine wp_bind.2 (wp_returns vspaceMap_answer fun err s₁ h₁ => ?_)
    obtain ⟨rfl, hk⟩ := h₁
    refine wp_ite.2 ⟨fun herr => wp_bind.2 (wp_modify.2 (wp_pure.2 (wp_pure.2 ?_))),
      fun herr => wp_pure.2 (hframe s₁ hk fun hdisk => herr hdisk.2)⟩
    have hdisk : lib.FromDisk cfg v := ⟨by rw [hcopy, hoff]; rfl, herr⟩
    refine h.concat hk.mapped (.inr ⟨hmem, ?_, ?_⟩)
    · rw [if_pos hdisk]
      exact .of_eq hk.next hk.slots
    · rw [List.map_append, hk.pages]
      rfl

theorem loadPage_visited :
    wp (loadPage cfg lib.env lib.cpio v.1 (.segment v.2.1 v.2.2) v.2.2
        (pageCopy v.1 lib.delta lib.cpio.dataLen v.2.2))
      (fun _ => Visited cfg lib s (done ++ [v])) (fun _ _ => True) s' := by
  rw [loadPage, wp_bind, wp_get]
  cases hlookup : lookup LibPage.vaddr s'.pages v.2.2 with
  | some e => exact mergeLibPage_visited h hlookup
  | none => exact addLibPage_visited h (by simpa using lookup_eq_none.1 hlookup)

end

/-- The segments of a library take the slots for its frames. -/
theorem loadSegments_takes {cpio : CpioEntry} :
    Returns (Takes cfg) (loadSegments cfg env cpio phs delta) := by
  intro s
  rw [loadSegments, wp_bind, wp_modify]
  refine wp_post (wp_forM_forM (fun (r : Elf64Phdr × ℕ) page => (r.1, r.2, page))
    (Visited cfg ⟨env, cpio, phs, delta⟩
      { s with pages := [], mapped := s.mapped ++ [⟨env, cpio, phs, delta⟩] })
    ⟨.of_eq rfl rfl, rfl, rfl⟩ fun done r page todo s₁ _ _ _ h => ?_) fun _ s' h => ?_
  · exact loadPage_visited (v := (r.1, r.2, page)) h
  · refine ⟨[⟨env, cpio, phs, delta⟩], h.mapped, ?_⟩
    rw [List.map_singleton, List.sum_singleton]
    exact h.slots

/-! ### Objects -/

theorem addObject_keeps : Within Keeps (addObject cfg name loadAddr delta phs) := fun s =>
  wp_addObject (fun _ => refl_of Keeps s) (refl_of Keeps s) fun _ _ _ _ => ⟨rfl, rfl, rfl, rfl⟩

theorem loadSharedLibrary_takes :
    Returns (Takes cfg) (loadSharedLibrary cfg env name loadAddr) := by
  intro s
  have hadd {n : List UInt8} {delta : ℕ} {phs : List Elf64Phdr} :
      Returns (Takes cfg) (addObject cfg n loadAddr delta phs) :=
    (addObject_keeps.mono fun _ _ h => h.takes).returns
  refine wp_loadSharedLibrary (fun _ => trivial) (fun n _ _ _ _ => ?_) fun n cpio _ _ _ => ?_
  · exact wp_loadPremappedLibrary (fun _ => trivial) fun _ _ _ _ => hadd s
  · exact wp_loadFound (fun _ => trivial)
      (fun phs _ => Returns.bind loadSegments_takes (fun _ => hadd) s) fun _ _ => hadd s

theorem loadNeeded_takes {env : ℕ → Env} {strtab : ℕ} {transitive : Bool} {fuel dyn : ℕ} :
    Returns (Takes cfg) (loadNeeded cfg env strtab transitive fuel dyn loadAddr) := by
  induction fuel generalizing dyn loadAddr with
  | zero => exact .throw
  | succ fuel ih =>
    refine .bind .get fun s => ?_
    split
    · exact .throw
    · refine .ite (fun _ => .pure) fun _ => .ite (fun _ => ih) fun _ => ?_
      split
      · exact .throw
      · refine .ite (fun _ => ih) fun _ => .bind ?_ fun next => ih
        exact .bind .get fun s => .bind loadSharedLibrary_takes fun _ => .bind .get fun _ => .pure

theorem loadTransitive_takes {env : ℕ → Env} {fuel processed : ℕ} :
    Returns (Takes cfg) (loadTransitive cfg env fuel processed loadAddr) := by
  induction fuel generalizing processed loadAddr with
  | zero => exact .pure
  | succ fuel ih =>
    refine .bind .get fun s => ?_
    split
    · exact .pure
    · exact .ite (fun _ => .bind loadNeeded_takes fun _ => ih) fun _ => ih

/-! ### Relocations -/

/-- What a loop over a list that may stop keeps. -/
theorem foldlM_keeps {β : Type} {f : State → β → Option State}
    (hf : ∀ s b s', f s b = some s' → Keeps s s') {l : List β} (h : l.foldlM f s = some s') :
    Keeps s s' := by
  induction l generalizing s with
  | nil =>
    obtain rfl := Option.some.inj h
    exact refl_of Keeps s
  | cons b l ih =>
    obtain ⟨s₁, h₁, h₂⟩ := Option.bind_eq_some_iff.1 h
    exact trans_of Keeps (hf s b s₁ h₁) (ih h₂)

/-- A store takes no slot. -/
theorem storeByte_keeps {b : UInt8} (h : s.storeByte a b = some s') : Keeps s s' := by
  unfold State.storeByte at h
  split at h
  iterate 2
    · obtain ⟨-, h⟩ := Option.ite_none_right_eq_some.1 h
      obtain rfl := Option.some.inj h
      exact ⟨rfl, rfl, rfl, rfl⟩
  · cases h

theorem storeWord_keeps {w : ℕ} (h : s.storeWord a w = some s') : Keeps s s' :=
  foldlM_keeps (fun _ _ _ h => storeByte_keeps h) h

theorem applyRela_keeps {r : Elf64Rela} :
    Within Keeps (applyRela arch tlsdescResolver cfg map r) := by
  intro s
  rw [applyRela, wp_bind, wp_get]
  split
  · exact wp_throw.2 (refl_of Keeps s)
  · split
    · exact wp_throw.2 (refl_of Keeps s)
    · rename_i hstores
      exact wp_set.2 (foldlM_keeps (fun _ _ _ h => storeWord_keeps h) hstores)

theorem processRelocations_keeps :
    Within Keeps (processRelocations arch tlsdescResolver cfg map) := by
  have htable (table count entSize : ℕ) :
      Within Keeps (applyRelaTable arch tlsdescResolver cfg map table count entSize) := by
    refine .ite (fun _ => .pure) fun _ => .forM fun i _ => .bind .get fun s => ?_
    split
    · exact .throw
    · exact applyRela_keeps
  exact .bind (htable _ _ _) fun _ => htable _ _ _

end

/-! ## The layout at the end -/

section

variable {arch : Arch} {tlsdescResolver rtldBase : ℕ} {cfg : Config} {env : ℕ → Env}
  {exe : LinkMap} {s s' : State} {l l' : CspaceLayout}

theorem linkObjects_takes :
    Returns (Takes cfg) (linkObjects arch tlsdescResolver cfg env rtldBase exe) := by
  refine .bind .get fun s => ?_
  split
  · exact .throw
  · refine .bind (.ite (fun _ => loadNeeded_takes) fun _ => .pure) fun next => ?_
    refine .bind loadTransitive_takes fun _ => ?_
    refine .bind (Within.modify fun _ => .of_eq rfl (.of_eq rfl rfl)).returns fun _ =>
      .bind .get fun s => ?_
    exact .forM fun map _ => (processRelocations_keeps.mono fun _ _ h => h.takes).returns

/-- The number of frames for the libraries that the linker has mapped. -/
def State.libraryFrames (s : State) (cfg : Config) : ℕ := (s.mapped.map (·.frames cfg)).sum

/-- The linker takes one slot after the other, from the first one for frames on, and the
    layout that it leaves is by the next one. -/
theorem rtldMain_takes (hrun : (rtldMain arch tlsdescResolver cfg env rtldBase exe l).run s =
      .ok l' s') (hnew : s.frameSlots = []) (hnone : s.mapped = []) :
    s'.frameSlots = List.iterate nextSlot l.frameSlotBase (s'.libraryFrames cfg) ∧
      l' = leaveLayout l (nextSlot^[s'.libraryFrames cfg] l.frameSlotBase) := by
  have hwp : wp (rtldMain arch tlsdescResolver cfg env rtldBase exe l)
      (fun l' s' => Takes cfg { s with nextFrameSlot := l.frameSlotBase, objects := [exe] } s' ∧
        l' = leaveLayout l s'.nextFrameSlot) (fun _ _ => True) s := by
    rw [rtldMain, wp_bind, wp_modify, wp_bind]
    refine wp_post (linkObjects_takes _) fun _ s' h => ?_
    exact wp_bind.2 (wp_get.2 (wp_pure.2 ⟨h, rfl⟩))
  obtain ⟨⟨libs, hlibs, hnext, hslots⟩, hl'⟩ := wp_ok hwp hrun
  rw [hnone, List.nil_append] at hlibs
  rw [← hlibs, ← State.libraryFrames] at hnext hslots
  refine ⟨hslots.trans ?_, by rw [hl', hnext]⟩
  exact (congrArg (· ++ _) hnew).trans (List.nil_append _)

theorem iterate_nextSlot {b k : ℕ} (h : b + k < 2 ^ 64) : nextSlot^[k] b = b + k := by
  induction k with
  | zero => rfl
  | succ k ih =>
    rw [Function.iterate_succ_apply', ih (by omega), nextSlot, Nat.mod_eq_of_lt (by omega)]
    rfl

/-- Slots one after the other that are all below a limit fit below it. -/
theorem fits_of_below {b n limit : ℕ} (hlimit : limit < 2 ^ 64)
    (hbelow : ∀ x ∈ List.iterate nextSlot b n, x < limit) : n = 0 ∨ b + n ≤ limit := by
  have hslot : ∀ k < n, b + k < limit := by
    intro k
    induction k with
    | zero => exact fun hk => hbelow _ (List.mem_iterate.2 ⟨0, hk, rfl⟩)
    | succ k ih =>
      -- The slot before is below the limit, so that this one does not wrap.
      intro hk
      have hlt := ih (by omega)
      rw [← iterate_nextSlot (by omega)]
      exact hbelow _ (List.mem_iterate.2 ⟨k + 1, hk, rfl⟩)
  rcases Nat.eq_zero_or_pos n with h0 | hpos
  · exact .inl h0
  · have := hslot (n - 1) (by omega)
    omega

/-- The slots of the linker are its own: they are in the part of the CNode that the layout `l`
    gives to the linker and the process, they are for no incoming capability and no expansion,
    and the process does not hand them out by the layout `l'` that it is left. -/
structure Owned (l l' : CspaceLayout) (slots : List ℕ) : Prop where
  inside : ∀ x ∈ slots, l.frameSlotBase ≤ x ∧ x < l.allocLimit
  recv : ∀ x ∈ slots, x ∉ l.recv
  expand : ∀ x ∈ slots, x ∉ l.expand
  left : ∀ x ∈ slots, x ∉ l'.alloc

variable {cnodeBits frameSlotFloor : ℕ} {profile : CspaceLayoutProfile} {hasExpandWindow : Bool}

/-- With the layout of the parent, if the linker comes to the entry of the program, then its slots
    are its own exactly when the frames of the libraries, counted from their program headers, fit
    into the range of the layout. -/
theorem rtldMain_owned_iff
    (hl : l = computeCspaceLayout cnodeBits frameSlotFloor profile hasExpandWindow)
    (hrun : (rtldMain arch tlsdescResolver cfg env rtldBase exe l).run s = .ok l' s')
    (hnew : s.frameSlots = []) (hnone : s.mapped = []) :
    Owned l l' s'.frameSlots ↔
      s'.libraryFrames cfg = 0 ∨ l.frameSlotBase + s'.libraryFrames cfg ≤ l.allocLimit := by
  have hcomputed := @computeCspaceLayout_computed cnodeBits frameSlotFloor profile hasExpandWindow
  have hbase : l.allocBase = if l.frameSlotBase < l.allocLimit then l.frameSlotBase
      else l.allocLimit := by
    rw [hl]
    rfl
  rw [← hl] at hcomputed
  have hlimit : l.allocLimit < 2 ^ 64 := by
    have htotal : totalSlots cnodeBits ≤ 2 ^ 62 := by
      rw [totalSlots]
      split
      · exact Nat.zero_le _
      · exact Nat.pow_le_pow_right (by decide) (by omega)
    exact (hcomputed.limit_total.trans htotal).trans_lt (by decide)
  obtain ⟨hslots, hleft⟩ := rtldMain_takes hrun hnew hnone
  generalize s'.libraryFrames cfg = n at hslots hleft ⊢
  constructor
  · intro howned
    exact fits_of_below hlimit fun x hx => (howned.inside x (hslots ▸ hx)).2
  · intro hfits
    have hrange : ∀ x ∈ s'.frameSlots, l.frameSlotBase ≤ x ∧ x < l.frameSlotBase + n ∧
        l.frameSlotBase + n ≤ l.allocLimit := by
      intro x hx
      rw [hslots] at hx
      obtain ⟨k, hk, rfl⟩ := List.mem_iterate.1 hx
      rw [iterate_nextSlot (by omega)]
      omega
    have hinside : ∀ x ∈ s'.frameSlots, l.frameSlotBase ≤ x ∧ x < l.allocLimit := by
      intro x hx
      obtain ⟨hlow, hhigh, hroom⟩ := hrange x hx
      exact ⟨hlow, hhigh.trans_le hroom⟩
    refine ⟨hinside, fun x hx hx' => ?_, fun x hx hx' => ?_, fun x hx hx' => ?_⟩
    · exact absurd (hinside x hx).2 (not_lt.2 (hcomputed.limit_recv x hx'))
    · exact absurd (hinside x hx).2 (not_lt.2 (hcomputed.limit_expand x hx'))
    · -- The start of the range has moved past the last slot.
      obtain ⟨hlow, hhigh, hroom⟩ := hrange x hx
      rw [if_pos (by omega)] at hbase
      rw [hleft, leaveLayout, iterate_nextSlot (by omega), hbase, if_pos (by omega)] at hx'
      have hle := hx'.1
      have hlt := hx'.2
      simp only at hle hlt
      split at hle <;> omega

end

/-! ## An executable with one library -/

/-- The archive with the library, and after it the dynamic table of an executable that needs it,
    and its name. -/
def exeArchive : File where
  bytes := (libArchive 0).bytes ++ wordBytes 8 dtNeeded ++ wordBytes 8 0 ++ wordBytes 16 0 ++
    [0x61, 0]
  length_lt := by decide +kernel

/-- The linker with the archive and the executable in memory, and its own header. -/
def exeState : State :=
  { startState 0x100000 exeArchive with
    given := fun a =>
      (Memory.ofFile 0x100000 exeArchive a).or (Memory.ofFile 0x200000 (libImage 0) a) }

/-- The object of the executable. -/
def exeMap : LinkMap := { dynSection := 0x100144, strtab := 0x100164, symEntSize := 24 }

/-- In a CNode of 4096 slots the one frame of the library is the linker's own. -/
theorem rtldMain_owned_iff_exe : ∃ l' s',
    (rtldMain .x86_64 0 archiveConfig (fun _ => .quiet) 0x200000 exeMap
      (computeCspaceLayout 12 64 .defaultService true)).run exeState = .ok l' s' ∧
    s'.frameSlots = [64] ∧ s'.libraryFrames archiveConfig = 1 ∧
    Owned (computeCspaceLayout 12 64 .defaultService true) l' s'.frameSlots := by
  have hwp : wp (rtldMain .x86_64 0 archiveConfig (fun _ => .quiet) 0x200000 exeMap
      (computeCspaceLayout 12 64 .defaultService true))
      (fun _ s' => s'.frameSlots = [64] ∧ s'.libraryFrames archiveConfig = 1)
      (fun _ _ => False) exeState := by decide +kernel
  obtain ⟨l', s', hrun, hslots, hframes⟩ := wp_exists_ok hwp
  refine ⟨l', s', hrun, hslots, hframes, (rtldMain_owned_iff rfl hrun rfl rfl).2 (.inr ?_)⟩
  rw [hframes]
  decide

/-- In a CNode of 2048 slots whose first 1008 are taken, the frame of the library is in the first
    slot for expansions. -/
theorem rtldMain_expansion_slot :
    wp (rtldMain .x86_64 0 archiveConfig (fun _ => .quiet) 0x200000 exeMap
        (computeCspaceLayout 11 1008 .defaultService true))
      (fun l' s' => s'.frameSlots = [1008] ∧
        1008 ∈ (computeCspaceLayout 11 1008 .defaultService true).expand ∧
        ¬Owned (computeCspaceLayout 11 1008 .defaultService true) l' s'.frameSlots)
      (fun _ _ => False) exeState := by
  have hwp : wp (rtldMain .x86_64 0 archiveConfig (fun _ => .quiet) 0x200000 exeMap
      (computeCspaceLayout 11 1008 .defaultService true)) (fun _ s' => s'.frameSlots = [1008])
      (fun _ _ => False) exeState := by decide +kernel
  have hexpand : 1008 ∈ (computeCspaceLayout 11 1008 .defaultService true).expand := by
    constructor <;> decide
  refine wp_post hwp fun _ s' hslots => ⟨hslots, hexpand, fun howned => ?_⟩
  exact howned.expand 1008 (hslots ▸ List.mem_singleton_self 1008) hexpand

end Rtld

end Trona
