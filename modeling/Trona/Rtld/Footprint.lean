import Mathlib.Algebra.BigOperators.Group.List.Basic
import Mathlib.Data.List.Forall2
import Trona.Rtld.Main

/-!
# The footprints of libraries

Without a parent that maps libraries, `rtld_main` (`rtld/elf/rtld_main.c`) loads the first
library a page after its own image, and every other one a page after the footprint that it
has noted for the last.

* However the two loops of the linker run, they load libraries one after the other
  (`LoadChain`), each at the address after the last (`loadLibraries_chain`).
* If the sizes of the libraries fit the address space, then the footprint that is noted for a
  library is that of its pages (`loadFootprint_eq_libSize`), the footprints are one above the
  other, and all are above the linker (`loadLibraries_footprints`).
-/

namespace Trona

namespace Rtld

/-! ## Libraries, one after the other -/

/-- The program headers of the library that a name stands for. -/
def libraryPhdrs (cfg : Config) (m : Memory) (name : List UInt8) : List Elf64Phdr :=
  match makeCanonicalObjectName name with
  | none => []
  | some objectName =>
    match cpioFind m cfg.initrdBase cfg.initrdSize objectName with
    | some (some cpio) => (libPhdrs m cpio.data (-4) (-5)).toOption.getD []
    | _ => []

theorem libraryPhdrs_eq {cfg : Config} {m : Memory} {name objectName : List UInt8}
    {cpio : CpioEntry} {phs : List Elf64Phdr}
    (hname : makeCanonicalObjectName name = some objectName)
    (hfind : cpioFind m cfg.initrdBase cfg.initrdSize objectName = some (some cpio))
    (hphs : libPhdrs m cpio.data (-4) (-5) = .ok phs) : libraryPhdrs cfg m name = phs := by
  simp only [libraryPhdrs, hname, hfind, hphs]
  rfl

/-- A library that was loaded, with the state of the linker before and after. -/
structure LibLoad where
  name : List UInt8
  before : State
  after : State

/-- The program headers of a library that was loaded. -/
def LibLoad.phs (cfg : Config) (l : LibLoad) : List Elf64Phdr :=
  libraryPhdrs cfg (l.before.memory cfg) l.name

/-- Where the next library goes, when the last one is at `loadAddr`. -/
def nextLoadAddr (loadAddr : ℕ) (s : State) : ℕ :=
  let size := (s.objects.getLast?.map LinkMap.loadSize).getD 0
  (loadAddr + (if size = 0 then 0x80000 else size) + pageSize) % 2 ^ 64

/-- From the state `s`, with `a` for the first library, the linker has loaded libraries one
    after the other, and comes to a state and an address for the next. -/
inductive LoadChain (cfg : Config) (s : State) (a : ℕ) : List LibLoad → State → ℕ → Prop
  | nil : LoadChain cfg s a [] s a
  | load {ls : List LibLoad} {s₁ s₂ : State} {a₁ : ℕ} (h : LoadChain cfg s a ls s₁ a₁)
      (env : Env) (name : List UInt8)
      (hrun : (loadSharedLibrary cfg env name a₁).run s₁ = .ok ⟨⟩ s₂) :
      LoadChain cfg s a (ls ++ [⟨name, s₁, s₂⟩]) s₂ (nextLoadAddr a₁ s₂)

/-- The libraries `ls` are the objects of the linker, apart from those it had. -/
def Loaded (cfg : Config) (s : State) (a : ℕ) (ls : List LibLoad) (s' : State) : Prop :=
  ∃ s₁ a₁, LoadChain cfg s a ls s₁ a₁ ∧ s'.objects = s₁.objects

section

variable {cfg : Config} {env : ℕ → Env} {s s' s₁ : State} {a a₁ : ℕ} {ls : List LibLoad}
  {name : List UInt8}

theorem LoadChain.loaded (h : LoadChain cfg s a ls s₁ a₁) : Loaded cfg s a ls s₁ :=
  ⟨s₁, a₁, h, rfl⟩

theorem addObject_stop {objectName : List UInt8} {delta : ℕ} {phs : List Elf64Phdr} :
    wp (addObject cfg objectName a delta phs) (fun _ _ => True)
      (fun _ s' => s'.objects = s.objects) s := by
  exact wp_addObject (fun _ => rfl) rfl fun _ _ _ _ => trivial

/-- A load that fails adds no object. -/
theorem loadSharedLibrary_stop {env : Env} : wp (loadSharedLibrary cfg env name a)
    (fun _ _ => True) (fun _ s' => s'.objects = s.objects) s := by
  refine wp_loadSharedLibrary (fun _ => rfl) (fun n _ _ _ _ => ?_) fun n cpio _ _ _ => ?_
  · exact wp_loadPremappedLibrary (fun _ => rfl) fun _ _ _ _ => addObject_stop
  · refine wp_loadFound (fun _ => rfl) (fun phs _ => wp_bind.2 ?_) fun _ _ => addObject_stop
    refine wp_mono (loadSegments_grows (P := fun _ _ => True) (fun _ _ _ _ _ _ _ => trivial) s)
      (fun _ s₁ h₁ => ?_) fun _ s₁ h₁ => h₁.objects
    rw [← h₁.objects]
    exact addObject_stop

section

variable (h : LoadChain cfg s a ls s₁ a₁)

include h

/-- One more library is loaded. -/
theorem LoadChain.loadNext :
    wp (loadNext cfg env name a₁) (fun a₂ s₂ => ∃ ls, LoadChain cfg s a ls s₂ a₂)
      (fun _ s' => ∃ ls, Loaded cfg s a ls s') s₁ := by
  rw [Rtld.loadNext, wp_bind, wp_get, wp_bind]
  cases hrun : (loadSharedLibrary cfg (env s₁.objects.length) name a₁).run s₁ with
  | ok u s₂ =>
    rw [wp_iff_of_ok hrun, wp_bind, wp_get]
    exact wp_pure.2 ⟨_, h.load _ name hrun⟩
  | error e s₂ =>
    have hstop := (wp_iff_of_error hrun).1 loadSharedLibrary_stop
    rw [wp_iff_of_error hrun]
    exact ⟨ls, s₁, a₁, h, hstop⟩

/-- The loop over a dynamic table loads libraries one after the other. -/
theorem LoadChain.loadNeeded {strtab : ℕ} {transitive : Bool} {fuel dyn : ℕ} :
    wp (loadNeeded cfg env strtab transitive fuel dyn a₁)
      (fun a₂ s₂ => ∃ ls, LoadChain cfg s a ls s₂ a₂) (fun _ s' => ∃ ls, Loaded cfg s a ls s')
      s₁ := by
  induction fuel generalizing dyn a₁ s₁ ls with
  | zero => exact wp_throw.2 ⟨ls, h.loaded⟩
  | succ fuel ih =>
    rw [Rtld.loadNeeded, wp_bind, wp_get]
    split
    · exact wp_throw.2 ⟨ls, h.loaded⟩
    · refine wp_ite.2 ⟨fun _ => wp_pure.2 ⟨ls, h⟩, fun _ => wp_ite.2 ⟨fun _ => ih h, fun _ => ?_⟩⟩
      split
      · exact wp_throw.2 ⟨ls, h.loaded⟩
      · refine wp_ite.2 ⟨fun _ => ih h, fun _ => wp_bind.2 ?_⟩
        refine wp_post h.loadNext fun a₂ s₂ h₂ => ?_
        obtain ⟨ls₂, h₂⟩ := h₂
        exact ih h₂

/-- The loop over the objects loads libraries one after the other. -/
theorem LoadChain.loadTransitive {fuel processed : ℕ} :
    wp (loadTransitive cfg env fuel processed a₁) (fun _ s' => ∃ ls, Loaded cfg s a ls s')
      (fun _ s' => ∃ ls, Loaded cfg s a ls s') s₁ := by
  induction fuel generalizing processed a₁ s₁ ls with
  | zero => exact wp_pure.2 ⟨ls, h.loaded⟩
  | succ fuel ih =>
    rw [Rtld.loadTransitive, wp_bind, wp_get]
    split
    · exact wp_pure.2 ⟨ls, h.loaded⟩
    · refine wp_ite.2 ⟨fun _ => wp_bind.2 ?_, fun _ => ih h⟩
      refine wp_post h.loadNeeded fun a₂ s₂ h₂ => ?_
      obtain ⟨ls₂, h₂⟩ := h₂
      exact ih h₂

end

/-- However the two loops end, they have loaded libraries one after the other, from the first
    address on. -/
theorem loadLibraries_chain {exe : LinkMap} :
    wp (do
        let next ← loadDirect cfg env exe a
        loadTransitive cfg env (rtldMaxObjects + 1) 1 next)
      (fun _ s' => ∃ ls, Loaded cfg s a ls s') (fun _ s' => ∃ ls, Loaded cfg s a ls s') s := by
  rw [wp_bind]
  refine wp_ite.2 ⟨fun _ => ?_, fun _ => wp_pure.2 LoadChain.nil.loadTransitive⟩
  refine wp_post LoadChain.nil.loadNeeded fun a₁ s₁ h₁ => ?_
  obtain ⟨ls, h₁⟩ := h₁
  exact h₁.loadTransitive

end

/-! ## Sizes -/

/-- The size of the pages of a library, from the least address of a segment on. -/
def libSize (phs : List Elf64Phdr) : ℕ :=
  foldMax (fun ph => (ph.pVaddr - minVaddr phs + ph.pMemsz + 4095) / 4096 * 4096) 0
    (phs.filter Elf64Phdr.isLoad)

/-- How far the address for the next library is from that of a library: its size and a page.
    A library without a size gets a fixed one. -/
def libStride (phs : List Elf64Phdr) : ℕ :=
  (if libSize phs = 0 then 0x80000 else libSize phs) + pageSize

/-- The space that libraries take together. -/
def totalStride (cfg : Config) (ls : List LibLoad) : ℕ :=
  (ls.map fun l => libStride (l.phs cfg)).sum

theorem totalStride_concat (cfg : Config) (ls : List LibLoad) (l : LibLoad) :
    totalStride cfg (ls ++ [l]) = totalStride cfg ls + libStride (l.phs cfg) := by
  rw [totalStride, List.map_append, List.sum_append, List.map_singleton, List.sum_singleton,
    totalStride]

section

variable {phs : List Elf64Phdr} {ph : Elf64Phdr} {a v : ℕ} (halign : a % 4096 = 0)
  (hfits : a + libSize phs + 4096 ≤ 2 ^ 64)

theorem le_libSize (hph : ph ∈ phs) (hl : ph.isLoad = true) :
    (ph.pVaddr - minVaddr phs + ph.pMemsz + 4095) / 4096 * 4096 ≤ libSize phs :=
  le_foldMax (g := fun ph : Elf64Phdr =>
    (ph.pVaddr - minVaddr phs + ph.pMemsz + 4095) / 4096 * 4096) (List.mem_filter.2 ⟨hph, hl⟩)

include hfits

/-- A segment is as far above the load address as it is above the least address. -/
theorem segVaddr_libDelta (hph : ph ∈ phs) (hl : ph.isLoad = true) :
    ph.segVaddr (libDelta a phs) = a + (ph.pVaddr - minVaddr phs) := by
  have hsize := le_libSize hph hl
  have hmin := minVaddr_le hph hl
  have hlt := ph.pVaddr_lt
  rw [Elf64Phdr.segVaddr, libDelta, wsub]
  omega

include halign

theorem segEnd_libDelta (hph : ph ∈ phs) (hl : ph.isLoad = true) :
    ph.segEnd (libDelta a phs) =
      a + (ph.pVaddr - minVaddr phs + ph.pMemsz + 4095) / 4096 * 4096 := by
  have hsize := le_libSize hph hl
  rw [Elf64Phdr.segEnd, segVaddr_libDelta hfits hph hl, pageAlignUp_eq]
  omega

/-- The pages of a segment are between the load address and the size of the library. -/
theorem page_libDelta (hph : ph ∈ phs) (hl : ph.isLoad = true)
    (hv : v ∈ ph.segPages (libDelta a phs)) : a ≤ v ∧ v + pageSize ≤ a + libSize phs := by
  obtain ⟨hpage, hlo, hhi⟩ := Elf64Phdr.mem_segPages.1 hv
  have hsize := le_libSize hph hl
  rw [ph.segStart_eq, segVaddr_libDelta hfits hph hl] at hlo
  rw [segEnd_libDelta halign hfits hph hl] at hhi
  rw [pageSize]
  omega

/-- The footprint that the linker notes for a library is the size of its pages. -/
theorem loadFootprint_eq_libSize : loadFootprint phs (libDelta a phs) a = libSize phs := by
  have hsub : loadFootprint phs (libDelta a phs) a = elfBrk phs (libDelta a phs) - a := by
    rw [loadFootprint]
    split <;> omega
  rw [hsub]
  refine le_antisymm (Nat.sub_le_of_le_add (foldMax_le.2 ⟨Nat.zero_le _, fun ph hph => ?_⟩))
    (foldMax_le.2 ⟨Nat.zero_le _, fun ph hph => ?_⟩)
  · obtain ⟨hph, hl⟩ := List.mem_filter.1 hph
    have hle := le_libSize hph hl
    rw [segEnd_libDelta halign hfits hph hl]
    omega
  · obtain ⟨hph, hl⟩ := List.mem_filter.1 hph
    have hle := segEnd_le_elfBrk hph hl (libDelta a phs)
    rw [segEnd_libDelta halign hfits hph hl] at hle
    omega

end

theorem libSize_aligned (phs : List Elf64Phdr) : libSize phs % 4096 = 0 := by
  refine foldMax_induction (P := fun m => m % 4096 = 0) rfl fun ph _ => ?_
  omega

theorem libStride_aligned (phs : List Elf64Phdr) : libStride phs % 4096 = 0 := by
  have hsize := libSize_aligned phs
  rw [libStride, pageSize]
  split <;> omega

theorem totalStride_aligned (cfg : Config) (ls : List LibLoad) :
    totalStride cfg ls % 4096 = 0 := by
  induction ls using List.reverseRecOn with
  | nil => rfl
  | append_singleton ls l ih =>
    have hlast := libStride_aligned (l.phs cfg)
    rw [totalStride_concat]
    omega

/-! ## Footprints -/

/-- Every page that the linker has mapped for a library is in the footprint of its object. -/
def InFootprint (l : LibLoad) (map : LinkMap) : Prop :=
  Asks (fun v _ => map.base ≤ v ∧ v + pageSize ≤ map.base + map.loadSize) l.before l.after

/-- The objects `maps` are those of the libraries `ls`, with footprints one above the other,
    from the address `a` on. -/
structure Footprints (a : ℕ) (ls : List LibLoad) (maps : List LinkMap) : Prop where
  pages : List.Forall₂ InFootprint ls maps
  apart : maps.Pairwise fun map map' => map.base + map.loadSize ≤ map'.base
  above : ∀ map ∈ maps, a ≤ map.base ∧ map.base + map.loadSize < 2 ^ 64

section

variable {cfg : Config} {s s' s₁ : State} {a a₁ : ℕ} {ls : List LibLoad} {name : List UInt8}

/-- A library that is loaded without the parent is in the archive, and is the last object. -/
theorem loadSharedLibrary_loads {env : Env} (hself : cfg.sharedLibBase = 0) :
    wp (loadSharedLibrary cfg env name a) (fun _ s' => ∃ map, s'.objects = s.objects ++ [map] ∧
      map.base = a ∧
      Asks (SegmentPage (libraryPhdrs cfg (s.memory cfg) name)
        (libDelta a (libraryPhdrs cfg (s.memory cfg) name))) s s' ∧
      map.loadSize = loadFootprint (libraryPhdrs cfg (s.memory cfg) name)
        (libDelta a (libraryPhdrs cfg (s.memory cfg) name)) a) (fun _ _ => True) s := by
  have hparent : ¬cfg.IsPremapped a := fun h => h.1 hself
  refine wp_loadSharedLibrary (fun _ => trivial) (fun _ _ _ _ h => absurd h hparent)
    fun n cpio _ hname hfind => ?_
  cases hphs : libPhdrs (s.memory cfg) cpio.data (-4) (-5) with
  | error e =>
    refine wp_loadFound (fun _ => trivial) (fun phs hok => ?_) fun phs hok => ?_
    · cases hphs.symm.trans hok
    · cases hphs.symm.trans hok
  | ok phs =>
    rw [libraryPhdrs_eq hname hfind hphs]
    refine wp_post (loadFound_spec hphs) fun _ s' h => ?_
    obtain ⟨hasks, map, hobjects, hmap⟩ := h
    exact ⟨map, hobjects, hmap.base_eq, hasks, hmap.loadSize_eq⟩

/-- The libraries that are loaded from an address on have their footprints one above the other,
    up to the address for the next, if they fit the address space. -/
theorem LoadChain.footprints (h : LoadChain cfg s a ls s' a₁) (hself : cfg.sharedLibBase = 0)
    (halign : a % 4096 = 0) (hfits : a + totalStride cfg ls < 2 ^ 64) :
    a₁ = a + totalStride cfg ls ∧ ∃ maps, s'.objects = s.objects ++ maps ∧ Footprints a ls maps ∧
      ∀ map ∈ maps, map.base + map.loadSize ≤ a₁ := by
  induction h with
  | nil =>
    exact ⟨rfl, [], (List.append_nil _).symm, ⟨.nil, .nil, by simp⟩, by simp⟩
  | @load ls s₁ s₂ a₁ h env name hrun ih =>
    rw [totalStride_concat] at hfits ⊢
    obtain ⟨ha₁, maps, hobjects, hprints, hbelow⟩ := ih (by omega)
    obtain ⟨map, hobjects₂, hbase, hasks, hsize⟩ := wp_ok (loadSharedLibrary_loads hself) hrun
    -- The library is at an address where all of it fits.
    generalize hphs : libraryPhdrs cfg (s₁.memory cfg) name = phs at hasks hsize
    have hstride : libStride (LibLoad.phs cfg ⟨name, s₁, s₂⟩) = libStride phs := by
      rw [← hphs, LibLoad.phs]
    have htotal := totalStride_aligned cfg ls
    have halign₁ : a₁ % 4096 = 0 := by omega
    have hroom : libSize phs + 4096 ≤ libStride phs := by
      rw [libStride, pageSize]
      split <;> omega
    have hfits₁ : a₁ + libSize phs + 4096 ≤ 2 ^ 64 := by omega
    rw [loadFootprint_eq_libSize halign₁ hfits₁] at hsize
    have hnext : nextLoadAddr a₁ s₂ = a₁ + libStride phs := by
      rw [nextLoadAddr, hobjects₂, List.getLast?_concat, Option.map_some, Option.getD_some, hsize,
        Nat.add_assoc, ← libStride, Nat.mod_eq_of_lt (by omega)]
    refine ⟨by omega, maps ++ [map], by rw [hobjects₂, hobjects, List.append_assoc],
      ⟨?_, ?_, ?_⟩, ?_⟩
    · refine List.rel_append hprints.pages (.cons ?_ .nil)
      refine hasks.mono fun v _ hpage => ?_
      obtain ⟨ph, hph, hl, hv⟩ := hpage
      rw [hbase, hsize]
      exact page_libDelta halign₁ hfits₁ hph hl hv
    · refine List.pairwise_append.2 ⟨hprints.apart, List.pairwise_singleton _ _, ?_⟩
      intro m hm m' hm'
      obtain rfl := List.mem_singleton.1 hm'
      rw [hbase]
      exact hbelow m hm
    · intro m hm
      rcases List.mem_append.1 hm with hm | hm
      · exact hprints.above m hm
      · obtain rfl := List.mem_singleton.1 hm
        omega
    · intro m hm
      rw [hnext]
      rcases List.mem_append.1 hm with hm | hm
      · exact (hbelow m hm).trans (Nat.le_add_right _ _)
      · obtain rfl := List.mem_singleton.1 hm
        omega

/-! ## Above the linker -/

/-- The end of the linker's own image, as it is found from its program headers. -/
def rtldEnd (rtldBase : ℕ) (phs : List Elf64Phdr) : ℕ :=
  if elfBrk phs (wsub rtldBase (minVaddr phs)) = 0 then rtldBase + 0x80000
  else elfBrk phs (wsub rtldBase (minVaddr phs))

variable {rtldBase first : ℕ} {ehdr : Elf64Ehdr} {phs : List Elf64Phdr}

theorem firstLoadAddr_eq (hself : cfg.sharedLibBase = 0)
    (hehdr : (s.memory cfg).elf64Ehdr rtldBase = some ehdr)
    (hphs : phdrsAt (s.memory cfg) (rtldBase + ehdr.ePhoff) ehdr.ePhnum 0 = some phs) :
    firstLoadAddr cfg rtldBase (s.memory cfg) =
      some ((rtldEnd rtldBase phs + pageSize) % 2 ^ 64) := by
  rw [firstLoadAddr, if_neg (not_not.2 hself), hehdr, Option.bind_some, hphs, Option.map_some,
    rtldEnd]

theorem rtldEnd_aligned (halign : rtldBase % 4096 = 0) : rtldEnd rtldBase phs % 4096 = 0 := by
  have hbrk : elfBrk phs (wsub rtldBase (minVaddr phs)) % 4096 = 0 :=
    foldMax_induction (P := fun m => m % 4096 = 0) rfl fun ph _ => ph.segEnd_aligned _
  rw [rtldEnd]
  split <;> omega

/-- The pages of the linker's segments are below the end of its image. -/
theorem page_le_rtldEnd {ph : Elf64Phdr} (hph : ph ∈ phs) (hl : ph.isLoad = true) {v : ℕ}
    (hv : v ∈ ph.segPages (wsub rtldBase (minVaddr phs))) :
    v + pageSize ≤ rtldEnd rtldBase phs := by
  obtain ⟨hpage, -, hhi⟩ := Elf64Phdr.mem_segPages.1 hv
  have hend := ph.segEnd_aligned (wsub rtldBase (minVaddr phs))
  have hbrk := segEnd_le_elfBrk hph hl (wsub rtldBase (minVaddr phs))
  rw [rtldEnd, if_neg (by omega), pageSize]
  omega

/-- The linker maps its libraries itself, and its program headers are in memory. For every
    executable and every graph of libraries, whatever the kernel answers and however the two
    loops end, the libraries that are objects were loaded one after the other. If together they
    fit the address space above the linker, then

    * every page that was mapped for a library is in the footprint of its object,
    * the footprints are one above the other, and
    * the pages of the linker's own segments are below all of them. -/
theorem loadLibraries_footprints {env : ℕ → Env} {exe : LinkMap} (hself : cfg.sharedLibBase = 0)
    (halign : rtldBase % pageSize = 0)
    (hehdr : (s.memory cfg).elf64Ehdr rtldBase = some ehdr)
    (hphs : phdrsAt (s.memory cfg) (rtldBase + ehdr.ePhoff) ehdr.ePhnum 0 = some phs)
    (hfirst : firstLoadAddr cfg rtldBase (s.memory cfg) = some first) :
    wp (do
        let next ← loadDirect cfg env exe first
        loadTransitive cfg env (rtldMaxObjects + 1) 1 next)
      (fun _ s' => ∃ ls, Loaded cfg s first ls s') (fun _ s' => ∃ ls, Loaded cfg s first ls s') s ∧
    ∀ ls s', Loaded cfg s first ls s' →
      rtldEnd rtldBase phs + pageSize + totalStride cfg ls < 2 ^ 64 →
      ∃ maps, s'.objects = s.objects ++ maps ∧ List.Forall₂ InFootprint ls maps ∧
        (maps.Pairwise fun map map' => map.base + map.loadSize ≤ map'.base) ∧
        ∀ map ∈ maps, map.base + map.loadSize < 2 ^ 64 ∧
          ∀ ph ∈ phs, ph.isLoad = true →
            ∀ v ∈ ph.segPages (wsub rtldBase (minVaddr phs)), v + pageSize ≤ map.base := by
  refine ⟨loadLibraries_chain, fun ls s' hloaded hfits => ?_⟩
  obtain ⟨s₁, a₁, hchain, hobjects⟩ := hloaded
  have hrtld : rtldEnd rtldBase phs % 4096 = 0 := rtldEnd_aligned halign
  obtain rfl : rtldEnd rtldBase phs + pageSize = first := by
    rw [firstLoadAddr_eq hself hehdr hphs, Nat.mod_eq_of_lt (by omega)] at hfirst
    exact Option.some.inj hfirst
  obtain ⟨-, maps, hmaps, hprints, -⟩ := hchain.footprints hself (by rw [pageSize]; omega) hfits
  -- The first library is a page above the end of the linker.
  refine ⟨maps, hobjects.trans hmaps, hprints.pages, hprints.apart, fun map hmap => ?_⟩
  obtain ⟨hbase, hlt⟩ := hprints.above map hmap
  refine ⟨hlt, fun ph hph hl v hv => ?_⟩
  exact (page_le_rtldEnd hph hl hv).trans ((Nat.le_add_right _ _).trans hbase)

end

/-- The archive with the library, and after it the dynamic table of an executable that needs it
    twice, and its name. -/
def twiceArchive : File where
  bytes := (libArchive 0).bytes ++ wordBytes 8 dtNeeded ++ wordBytes 8 0 ++ wordBytes 8 dtNeeded ++
    wordBytes 8 0 ++ wordBytes 16 0 ++ [0x61, 0]
  length_lt := by decide +kernel

/-- The linker with the archive and the executable in memory, and its own header. -/
def twiceState : State :=
  { startState 0x100000 twiceArchive with
    given := fun a =>
      (Memory.ofFile 0x100000 twiceArchive a).or (Memory.ofFile 0x200000 (libImage 0) a) }

/-- The executable needs the library twice. It is loaded twice, and the two images are apart. -/
theorem loadLibraries_footprints_twice : ∃ ls s',
    Loaded archiveConfig twiceState 0x202000 ls s' ∧ ls.length = 2 ∧
    ∃ maps, s'.objects = twiceState.objects ++ maps ∧
      maps.Pairwise fun map map' => map.base + map.loadSize ≤ map'.base := by
  have hwp : wp (loadSharedLibrary archiveConfig .quiet [0x61] 0x202000)
      (fun _ s₁ => nextLoadAddr 0x202000 s₁ = 0x204000 ∧
        wp (loadSharedLibrary archiveConfig .quiet [0x61] 0x204000)
          (fun _ s₂ => 0x201000 + 4096 + totalStride archiveConfig
            [⟨[0x61], twiceState, s₁⟩, ⟨[0x61], s₁, s₂⟩] < 2 ^ 64) (fun _ _ => False) s₁)
      (fun _ _ => False) twiceState := by decide +kernel
  obtain ⟨_, s₁, hrun₁, hnext, hwp₁⟩ := wp_exists_ok hwp
  obtain ⟨_, s₂, hrun₂, hfits⟩ := wp_exists_ok hwp₁
  rw [← hnext] at hrun₂
  have hchain := (LoadChain.nil.load .quiet [0x61] hrun₁).load .quiet [0x61] hrun₂
  have hsome : (((twiceState.memory archiveConfig).elf64Ehdr 0x200000).bind fun ehdr =>
      (phdrsAt (twiceState.memory archiveConfig) (0x200000 + ehdr.ePhoff) ehdr.ePhnum 0).map
        (rtldEnd 0x200000)) = some 0x201000 := by decide +kernel
  obtain ⟨ehdr, hehdr, hmap⟩ := Option.bind_eq_some_iff.1 hsome
  obtain ⟨phs, hphs, hend⟩ := Option.map_eq_some_iff.1 hmap
  obtain ⟨-, hapart⟩ := @loadLibraries_footprints archiveConfig twiceState 0x200000 0x202000 ehdr
    phs (fun _ => .quiet) exeMap rfl rfl hehdr hphs (by decide +kernel)
  obtain ⟨maps, hobjects, -, hpairs, -⟩ := hapart _ s₂ hchain.loaded (by rw [hend]; exact hfits)
  exact ⟨_, s₂, hchain.loaded, rfl, maps, hobjects, hpairs⟩

end Rtld

end Trona
