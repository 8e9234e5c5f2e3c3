import Mathlib.Data.List.ReduceOption
import Trona.Rtld.Closure
import Trona.Rtld.Main

/-!
# The dynamic tables of the libraries

The loops of `rtld_main` read the names of the libraries from the dynamic tables in memory
(`Trona.Rtld.Main`), while libraries are mapped. If the tables of the objects are those of a graph,
and stay so where a library is loaded, then the loops load what they load for the graph, in the same
order (`loadLibraries_refines`).
-/

namespace Trona

namespace Rtld

/-! ## Names of objects -/

/-- The name in the archive of such a name is this name. -/
theorem makeCanonicalObjectName_idem {name n : List UInt8}
    (h : makeCanonicalObjectName name = some n) : makeCanonicalObjectName n = some n := by
  rw [makeCanonicalObjectName] at h
  split at h
  next hlib =>
    obtain ⟨hlen, h⟩ := Option.ite_none_right_eq_some.1 h
    obtain rfl := Option.some.inj h
    rw [makeCanonicalObjectName, if_pos hlib, if_pos hlen]
  next =>
    obtain ⟨hlen, h⟩ := Option.ite_none_left_eq_some.1 h
    obtain rfl := Option.some.inj h
    have hlib : initrdLibPrefix.isPrefixOf (initrdLibPrefix ++ name) = true :=
      List.isPrefixOf_iff_prefix.2 (List.prefix_append _ _)
    rw [makeCanonicalObjectName, if_pos hlib, if_pos]
    rw [List.length_append]
    omega

/-- The names of the objects. -/
def State.names (s : State) : List (List UInt8) := s.objects.map LinkMap.name

/-- The state has one more object, with this name in the archive. -/
def State.Adds (name : List UInt8) (s s' : State) : Prop :=
  s.objects.length < rtldMaxObjects ∧ ∃ map, s'.objects = s.objects ++ [map] ∧
    makeCanonicalObjectName name = some map.name

section

variable {cfg : Config} {env : Env} {s : State} {name : List UInt8} {a : ℕ}

/-- A library that is loaded is the last object, with its name in the archive. -/
theorem loadSharedLibrary_adds : wp (loadSharedLibrary cfg env name a)
    (fun _ s' => s.Adds name s') (fun _ _ => True) s := by
  have hadd : ∀ {n delta phs s₁}, s.objects.length < rtldMaxObjects →
      makeCanonicalObjectName name = some n → s₁.objects = s.objects →
      wp (addObject cfg n a delta phs) (fun _ s' => s.Adds name s') (fun _ _ => True) s₁ := by
    intro n delta phs s₁ hroom hname h₁
    refine wp_addObject (fun _ => trivial) trivial fun n' map hn' hmap => ?_
    -- The name is made canonical a second time.
    obtain rfl := Option.some.inj ((makeCanonicalObjectName_idem hname).symm.trans hn')
    exact ⟨hroom, map, congrArg (· ++ [map]) h₁, (libraryMap_name hmap).symm ▸ hname⟩
  refine wp_loadSharedLibrary (fun _ => trivial) (fun n hroom hname _ _ => ?_)
    fun n cpio hroom hname _ => ?_
  · refine wp_loadPremappedLibrary (fun _ => trivial) fun n' phs hn' _ => ?_
    obtain rfl := Option.some.inj ((makeCanonicalObjectName_idem hname).symm.trans hn')
    exact hadd hroom hname rfl
  · refine wp_loadFound (fun _ => trivial) (fun phs _ => wp_bind.2 ?_) fun _ _ =>
      hadd hroom hname rfl
    exact wp_returns (loadSegments_grows (P := fun _ _ => True) (fun _ _ _ _ _ _ _ => trivial) s)
      fun _ s₁ h₁ => hadd hroom hname h₁.objects

theorem loadNext_adds {env : ℕ → Env} :
    wp (loadNext cfg env name a) (fun _ s' => s.Adds name s') (fun _ _ => True) s := by
  rw [loadNext, wp_bind, wp_get, wp_bind]
  refine wp_post loadSharedLibrary_adds fun _ s' h => ?_
  rw [wp_bind, wp_get]
  exact wp_pure.2 h

end

/-! ## Tables -/

/-- The dynamic table at an address has these entries before its end: the name of a library that
    is needed, or something else. -/
def tableAt (m : Memory) (strtab : ℕ) : (dyn : ℕ) → List (Option (List UInt8)) → Bool
  | dyn, [] => (m.elf64Dyn dyn).any (·.dTag = dtNull)
  | dyn, entry :: entries =>
    ((m.elf64Dyn dyn).any fun d =>
      match entry with
      | none => d.dTag ≠ dtNull ∧ d.dTag ≠ dtNeeded
      | some name => d.dTag = dtNeeded ∧ m.cstr (2 ^ 64) (strtab + d.dVal) = some name) &&
    tableAt m strtab (dyn + 16) entries

/-- The tables of the objects in memory are those of a graph. -/
def Shows (g : DepGraph) (table : List UInt8 → List (Option (List UInt8))) (cfg : Config)
    (exe : LinkMap) (s : State) : Prop :=
  (if exe.dynSection ≠ 0 then
      tableAt (s.memory cfg) exe.strtab exe.dynSection (table executableName) = true
    else table executableName = []) ∧
  (∀ map ∈ s.objects.drop 1, if map.dynSection ≠ 0 ∧ map.strtab ≠ 0 then
      tableAt (s.memory cfg) map.strtab map.dynSection (table map.name) = true
    else table map.name = []) ∧
  ∀ n ∈ s.names, n = executableName ∨ (g.library n).isSome

instance {g table cfg exe} : DecidablePred (Shows g table cfg exe) :=
  fun _ => inferInstanceAs (Decidable (_ ∧ _))

/-- The tables are shown in some states, each with the address for the next library; and the
    linker stays in them where it loads a library that a table names. -/
structure Stays (g : DepGraph) (table : List UInt8 → List (Option (List UInt8))) (cfg : Config)
    (env : ℕ → Env) (exe : LinkMap) (I : State → ℕ → Prop) : Prop where
  shows : ∀ s a, I s a → Shows g table cfg exe s
  next : ∀ s a, I s a → ∀ n name, some name ∈ table n →
    wp (loadNext cfg env name a) (fun a' s' => I s' a') (fun _ _ => True) s

section

variable {g : DepGraph} {table : List UInt8 → List (Option (List UInt8))} {cfg : Config}
  {env : ℕ → Env} {exe : LinkMap} {I : State → ℕ → Prop} {s : State} {os : List LinkMap}
  {strtab dyn a fuel i : ℕ} {transitive : Bool} {entries : List (Option (List UInt8))}
  {name n : List UInt8}

theorem isSome_findLoadedObject :
    (findLoadedObject s.objects name).isSome = DepGraph.isLoaded s.names name := by
  rw [findLoadedObject, DepGraph.isLoaded]
  cases makeCanonicalObjectName name with
  | none => rfl
  | some n =>
    rw [Option.bind_some, Option.any_some, Bool.eq_iff_iff, List.find?_isSome, State.names]
    simp

variable (h : Stays g table cfg env exe I)

include h

/-- A library that is loaded is one that is loaded for the graph. -/
theorem loadNext_refines (hs : I s a) (hname : some name ∈ table n) :
    wp (loadNext cfg env name a)
      (fun a' s' => g.load s.names name = .ok s'.names ∧ I s' a' ∧ s.objects <+: s'.objects)
      (fun _ _ => True) s := by
  refine wp_returns (wp_and (h.next s a hs n name hname) loadNext_adds) fun a' s' hadds => ?_
  obtain ⟨hs', hroom, map, hobjects, hmap⟩ := hadds
  have hnames : s'.names = s.names ++ [map.name] := by
    rw [State.names, hobjects, List.map_append, List.map_singleton, State.names]
  have hlib : (g.library map.name).isSome :=
    ((h.shows s' a' hs').2.2 map.name (hnames ▸ List.mem_concat_self)).resolve_left
      (ne_executableName hmap)
  have hlen : ¬s.names.length ≥ rtldMaxObjects := by
    rw [State.names, List.length_map]
    omega
  refine ⟨?_, hs', hobjects ▸ List.prefix_append ..⟩
  simp only [DepGraph.load, hmap, if_neg hlen, if_pos hlib, hnames]

/-- The loop over a table in memory, which is there as long as the objects are, loads what the
    loop over its names does. -/
theorem loadNeeded_refines (hnames : ∀ name, some name ∈ entries → some name ∈ table n)
    (htable : ∀ s a, I s a → os <+: s.objects → tableAt (s.memory cfg) strtab dyn entries)
    (hs : I s a) (hos : os <+: s.objects) :
    wp (loadNeeded cfg env strtab transitive fuel dyn a)
      (fun a' s' => g.loadNeeded transitive s.names entries.reduceOption = .ok s'.names ∧ I s' a')
      (fun _ _ => True) s := by
  induction fuel generalizing dyn a entries s with
  | zero => exact wp_throw.2 trivial
  | succ fuel ih =>
    have hentry := htable s a hs hos
    rw [loadNeeded, wp_bind, wp_get]
    rcases entries with _ | ⟨entry, entries⟩
    · obtain ⟨d, hd, htag⟩ := (Option.any_eq_true ..).1 hentry
      simp only [hd, if_pos (of_decide_eq_true htag)]
      exact wp_pure.2 ⟨rfl, hs⟩
    -- The rest of the table is by induction.
    have hrest : ∀ {a₁ s₁}, I s₁ a₁ → os <+: s₁.objects →
        wp (loadNeeded cfg env strtab transitive fuel (dyn + 16) a₁)
          (fun a' s' => g.loadNeeded transitive s₁.names entries.reduceOption = .ok s'.names ∧
            I s' a') (fun _ _ => True) s₁ :=
      fun hs₁ hos₁ => ih (fun name hmem => hnames name (.tail _ hmem))
        (fun s a hs hos => (Bool.and_eq_true_iff.1 (htable s a hs hos)).2) hs₁ hos₁
    obtain ⟨d, hd, hentry⟩ := (Option.any_eq_true ..).1 (Bool.and_eq_true_iff.1 hentry).1
    rcases entry with _ | name
    · obtain ⟨hnull, hneeded⟩ := of_decide_eq_true hentry
      simp only [hd, if_neg hnull, if_pos hneeded, List.reduceOption_cons_of_none]
      exact hrest hs hos
    · obtain ⟨htag, hname⟩ := of_decide_eq_true hentry
      have hnull : d.dTag ≠ dtNull := htag ▸ (by decide)
      simp only [hd, hname, if_neg hnull, if_neg (not_not.2 htag),
        List.reduceOption_cons_of_some, DepGraph.loadNeeded, List.foldlM_cons,
        isSome_findLoadedObject, ← Bool.and_eq_true]
      refine wp_ite.2 ⟨fun hfound => wp_post (hrest hs hos) fun _ s' h' => ?_,
        fun hfound => wp_bind.2 (wp_post (loadNext_refines h hs (hnames name (.head _))) ?_)⟩
      · exact ⟨bind_eq_ok_iff.2 ⟨_, if_pos hfound, h'.1⟩, h'.2⟩
      · intro a₁ s₁ h₁
        refine wp_post (hrest h₁.2.1 (hos.trans h₁.2.2)) fun _ s' h' => ?_
        exact ⟨bind_eq_ok_iff.2 ⟨_, (if_neg hfound).trans h₁.1, h'.1⟩, h'.2⟩

/-- The loop over the objects loads what the loop over the graph does. -/
theorem loadTransitive_refines (hneededBy : ∀ n, g.neededBy n = (table n).reduceOption)
    (hi : 1 ≤ i) (hs : I s a) :
    wp (loadTransitive cfg env fuel i a)
      (fun _ s' => g.loadTransitive fuel i s.names = .ok s'.names) (fun _ _ => True) s := by
  induction fuel generalizing i a s with
  | zero => exact wp_pure.2 rfl
  | succ fuel ih =>
    rw [loadTransitive, wp_bind, wp_get]
    have hget : s.names[i]? = s.objects[i]?.map LinkMap.name := List.getElem?_map ..
    cases hmap : s.objects[i]? with
    | none =>
      rw [hmap] at hget
      exact wp_pure.2 (by rw [DepGraph.loadTransitive, hget]; rfl)
    | some map =>
      rw [hmap] at hget
      have hmem : ∀ s' : State, s.objects <+: s'.objects → map ∈ s'.objects.drop 1 := by
        intro s' hkept
        obtain ⟨hlt, rfl⟩ := List.getElem?_eq_some_iff.1 hmap
        rw [hkept.getElem hlt]
        have hle := hkept.length_le
        exact List.mem_drop_iff_getElem.2 ⟨i - 1, by omega, by congr 1; omega⟩
      have htable : ∀ s' a, I s' a → s.objects <+: s'.objects → _ := fun s' a hs' hkept =>
        (h.shows s' a hs').2.1 map (hmem s' hkept)
      -- What the object needs is loaded, and the objects after it are by induction.
      have hrest : ∀ {a₁ s₁}, I s₁ a₁ →
          g.loadNeeded true s.names (g.neededBy map.name) = .ok s₁.names →
          wp (loadTransitive cfg env fuel (i + 1) a₁)
            (fun _ s' => g.loadTransitive (fuel + 1) i s.names = .ok s'.names)
            (fun _ _ => True) s₁ := by
        intro a₁ s₁ hs₁ h₁
        refine wp_post (ih (by omega) hs₁) fun _ s' h => ?_
        rw [DepGraph.loadTransitive, hget]
        exact bind_eq_ok_iff.2 ⟨_, h₁, h⟩
      refine wp_ite.2 ⟨fun hdyn => wp_bind.2 ?_, fun hdyn => hrest hs ?_⟩
      · simp only [if_pos hdyn] at htable
        exact wp_post (loadNeeded_refines h (fun _ => id) htable hs (List.prefix_refl _))
          fun a₁ s₁ h₁ => hrest h₁.2 (hneededBy map.name ▸ h₁.1)
      · have hnil := htable s a hs (List.prefix_refl _)
        rw [if_neg hdyn] at hnil
        rw [hneededBy, hnil]
        rfl

/-- If the tables in memory are those of a graph and stay so, then the linker loads the libraries of
    the graph, in the same order. -/
theorem loadLibraries_refines (hneeded : g.needed = (table executableName).reduceOption)
    (hneededBy : ∀ n, g.neededBy n = (table n).reduceOption) (hs : I s a)
    (hstart : s.names = [executableName]) :
    wp (do
        let next ← loadDirect cfg env exe a
        loadTransitive cfg env (rtldMaxObjects + 1) 1 next)
      (fun _ s' => g.loadAll = .ok s'.names) (fun _ _ => True) s := by
  have htable : ∀ s a, I s a → [] <+: s.objects → _ := fun s a hs _ => (h.shows s a hs).1
  have hrest : ∀ {a₁ s₁}, I s₁ a₁ → g.loadNeeded false [executableName] g.needed = .ok s₁.names →
      wp (loadTransitive cfg env (rtldMaxObjects + 1) 1 a₁)
        (fun _ s' => g.loadAll = .ok s'.names) (fun _ _ => True) s₁ := by
    intro a₁ s₁ hs₁ h₁
    refine wp_post (loadTransitive_refines h hneededBy le_rfl hs₁) fun _ s' h => ?_
    exact bind_eq_ok_iff.2 ⟨_, h₁, h⟩
  rw [wp_bind]
  refine wp_ite.2 ⟨fun hdyn => ?_, fun hdyn => wp_pure.2 (hrest hs ?_)⟩
  · simp only [if_pos hdyn] at htable
    refine wp_post (loadNeeded_refines h (fun _ => id) htable hs List.nil_prefix)
      fun a₁ s₁ h₁ => hrest h₁.2 ?_
    rw [← hstart, hneeded]
    exact h₁.1
  · have hnil := htable s a hs List.nil_prefix
    rw [if_neg hdyn] at hnil
    rw [hneeded, hnil, hstart]
    rfl

end

/-- The tables of an executable that needs a library, and of the library. -/
def exeTable (n : List UInt8) : List (Option (List UInt8)) :=
  if n = executableName then [some [0x61]] else []

/-- The graph of the tables. -/
def exeGraph : DepGraph := ⟨[[0x61]], fun n => some { needed := (exeTable n).reduceOption }⟩

/-- A kernel with one frame for a library. -/
def oneFrame (objects : ℕ) : Env := { Env.quiet with retype := fun _ _ => objects - 1 }

/-- The linker with the object of the executable. -/
def exeStart : State := { exeState with objects := [{ exeMap with name := executableName }] }

theorem loadLibraries_refines_exe : wp (do
      let next ← loadDirect archiveConfig oneFrame exeMap 0x202000
      loadTransitive archiveConfig oneFrame (rtldMaxObjects + 1) 1 next)
    (fun _ s' => exeGraph.loadAll = .ok s'.names) (fun _ _ => True) exeStart := by
  have hwp : Shows exeGraph exeTable archiveConfig exeMap exeStart ∧
      wp (loadNext archiveConfig oneFrame [0x61] 0x202000)
        (fun a s => Shows exeGraph exeTable archiveConfig exeMap s ∧
          wp (loadNext archiveConfig oneFrame [0x61] a) (fun _ _ => False) (fun _ _ => True) s)
        (fun _ _ => False) exeStart := by decide +kernel
  obtain ⟨hshows, hwp⟩ := hwp
  obtain ⟨a₁, s₁, hrun, hshows₁, hstop⟩ := wp_exists_ok hwp
  have hstays : Stays exeGraph exeTable archiveConfig oneFrame exeMap fun s a =>
      s = exeStart ∧ a = 0x202000 ∨ s = s₁ ∧ a = a₁ := by
    refine ⟨?_, fun s a hs n name hname => ?_⟩
    · rintro s a (⟨rfl, -⟩ | ⟨rfl, -⟩)
      exacts [hshows, hshows₁]
    · obtain rfl : name = [0x61] := by
        rw [exeTable] at hname
        split at hname <;> simp_all
      rcases hs with ⟨rfl, rfl⟩ | ⟨rfl, rfl⟩
      · exact (wp_iff_of_ok hrun).2 (.inr ⟨rfl, rfl⟩)
      · exact wp_post hstop fun _ _ h => h.elim
  exact loadLibraries_refines hstays rfl (fun _ => rfl) (.inl ⟨rfl, rfl⟩) rfl

end Rtld

end Trona
