import Mathlib.Data.Set.Card
import Mathlib.Logic.Relation
import Trona.Lib.Scan
import Trona.Rtld.Library

/-!
# The libraries of a program

`rtld_main` (`rtld/elf/rtld_main.c`) first loads the libraries that the dynamic table of the
executable names, and then those that the tables of the loaded libraries name, in the order of the
object array, which grows meanwhile. At its end it calls the constructors of the libraries, in the
order of the array.

Here a library is what these loops see of it: the names in its dynamic table, and its
constructors (`DepGraph`). Of the objects only the names are kept; how a library is mapped is in
`Trona.Rtld.Library`, and that the loops over the tables in memory go through these lists of names
is in `Trona.Rtld.Needed`.

* The array is the breadth-first order of the graph (`DepGraph.loadAll_eq_ok_iff`).
* The first loop does not look whether a library is loaded already, so each library that the
  executable reaches is loaded once exactly if the executable names none twice
  (`DepGraph.loadAll_closure_iff`).
* The constructors are called in this order too, so those of a library that is only reached
  through another one are called after the ones that depend on them
  (`DepGraph.runConstructors_inOrder_iff`).
-/

namespace Trona

namespace Rtld

/-! ## The loops -/

/-- What the linker sees of a library: the names in its `DT_NEEDED` entries, its `DT_INIT`
    function, and the entries of its `DT_INIT_ARRAY`. -/
structure DepLibrary where
  needed : List (List UInt8)
  initFn : ℕ := 0
  initArray : List ℕ := []

/-- A program: the names in the `DT_NEEDED` entries of its executable, and the libraries that
    there are, by their names in the archive. -/
structure DepGraph where
  needed : List (List UInt8)
  library : List UInt8 → Option DepLibrary

/-- The name of the executable in the object array. -/
def executableName : List UInt8 := [0x65, 0x78, 0x65, 0x63, 0x75, 0x74, 0x61, 0x62, 0x6C, 0x65]

namespace DepGraph

variable (g : DepGraph)

/-- The names in the `DT_NEEDED` entries of a library. -/
def neededBy (n : List UInt8) : List (List UInt8) :=
  ((g.library n).map DepLibrary.needed).getD []

/-- `load_shared_library`, for a library that can be mapped if it is there. -/
def load (objects : List (List UInt8)) (name : List UInt8) : Except ℤ (List (List UInt8)) :=
  if objects.length ≥ rtldMaxObjects then .error (-1)
  else
    match makeCanonicalObjectName name with
    | none => .error (-2)
    | some objectName =>
      if (g.library objectName).isSome then .ok (objects ++ [objectName]) else .error (-2)

/-- `find_loaded_object`. -/
def isLoaded (objects : List (List UInt8)) (name : List UInt8) : Bool :=
  (makeCanonicalObjectName name).any (· ∈ objects)

/-- The loop over the names of a dynamic table. Only the one over the table of a library looks
    whether a library is loaded already. -/
def loadNeeded (transitive : Bool) (objects names : List (List UInt8)) :
    Except ℤ (List (List UInt8)) :=
  names.foldlM (fun objects name =>
    if transitive && isLoaded objects name then .ok objects else g.load objects name) objects

/-- The loop over the objects from number `processed` on, with those that are added
    meanwhile. -/
def loadTransitive : (fuel processed : ℕ) → (objects : List (List UInt8)) →
    Except ℤ (List (List UInt8))
  | 0, _, objects => .ok objects
  | fuel + 1, processed, objects =>
    match objects[processed]? with
    | none => .ok objects
    | some n => do
      let objects ← g.loadNeeded true objects (g.neededBy n)
      loadTransitive fuel (processed + 1) objects

/-- The object array of `rtld_main` when all libraries are loaded. -/
def loadAll : Except ℤ (List (List UInt8)) := do
  let objects ← g.loadNeeded false [executableName] g.needed
  g.loadTransitive (rtldMaxObjects + 1) 1 objects

/-! ## The graph -/

/-- The libraries that the executable needs. -/
def roots : List (List UInt8) := g.needed.filterMap makeCanonicalObjectName

/-- The libraries that a library needs. -/
def next (n : List UInt8) : List (List UInt8) := (g.neededBy n).filterMap makeCanonicalObjectName

/-- The libraries that the executable needs directly or transitively. -/
inductive Reachable : List UInt8 → Prop
  | root {n : List UInt8} (hn : n ∈ g.roots) : Reachable n
  | next {m n : List UInt8} (hm : Reachable m) (hn : n ∈ g.next m) : Reachable n

/-- All names are within the length limit, and all libraries are there. -/
structure Present : Prop where
  needed_isSome : ∀ name ∈ g.needed, (makeCanonicalObjectName name).isSome
  neededBy_isSome : ∀ n, g.Reachable n →
    ∀ name ∈ g.neededBy n, (makeCanonicalObjectName name).isSome
  library_isSome : ∀ n, g.Reachable n → (g.library n).isSome

/-- The executable, and then the libraries level by level: those that it needs, those that these
    need, and so on. -/
def breadthFirst : List (List UInt8) :=
  levels g.next (rtldMaxObjects + 1) (executableName :: g.roots) g.roots

end DepGraph

/-- The name of a library in the archive is not the one of the executable. -/
theorem ne_executableName {name n : List UInt8} (h : makeCanonicalObjectName name = some n) :
    n ≠ executableName := by
  rintro rfl
  rw [makeCanonicalObjectName] at h
  split at h
  next hlib =>
    obtain ⟨-, h⟩ := Option.ite_none_right_eq_some.1 h
    obtain rfl := Option.some.inj h
    exact absurd hlib (by decide)
  next =>
    obtain ⟨-, h⟩ := Option.ite_none_left_eq_some.1 h
    exact absurd (congrArg List.head? (Option.some.inj h))
      (by simp [initrdLibPrefix, executableName])

theorem bind_eq_ok_iff {ε α β : Type} {x : Except ε α} {f : α → Except ε β} {b : β} :
    x >>= f = .ok b ↔ ∃ a, x = .ok a ∧ f a = .ok b := by
  cases x with
  | error e =>
    constructor
    · intro h
      cases h
    · rintro ⟨a, ha, -⟩
      cases ha
  | ok a =>
    constructor
    · exact fun h => ⟨a, rfl, h⟩
    · rintro ⟨a', ha', h⟩
      exact Except.ok.inj ha' ▸ h

namespace DepGraph

variable {g : DepGraph} {objects objects' names : List (List UInt8)} {name n : List UInt8}
  {transitive : Bool} {fuel i : ℕ}

/-! ## What the loops load -/

/-- The objects of a run: there are not too many, and the libraries among them are there. -/
structure Loaded (g : DepGraph) (objects : List (List UInt8)) : Prop where
  length_le : objects.length ≤ rtldMaxObjects
  library_isSome : ∀ n ∈ objects, n = executableName ∨ (g.library n).isSome

theorem Loaded.of_isPrefix (h : Loaded g objects') (hpre : objects <+: objects') :
    Loaded g objects :=
  ⟨hpre.length_le.trans h.length_le, fun n hn => h.library_isSome n (hpre.subset hn)⟩

/-- How a loop adds a library. -/
def put (transitive : Bool) (objects : List (List UInt8)) (n : List UInt8) : List (List UInt8) :=
  if transitive then addNew objects n else objects ++ [n]

theorem isPrefix_put : objects <+: put transitive objects n := by
  cases transitive with
  | true => exact @isPrefix_addAll _ _ objects [n]
  | false => exact List.prefix_append _ _

theorem isPrefix_foldl_put : objects <+: names.foldl (put transitive) objects := by
  induction names generalizing objects with
  | nil => exact List.prefix_refl _
  | cons n names ih => exact isPrefix_put.trans ih

theorem foldl_put_false : names.foldl (put false) objects = objects ++ names := by
  induction names generalizing objects with
  | nil => rw [List.foldl_nil, List.append_nil]
  | cons n names ih =>
    rw [List.foldl_cons, ih, put, if_neg Bool.false_ne_true, List.append_assoc,
      List.singleton_append]

section

variable (hloaded : Loaded g objects)

include hloaded

theorem load_eq_ok_iff : g.load objects name = .ok objects' ↔
    ∃ n, makeCanonicalObjectName name = some n ∧ objects' = objects ++ [n] ∧
      Loaded g objects' := by
  constructor
  · intro h
    rw [load] at h
    split at h
    · cases h
    next hroom =>
      cases hname : makeCanonicalObjectName name with
      | none => simp [hname] at h
      | some n =>
        simp only [hname] at h
        split at h
        next hlib =>
          obtain rfl := Except.ok.inj h
          refine ⟨n, rfl, rfl, ?_, fun m hm => ?_⟩
          · rw [List.length_append, List.length_singleton]
            omega
          · rcases List.mem_append.1 hm with hm | hm
            · exact hloaded.library_isSome m hm
            · exact .inr (List.mem_singleton.1 hm ▸ hlib)
        next => cases h
  · rintro ⟨n, hname, rfl, hloaded'⟩
    have hlen := hloaded'.length_le
    rw [List.length_append, List.length_singleton] at hlen
    have hlib := (hloaded'.library_isSome n List.mem_concat_self).resolve_left
      (ne_executableName hname)
    simp only [load, hname, if_neg (show ¬objects.length ≥ rtldMaxObjects by omega), if_pos hlib]

/-- One name of a table is passed exactly if it is short enough and the library is there, and
    there is room for it if it is to be added. -/
theorem step_eq_ok_iff :
    (if transitive && isLoaded objects name then .ok objects else g.load objects name) =
        Except.ok objects' ↔
      ∃ n, makeCanonicalObjectName name = some n ∧ objects' = put transitive objects n ∧
        Loaded g objects' := by
  cases hname : makeCanonicalObjectName name with
  | none => simp [isLoaded, hname, load_eq_ok_iff hloaded]
  | some n =>
    simp only [isLoaded, hname, Option.any_some, Bool.and_eq_true, decide_eq_true_eq]
    split
    next h =>
      -- The library is loaded.
      have hput : put transitive objects n = objects := by
        rw [put, if_pos h.1, addNew, if_pos h.2]
      constructor
      · intro hok
        obtain rfl := Except.ok.inj hok
        exact ⟨n, rfl, hput.symm, hloaded⟩
      · rintro ⟨n', hn', rfl, -⟩
        obtain rfl := Option.some.inj hn'
        rw [hput]
    next h =>
      have hput : put transitive objects n = objects ++ [n] := by
        rw [put]
        split
        next ht => rw [addNew, if_neg fun hn => h ⟨ht, hn⟩]
        next => rfl
      rw [load_eq_ok_iff hloaded, hname]
      refine exists_congr fun n' => and_congr_right fun hn' => ?_
      obtain rfl := Option.some.inj hn'
      rw [hput]

/-- All names of a table are passed exactly if they are short enough and, with what they add, there
    are not too many libraries and all are there. -/
theorem loadNeeded_eq_ok_iff :
    g.loadNeeded transitive objects names = .ok objects' ↔
      (∀ name ∈ names, (makeCanonicalObjectName name).isSome) ∧
        objects' = (names.filterMap makeCanonicalObjectName).foldl (put transitive) objects ∧
        Loaded g objects' := by
  induction names generalizing objects with
  | nil =>
    constructor
    · intro h
      obtain rfl := Except.ok.inj h
      exact ⟨List.forall_mem_nil _, rfl, hloaded⟩
    · rintro ⟨-, rfl, -⟩
      rfl
  | cons name names ih =>
    constructor
    · intro h
      obtain ⟨objects₁, h₁, h₂⟩ := bind_eq_ok_iff.1 h
      obtain ⟨n, hname, rfl, hloaded₁⟩ := (step_eq_ok_iff hloaded).1 h₁
      obtain ⟨hnames, hobjects, hloaded'⟩ := (ih hloaded₁).1 h₂
      refine ⟨List.forall_mem_cons.2 ⟨by rw [hname]; rfl, hnames⟩, ?_, hloaded'⟩
      rw [List.filterMap_cons_some hname, List.foldl_cons, hobjects]
    · rintro ⟨hnames, hobjects, hloaded'⟩
      rw [List.forall_mem_cons] at hnames
      obtain ⟨n, hname⟩ := Option.isSome_iff_exists.1 hnames.1
      rw [List.filterMap_cons_some hname, List.foldl_cons] at hobjects
      have hloaded₁ : Loaded g (put transitive objects n) :=
        hloaded'.of_isPrefix (hobjects ▸ isPrefix_foldl_put)
      refine bind_eq_ok_iff.2 ⟨put transitive objects n, ?_, ?_⟩
      · exact (step_eq_ok_iff hloaded).2 ⟨n, hname, rfl, hloaded₁⟩
      · exact (ih hloaded₁).2 ⟨hnames.2, hobjects, hloaded'⟩

/-- Where the loop has come to the end of the array, nothing is left to be loaded. -/
theorem loadTransitive_end_iff (hi : objects[i]? = none) :
    g.loadTransitive fuel i objects = .ok objects' ↔
      objects' = scan g.next fuel i objects ∧
        (∀ n ∈ objects'.drop i, ∀ name ∈ g.neededBy n, (makeCanonicalObjectName name).isSome) ∧
        Loaded g objects' := by
  have hload : g.loadTransitive fuel i objects = .ok objects := by
    cases fuel with
    | zero => rfl
    | succ fuel => rw [loadTransitive, hi]
  rw [hload, scan_of_getElem?_eq_none hi]
  constructor
  · intro h
    obtain rfl := Except.ok.inj h
    refine ⟨rfl, fun n hn => ?_, hloaded⟩
    rw [List.drop_eq_nil_of_le (List.getElem?_eq_none_iff.1 hi)] at hn
    cases hn
  · rintro ⟨rfl, -, -⟩
    rfl

theorem loadTransitive_eq_ok_iff (hfuel : rtldMaxObjects ≤ i + fuel) :
    g.loadTransitive fuel i objects = .ok objects' ↔
      objects' = scan g.next fuel i objects ∧
        (∀ n ∈ objects'.drop i, ∀ name ∈ g.neededBy n, (makeCanonicalObjectName name).isSome) ∧
        Loaded g objects' := by
  induction fuel generalizing i objects with
  | zero =>
    exact loadTransitive_end_iff hloaded (List.getElem?_eq_none (hloaded.length_le.trans hfuel))
  | succ fuel ih =>
    cases hi : objects[i]? with
    | none => exact loadTransitive_end_iff hloaded hi
    | some n =>
      have hadd : ∀ {objects₁}, g.loadNeeded true objects (g.neededBy n) = .ok objects₁ ↔
          (∀ name ∈ g.neededBy n, (makeCanonicalObjectName name).isSome) ∧
            objects₁ = addAll objects (g.next n) ∧ Loaded g objects₁ := loadNeeded_eq_ok_iff hloaded
      rw [loadTransitive, hi]
      rw [bind_eq_ok_iff, scan_of_getElem?_eq_some hi]
      constructor
      · rintro ⟨objects₁, h₁, h₂⟩
        obtain ⟨hnames₁, rfl, hloaded₁⟩ := hadd.1 h₁
        obtain ⟨rfl, hnames, hloaded'⟩ := (ih hloaded₁ (by omega)).1 h₂
        refine ⟨rfl, ?_, hloaded'⟩
        rw [← scan_of_getElem?_eq_some hi, drop_scan hi, List.forall_mem_cons]
        exact ⟨hnames₁, hnames⟩
      · rintro ⟨rfl, hnames, hloaded'⟩
        rw [← scan_of_getElem?_eq_some hi, drop_scan hi, List.forall_mem_cons] at hnames
        have hloaded₁ := hloaded'.of_isPrefix isPrefix_scan
        refine ⟨_, hadd.2 ⟨hnames.1, rfl, hloaded₁⟩, ?_⟩
        exact (ih hloaded₁ (by omega)).2 ⟨rfl, hnames.2, hloaded'⟩

end

/-- The objects that are found from the executable on. -/
def found (g : DepGraph) : List (List UInt8) :=
  scan g.next (rtldMaxObjects + 1) 1 (executableName :: g.roots)

theorem loadAll_eq_ok_iff_found : g.loadAll = .ok objects ↔
    (∀ name ∈ g.needed, (makeCanonicalObjectName name).isSome) ∧
      (∀ n ∈ g.found.drop 1, ∀ name ∈ g.neededBy n, (makeCanonicalObjectName name).isSome) ∧
      Loaded g g.found ∧ objects = g.found := by
  have hstart : Loaded g [executableName] :=
    ⟨by decide, fun n hn => .inl (List.mem_singleton.1 hn)⟩
  have hdirect : ∀ {objects₁}, g.loadNeeded false [executableName] g.needed = .ok objects₁ ↔
      (∀ name ∈ g.needed, (makeCanonicalObjectName name).isSome) ∧
        objects₁ = executableName :: g.roots ∧ Loaded g objects₁ := by
    intro objects₁
    rw [loadNeeded_eq_ok_iff hstart, foldl_put_false, List.singleton_append, roots]
  rw [loadAll, bind_eq_ok_iff]
  constructor
  · rintro ⟨objects₁, h₁, h₂⟩
    obtain ⟨hneeded, rfl, hloaded₁⟩ := hdirect.1 h₁
    obtain ⟨rfl, hnames, hloaded⟩ := (loadTransitive_eq_ok_iff hloaded₁ (by decide)).1 h₂
    exact ⟨hneeded, hnames, hloaded, rfl⟩
  · rintro ⟨hneeded, hnames, hloaded, rfl⟩
    have hloaded₁ := hloaded.of_isPrefix isPrefix_scan
    refine ⟨_, hdirect.2 ⟨hneeded, rfl, hloaded₁⟩, ?_⟩
    exact (loadTransitive_eq_ok_iff hloaded₁ (by decide)).2 ⟨rfl, hnames, hloaded⟩

/-! ## What is found -/

variable {S : List (List UInt8)} {m : List UInt8}

theorem ne_executableName_of_mem_next (hn : n ∈ g.next m) : n ≠ executableName := by
  obtain ⟨name, -, hname⟩ := List.mem_filterMap.1 hn
  exact ne_executableName hname

theorem Reachable.ne_executableName (h : g.Reachable n) : n ≠ executableName := by
  cases h with
  | root hn =>
    obtain ⟨name, -, hname⟩ := List.mem_filterMap.1 hn
    exact Rtld.ne_executableName hname
  | next _ hn => exact ne_executableName_of_mem_next hn

theorem isPrefix_found : executableName :: g.roots <+: g.found := isPrefix_scan

theorem exists_found : ∃ libs, g.found = executableName :: libs ∧ g.roots <+: libs := by
  obtain ⟨t, ht⟩ := @isPrefix_found g
  exact ⟨g.roots ++ t, ht.symm, List.prefix_append _ _⟩

/-- Only libraries that the executable reaches are found. -/
theorem reachable_of_mem_found : ∀ n ∈ g.found.drop 1, g.Reachable n :=
  scan_stays (fun _ hm _ hn => .next hm hn) fun _ hn => .root hn

/-- If not too many are found, then all that the executable reaches are. -/
theorem mem_found_iff (hlen : g.found.length ≤ rtldMaxObjects) :
    n ∈ g.found.drop 1 ↔ g.Reachable n := by
  refine ⟨reachable_of_mem_found n, fun h => ?_⟩
  have hfuel : g.found.length ≤ 1 + (rtldMaxObjects + 1) := by omega
  obtain ⟨libs, hfound, hroots⟩ := @exists_found g
  induction h with
  | root hn =>
    rw [hfound]
    exact hroots.subset hn
  | next _ hn ih =>
    have hmem := mem_scan_of_mem hfuel ih hn
    rw [← found, hfound, List.mem_cons] at hmem
    rw [hfound]
    exact hmem.resolve_left (ne_executableName_of_mem_next hn)

theorem found_eq_breadthFirst (hlen : g.found.length ≤ rtldMaxObjects) : g.found = g.breadthFirst :=
  scan_eq_levels le_rfl (show g.found.length ≤ _ by omega)

theorem length_found_le : g.found.length ≤ g.breadthFirst.length :=
  (scan_isPrefix_levels le_rfl).length_le

/-- All libraries are loaded exactly if their names are within the limit, they are there, and there
    are not too many of them. The objects are then in breadth-first order. -/
theorem loadAll_eq_ok_iff : g.loadAll = .ok objects ↔
    g.Present ∧ g.breadthFirst.length ≤ rtldMaxObjects ∧ objects = g.breadthFirst := by
  rw [loadAll_eq_ok_iff_found]
  constructor
  · rintro ⟨hneeded, hnames, hloaded, rfl⟩
    have hmem := fun n => @mem_found_iff g n hloaded.length_le
    have heq := found_eq_breadthFirst hloaded.length_le
    refine ⟨⟨hneeded, fun n hn => hnames n ((hmem n).2 hn), fun n hn => ?_⟩,
      heq ▸ hloaded.length_le, heq⟩
    exact (hloaded.library_isSome n (List.mem_of_mem_drop ((hmem n).2 hn))).resolve_left
      hn.ne_executableName
  · rintro ⟨hpresent, hlen, hobjects⟩
    have hlen' := length_found_le.trans hlen
    rw [hobjects, ← found_eq_breadthFirst hlen']
    refine ⟨hpresent.needed_isSome, fun n hn => ?_, ⟨hlen', fun n hn => ?_⟩, rfl⟩
    · exact hpresent.neededBy_isSome n (reachable_of_mem_found n hn)
    obtain ⟨libs, hfound, -⟩ := @exists_found g
    rw [hfound, List.mem_cons] at hn
    refine hn.imp_right fun hn => hpresent.library_isSome n (reachable_of_mem_found n ?_)
    rw [hfound]
    exact hn

/-- For a program whose libraries are all there and not too many, each library that the
    executable reaches is loaded once, and nothing else is, exactly if the executable needs no
    library twice. -/
theorem loadAll_closure_iff (hpresent : g.Present)
    (hcount : {n | g.Reachable n}.encard + 1 ≤ rtldMaxObjects) :
    (∃ libs, g.loadAll = .ok (executableName :: libs) ∧ libs.Nodup ∧
        ∀ n, n ∈ libs ↔ g.Reachable n) ↔ g.roots.Nodup := by
  obtain ⟨libs, hfound, hroots⟩ := @exists_found g
  constructor
  · -- the libraries of the executable come first, in its order, and they are not compared
    rintro ⟨libs', hload, hnodup, -⟩
    obtain ⟨-, -, -, hlibs⟩ := loadAll_eq_ok_iff_found.1 hload
    obtain rfl := (List.cons.inj (hlibs.trans hfound)).2
    exact hroots.sublist.nodup hnodup
  · intro hnodup
    have hstart : (executableName :: g.roots).Nodup := by
      refine List.nodup_cons.2 ⟨fun h => ?_, hnodup⟩
      exact (Reachable.root h).ne_executableName rfl
    have hlibs : (executableName :: libs).Nodup := hfound ▸ nodup_scan hstart
    have hreach : ∀ n ∈ libs, g.Reachable n := by
      intro n hn
      refine reachable_of_mem_found n ?_
      rw [hfound]
      exact hn
    -- the limit is not met: what is found is reachable, and there is no more than fits
    have hlen : g.found.length ≤ rtldMaxObjects := by
      have hsub : (libs.toFinset : Set (List UInt8)) ⊆ {n | g.Reachable n} :=
        fun n hn => hreach n (List.mem_toFinset.1 hn)
      have hcard := Set.encard_le_encard hsub
      rw [Set.encard_coe_eq_coe_finsetCard, List.toFinset_card_of_nodup hlibs.of_cons] at hcard
      have hlibs_count : (libs.length : ℕ∞) + 1 ≤ rtldMaxObjects :=
        (add_le_add hcard le_rfl).trans hcount
      rw [hfound, List.length_cons]
      exact_mod_cast hlibs_count
    refine ⟨libs, ?_, hlibs.of_cons, fun n => ?_⟩
    · rw [← hfound]
      exact loadAll_eq_ok_iff.2 ⟨hpresent, found_eq_breadthFirst hlen ▸ hlen,
        found_eq_breadthFirst hlen⟩
    · rw [← mem_found_iff hlen, hfound]
      rfl

section

variable (hroots : g.roots ⊆ S) (hnext : ∀ m ∈ S, g.next m ⊆ S)

include hroots hnext

/-- What is closed under the steps of the graph has all that the executable reaches. -/
theorem Reachable.mem_of_closed (h : g.Reachable n) : n ∈ S := by
  induction h with
  | root hn => exact hroots hn
  | next _ hn ih => exact hnext _ ih hn

theorem present_of_closed (hneeded : ∀ name ∈ g.needed, (makeCanonicalObjectName name).isSome)
    (hneededBy : ∀ n ∈ S, ∀ name ∈ g.neededBy n, (makeCanonicalObjectName name).isSome)
    (hlibrary : ∀ n ∈ S, (g.library n).isSome) : g.Present where
  needed_isSome := hneeded
  neededBy_isSome n hn := hneededBy n (hn.mem_of_closed hroots hnext)
  library_isSome n hn := hlibrary n (hn.mem_of_closed hroots hnext)

theorem encard_reachable_le : {n | g.Reachable n}.encard ≤ S.length := by
  have hsub : {n | g.Reachable n} ⊆ (S.toFinset : Set (List UInt8)) :=
    fun n hn => List.mem_toFinset.2 (Reachable.mem_of_closed hroots hnext hn)
  refine (Set.encard_le_encard hsub).trans ?_
  exact_mod_cast List.toFinset_card_le S

end

/-- The name of a library with one letter in the archive. -/
def letterName (c : UInt8) : List UInt8 := initrdLibPrefix ++ [c]

/-- The executable needs `a` and `b`, which need each other, and `b` needs `c` and, by its name in
    the archive, `a`. -/
def cyclicGraph : DepGraph where
  needed := [[0x61], [0x62]]
  library n :=
    if n = letterName 0x61 then some { needed := [[0x62]] }
    else if n = letterName 0x62 then some { needed := [[0x63], letterName 0x61, [0x61]] }
    else if n = letterName 0x63 then some { needed := [] }
    else none

theorem loadAll_closure_iff_cyclicGraph :
    ∃ libs, cyclicGraph.loadAll = .ok (executableName :: libs) ∧ libs.Nodup ∧
      ∀ n, n ∈ libs ↔ cyclicGraph.Reachable n := by
  have hroots : cyclicGraph.roots ⊆ [letterName 0x61, letterName 0x62, letterName 0x63] := by decide
  have hnext : ∀ m ∈ [letterName 0x61, letterName 0x62, letterName 0x63],
      cyclicGraph.next m ⊆ [letterName 0x61, letterName 0x62, letterName 0x63] := by decide
  have hpresent := present_of_closed hroots hnext (by decide) (by decide) (by decide)
  refine (loadAll_closure_iff hpresent ?_).2 (by decide)
  exact (add_le_add (encard_reachable_le hroots hnext) le_rfl).trans (by decide)

/-- The executable needs one library by two names. -/
def repeatedGraph : DepGraph where
  needed := [[0x61], letterName 0x61]
  library n := if n = letterName 0x61 then some { needed := [] } else none

/-- The library is loaded twice. -/
theorem loadAll_closure_repeated :
    repeatedGraph.Present ∧ {n | repeatedGraph.Reachable n}.encard + 1 ≤ rtldMaxObjects ∧
      repeatedGraph.loadAll = .ok [executableName, letterName 0x61, letterName 0x61] ∧
      ¬∃ libs, repeatedGraph.loadAll = .ok (executableName :: libs) ∧ libs.Nodup ∧
        ∀ n, n ∈ libs ↔ repeatedGraph.Reachable n := by
  have hroots : repeatedGraph.roots ⊆ [letterName 0x61] := by decide
  have hnext : ∀ m ∈ [letterName 0x61], repeatedGraph.next m ⊆ [letterName 0x61] := by decide
  have hload : repeatedGraph.loadAll = .ok [executableName, letterName 0x61, letterName 0x61] := by
    decide
  refine ⟨present_of_closed hroots hnext (by decide) (by decide) (by decide), ?_, hload, ?_⟩
  · exact (add_le_add (encard_reachable_le hroots hnext) le_rfl).trans (by decide)
  · rintro ⟨libs, hlibs, hnodup, -⟩
    obtain rfl := (List.cons.inj (Except.ok.inj (hload.symm.trans hlibs))).2
    exact absurd hnodup (by decide)

/-! ## Constructors -/

/-- The functions of a library that the linker calls: its `DT_INIT` function, and the entries of
    its `DT_INIT_ARRAY`, without null pointers. -/
def constructors (g : DepGraph) (n : List UInt8) : List ℕ :=
  match g.library n with
  | none => []
  | some lib =>
    (if lib.initFn ≠ 0 then [lib.initFn] else []) ++ lib.initArray.filter (· ≠ 0)

/-- The constructors that are called, in their order: those of all objects but the executable. -/
def callConstructors (g : DepGraph) (objects : List (List UInt8)) : List (List UInt8 × ℕ) :=
  (objects.drop 1).flatMap fun n => (g.constructors n).map (n, ·)

/-- The calls of constructors in a run of `rtld_main`. If a library cannot be loaded, then the
    linker exits before. -/
def runConstructors (g : DepGraph) : List (List UInt8 × ℕ) :=
  match g.loadAll with
  | .ok objects => g.callConstructors objects
  | .error _ => []

/-- A library needs another one, directly or transitively. -/
def Needs (g : DepGraph) : List UInt8 → List UInt8 → Prop :=
  Relation.TransGen fun n m => m ∈ g.next n

/-- A constructor of a library is only called after those of all libraries that it needs. -/
def InOrder (g : DepGraph) (calls : List (List UInt8 × ℕ)) : Prop :=
  ∀ before n fn after, calls = before ++ (n, fn) :: after →
    ∀ m, g.Needs n m → ∀ fn' ∈ g.constructors m, (m, fn') ∈ before

/-- In breadth-first order, a library with constructors comes after all libraries with constructors
    that it needs. -/
def NeededFirst (g : DepGraph) : Prop :=
  ∀ before n after, g.breadthFirst.drop 1 = before ++ n :: after → g.constructors n ≠ [] →
    ∀ m, g.Needs n m → g.constructors m ≠ [] → m ∈ before

/-- A call of a constructor is one of those for a library of the list, and those for all before it
    are made before. -/
theorem exists_of_callConstructors {l : List (List UInt8)} {before after : List (List UInt8 × ℕ)}
    {fn : ℕ} (h : (l.flatMap fun n => (g.constructors n).map (n, ·)) = before ++ (n, fn) :: after) :
    fn ∈ g.constructors n ∧ ∃ first last, l = first ++ n :: last ∧
      ∀ m ∈ first, ∀ fn' ∈ g.constructors m, (m, fn') ∈ before := by
  induction l generalizing before with
  | nil => simp at h
  | cons a l ih =>
    rw [List.flatMap_cons] at h
    rcases List.append_eq_append_iff.1 h with ⟨t, rfl, hrest⟩ | ⟨t, hcalls, hrest⟩
    · -- The call is made for a later library.
      obtain ⟨hfn, first, last, rfl, hfirst⟩ := ih hrest
      refine ⟨hfn, a :: first, last, rfl, fun m hm fn' hfn' => List.mem_append.2 ?_⟩
      rcases List.mem_cons.1 hm with rfl | hm
      · exact .inl (List.mem_map_of_mem hfn')
      · exact .inr (hfirst m hm fn' hfn')
    · cases t with
      | nil =>
        obtain ⟨hfn, first, last, rfl, hfirst⟩ := @ih [] hrest.symm
        refine ⟨hfn, a :: first, last, rfl, fun m hm fn' hfn' => ?_⟩
        rcases List.mem_cons.1 hm with rfl | hm
        · rw [← List.append_nil before, ← hcalls]
          exact List.mem_map_of_mem hfn'
        · cases hfirst m hm fn' hfn'
      | cons c t =>
        -- The call is made for the first library.
        obtain ⟨rfl, -⟩ := List.cons.inj hrest
        have hmem : (n, fn) ∈ (g.constructors a).map (a, ·) :=
          hcalls ▸ List.mem_append_right _ List.mem_cons_self
        obtain ⟨fn', hfn', heq⟩ := List.mem_map.1 hmem
        obtain ⟨rfl, rfl⟩ := Prod.mk.inj heq
        exact ⟨hfn', [], l, rfl, fun m hm => by cases hm⟩

theorem callConstructors_inOrder_iff :
    g.InOrder (g.callConstructors g.breadthFirst) ↔ g.NeededFirst := by
  constructor
  · intro horder before n after hlist hn m hm hm'
    obtain ⟨fn, fns, hfns⟩ := List.exists_cons_of_ne_nil hn
    obtain ⟨fn', hfn'⟩ := List.exists_mem_of_ne_nil _ hm'
    -- The first constructor of the library is called after those of the libraries before it.
    have hcalls : g.callConstructors g.breadthFirst =
        (before.flatMap fun n => (g.constructors n).map (n, ·)) ++ (n, fn) :: (fns.map (n, ·) ++
          after.flatMap fun n => (g.constructors n).map (n, ·)) := by
      rw [callConstructors, hlist, List.flatMap_append, List.flatMap_cons, hfns, List.map_cons,
        List.cons_append]
    obtain ⟨m', hm', hmem⟩ := List.mem_flatMap.1 (horder _ n fn _ hcalls m hm fn' hfn')
    obtain ⟨_, -, heq⟩ := List.mem_map.1 hmem
    exact (Prod.mk.inj heq).1 ▸ hm'
  · intro hfirst before n fn after hcalls m hm fn' hfn'
    obtain ⟨hfn, first, last, hlist, hbefore⟩ := exists_of_callConstructors hcalls
    exact hbefore m (hfirst first n last hlist (List.ne_nil_of_mem hfn) m hm
      (List.ne_nil_of_mem hfn')) fn' hfn'

/-- The constructors of a library are only called after those of all libraries that it needs
    exactly if, in case that all libraries are there and not too many, the breadth-first order has
    those with constructors after the ones that they need. -/
theorem runConstructors_inOrder_iff : g.InOrder g.runConstructors ↔
    (g.Present → g.breadthFirst.length ≤ rtldMaxObjects → g.NeededFirst) := by
  cases hload : g.loadAll with
  | ok objects =>
    obtain ⟨hpresent, hlen, hobjects⟩ := loadAll_eq_ok_iff.1 hload
    rw [runConstructors, hload, hobjects]
    exact callConstructors_inOrder_iff.trans ⟨fun h _ _ => h, fun h => h hpresent hlen⟩
  | error e =>
    rw [runConstructors, hload]
    constructor
    · intro _ hpresent hlen
      have hok : g.loadAll = .ok g.breadthFirst := loadAll_eq_ok_iff.2 ⟨hpresent, hlen, rfl⟩
      rw [hload] at hok
      cases hok
    · intro _ before n fn after hcalls
      simp at hcalls

/-- A program with the libraries `a` and `b`, both with a constructor, of which `a` needs `b`. -/
def chainGraph (needed : List (List UInt8)) : DepGraph where
  needed := needed
  library n :=
    if n = letterName 0x61 then some { needed := [[0x62]], initFn := 1 }
    else if n = letterName 0x62 then some { needed := [], initFn := 2 }
    else none

theorem chainGraph_needs {needed : List (List UInt8)} (h : (chainGraph needed).Needs n m) :
    n = letterName 0x61 ∧ m = letterName 0x62 := by
  have hnext :
      ∀ n m, m ∈ (chainGraph needed).next n → n = letterName 0x61 ∧ m = letterName 0x62 := by
    intro n m hm
    simp only [next, neededBy, chainGraph] at hm
    split at hm
    next hn => exact ⟨hn, List.mem_singleton.1 hm⟩
    next =>
      split at hm
      · cases hm
      · cases hm
  induction h with
  | single hm => exact hnext _ _ hm
  | tail _ hm ih => exact ⟨ih.1, (hnext _ _ hm).2⟩

/-- The executable needs both libraries, `b` first. -/
theorem runConstructors_inOrder_iff_flat :
    (chainGraph [[0x62], [0x61]]).runConstructors = [(letterName 0x62, 2), (letterName 0x61, 1)] ∧
      (chainGraph [[0x62], [0x61]]).InOrder (chainGraph [[0x62], [0x61]]).runConstructors := by
  refine ⟨by decide, runConstructors_inOrder_iff.2 fun _ _ before n after hlist _ m hm _ => ?_⟩
  obtain ⟨rfl, rfl⟩ := chainGraph_needs hm
  have horder : (chainGraph [[0x62], [0x61]]).breadthFirst.drop 1 =
    [letterName 0x62, letterName 0x61] := by decide
  cases before with
  | nil => exact absurd (List.cons.inj hlist).1 (by decide)
  | cons n before => exact (List.cons.inj hlist).1 ▸ List.mem_cons_self

/-- The executable needs `a` only, and the constructor of `a` is called before that of `b`, which it
    needs. -/
theorem runConstructors_inOrder_chain :
    (∀ n, ¬(chainGraph [[0x61]]).Needs n n) ∧
      (chainGraph [[0x61]]).Needs (letterName 0x61) (letterName 0x62) ∧
      (chainGraph [[0x61]]).runConstructors = [(letterName 0x61, 1), (letterName 0x62, 2)] ∧
      ¬(chainGraph [[0x61]]).InOrder (chainGraph [[0x61]]).runConstructors := by
  have hneeds : (chainGraph [[0x61]]).Needs (letterName 0x61) (letterName 0x62) :=
    .single (by decide)
  have hrun :
      (chainGraph [[0x61]]).runConstructors = [(letterName 0x61, 1), (letterName 0x62, 2)] := by
    decide
  refine ⟨fun n h => ?_, hneeds, hrun, fun h => ?_⟩
  · obtain ⟨h₁, h₂⟩ := chainGraph_needs h
    exact absurd (h₁.symm.trans h₂) (by decide)
  · exact absurd (h [] _ _ _ hrun _ hneeds 2 (by decide)) List.not_mem_nil

end DepGraph

end Rtld

end Trona
