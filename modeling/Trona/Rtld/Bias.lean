import Trona.Loader.ElfDynamic
import Trona.Rtld.Library
import Trona.Rtld.Symbol

/-!
# One bias for a library

The addresses in a library are those of its file, and the linker moves them. It moves the
segments, the dynamic table and the TLS template by the load address minus the least
address of a segment, but the pointers of the dynamic table, the symbols and the targets
of relocations by the load address. `library_bias_iff` says that this is one and the same
bias exactly for libraries that start at zero, and that the three computations of the
footprint of a library then agree.
-/

namespace Trona

namespace Rtld

/-! ## What an object is made of -/

/-- The pointers of a dynamic table. -/
inductive DynPtr
  | symtab
  | strtab
  | gnuHash
  | jmprel
  | pltgot
  | rela
  | initFn
  | initArray

/-- The entry for a pointer. -/
def DynPtr.tag : DynPtr → DynTag
  | symtab => .symtab
  | strtab => .strtab
  | gnuHash => .gnuHash
  | jmprel => .jmprel
  | pltgot => .pltgot
  | rela => .rela
  | initFn => .init
  | initArray => .initArray

/-- Where an object has a pointer. -/
def DynPtr.get (map : LinkMap) : DynPtr → ℕ
  | symtab => map.symtab
  | strtab => map.strtab
  | gnuHash => map.gnuHash
  | jmprel => map.jmprel
  | pltgot => map.pltgot
  | rela => map.rela
  | initFn => map.initFn
  | initArray => map.initArray

section

variable {m : Memory} {name : List UInt8} {loadAddr delta base : ℕ} {phs : List Elf64Phdr}
  {map : LinkMap} {ds : List Elf64Dyn}

/-- An entry of the dynamic table sets the pointer with its tag. -/
theorem parseEntry_get (ptr : DynPtr) (p : DynParse) (d : Elf64Dyn) :
    ptr.get (parseEntry base p d).map = ptr.get p.map ∨
      d.dTag = ptr.tag.value ∧ ptr.get (parseEntry base p d).map = (base + d.dVal) % 2 ^ 64 := by
  rw [parseEntry]
  cases htag : DynTag.ofValue d.dTag with
  | none => exact .inl rfl
  | some t =>
    have hvalue := (DynTag.value_of_ofValue htag).symm
    -- Entries with a size do not set a pointer, and the others set one.
    cases t <;> cases ptr <;>
      first | exact .inr ⟨hvalue, rfl⟩ | exact .inl rfl | (dsimp only; split <;> exact .inl rfl)

theorem parseEntry_fixed (p : DynParse) (d : Elf64Dyn) :
    (parseEntry base p d).map.base = p.map.base ∧
      (parseEntry base p d).map.loadSize = p.map.loadSize ∧
      (parseEntry base p d).map.name = p.map.name := by
  unfold parseEntry
  split <;> first | exact ⟨rfl, rfl, rfl⟩ | (split <;> exact ⟨rfl, rfl, rfl⟩)

theorem finish_get (ptr : DynPtr) (p : DynParse) :
    ptr.get p.finish = ptr.get p.map ∨ ptr.get p.finish = 0 := by
  unfold DynParse.finish
  dsimp only
  cases ptr <;> split <;> split <;> split <;> first | exact .inl rfl | exact .inr rfl

theorem finish_fixed (p : DynParse) :
    p.finish.base = p.map.base ∧ p.finish.loadSize = p.map.loadSize ∧
      p.finish.name = p.map.name := by
  unfold DynParse.finish
  dsimp only
  split <;> split <;> split <;> exact ⟨rfl, rfl, rfl⟩

theorem parseDynamic_fixed :
    (parseDynamic map ds base).base = base ∧ (parseDynamic map ds base).loadSize = map.loadSize ∧
      (parseDynamic map ds base).name = map.name := by
  have h : (ds.foldl (parseEntry base) (parseStart map base)).map.base = base ∧
      (ds.foldl (parseEntry base) (parseStart map base)).map.loadSize = map.loadSize ∧
      (ds.foldl (parseEntry base) (parseStart map base)).map.name = map.name := by
    have hstart : (parseStart map base).map.base = base ∧
        (parseStart map base).map.loadSize = map.loadSize ∧
        (parseStart map base).map.name = map.name := ⟨rfl, rfl, rfl⟩
    refine List.foldlRecOn (motive := fun p => p.map.base = base ∧
      p.map.loadSize = map.loadSize ∧ p.map.name = map.name) ds (parseEntry base) hstart
      fun p hp d _ => ?_
    obtain ⟨hbase, hsize, hname⟩ := @parseEntry_fixed base p d
    exact ⟨hbase.trans hp.1, hsize.trans hp.2.1, hname.trans hp.2.2⟩
  obtain ⟨hbase, hsize, hname⟩ :=
    finish_fixed (ds.foldl (parseEntry base) (parseStart map base))
  exact ⟨hbase.trans h.1, hsize.trans h.2.1, hname.trans h.2.2⟩

/-- A pointer of an object is that of an entry of its dynamic table, moved by the base. -/
theorem parseDynamic_get (map : LinkMap) (ds : List Elf64Dyn) (base : ℕ) (ptr : DynPtr) :
    ptr.get (parseDynamic map ds base) = 0 ∨
    ∃ d ∈ ds, d.dTag = ptr.tag.value ∧
      ptr.get (parseDynamic map ds base) = (base + d.dVal) % 2 ^ 64 := by
  have h : ptr.get (ds.foldl (parseEntry base) (parseStart map base)).map = 0 ∨
      ∃ d ∈ ds, d.dTag = ptr.tag.value ∧
        ptr.get (ds.foldl (parseEntry base) (parseStart map base)).map =
          (base + d.dVal) % 2 ^ 64 := by
    have hstart : ptr.get (parseStart map base).map = 0 := by cases ptr <;> rfl
    refine List.foldlRecOn (motive := fun p => ptr.get p.map = 0 ∨
      ∃ d ∈ ds, d.dTag = ptr.tag.value ∧ ptr.get p.map = (base + d.dVal) % 2 ^ 64)
      ds (parseEntry base) (.inl hstart) fun p hp d hd => ?_
    rcases parseEntry_get ptr p d with heq | ⟨htag, heq⟩
    · rwa [heq]
    · exact .inr ⟨d, hd, htag, heq⟩
  rcases finish_get ptr (ds.foldl (parseEntry base) (parseStart map base)) with heq | heq
  · rw [parseDynamic, heq]
    exact h
  · exact .inl heq

theorem get_dynSection (ptr : DynPtr) (map : LinkMap) (dyn : ℕ) :
    ptr.get { map with dynSection := dyn } = ptr.get map := by
  cases ptr <;> rfl

theorem setTls_get (ptr : DynPtr) (tls : TlsSegment) :
    ptr.get (setTls map tls delta) = ptr.get map := by
  unfold setTls
  cases ptr <;> split <;> rfl

theorem setTls_fixed (map : LinkMap) (tls : TlsSegment) (delta : ℕ) :
    (setTls map tls delta).base = map.base ∧
    (setTls map tls delta).loadSize = map.loadSize ∧
    (setTls map tls delta).dynSection = map.dynSection ∧
    (setTls map tls delta).name = map.name := by
  unfold setTls
  split <;> exact ⟨rfl, rfl, rfl, rfl⟩

/-- What the linker notes about a library: which addresses are moved by the bias of the
    segments, and which by the load address. -/
structure LibraryMap (m : Memory) (loadAddr delta : ℕ) (phs : List Elf64Phdr) (map : LinkMap) :
    Prop where
  base_eq : map.base = loadAddr
  loadSize_eq : map.loadSize = loadFootprint phs delta loadAddr
  dynSection_eq : map.dynSection = libDyn phs delta
  get : ∀ ptr : DynPtr, ptr.get map = 0 ∨ ∃ ds, dynEntries m map.dynSection = some ds ∧
    ∃ d ∈ ds, d.dTag = ptr.tag.value ∧ ptr.get map = (loadAddr + d.dVal) % 2 ^ 64
  tls : (tlsSegment phs).memsz ≠ 0 →
    map.tlsTemplate = ((tlsSegment phs).template + delta) % 2 ^ 64

theorem libraryMap_spec (h : libraryMap m name loadAddr delta phs = some map) :
    LibraryMap m loadAddr delta phs map := by
  obtain ⟨map', hmap', rfl⟩ := Option.map_eq_some_iff.1 h
  obtain ⟨hbase, hsize, hdyn, -⟩ := setTls_fixed map' (tlsSegment phs) delta
  have htls : (tlsSegment phs).memsz ≠ 0 → (setTls map' (tlsSegment phs) delta).tlsTemplate =
      ((tlsSegment phs).template + delta) % 2 ^ 64 := fun hne => by rw [setTls, if_pos hne]
  split at hmap'
  · obtain ⟨ds, hds, rfl⟩ := Option.map_eq_some_iff.1 hmap'
    refine ⟨hbase.trans parseDynamic_fixed.1, hsize.trans parseDynamic_fixed.2.1, hdyn,
      fun ptr => ?_, htls⟩
    rw [setTls_get, get_dynSection, hdyn]
    rcases parseDynamic_get { name, loadSize := loadFootprint phs delta loadAddr } ds loadAddr ptr
      with heq | ⟨d, hd, htag, heq⟩
    · exact .inl heq
    · exact .inr ⟨ds, hds, d, hd, htag, heq⟩
  · rename_i hzero
    obtain rfl := Option.some.inj hmap'
    refine ⟨hbase, hsize, hdyn.trans (not_not.1 hzero).symm, fun ptr => .inl ?_, htls⟩
    rw [setTls_get]
    cases ptr <;> rfl

theorem libraryMap_name (h : libraryMap m name loadAddr delta phs = some map) :
    map.name = name := by
  obtain ⟨map', hmap', rfl⟩ := Option.map_eq_some_iff.1 h
  rw [(setTls_fixed map' (tlsSegment phs) delta).2.2.2]
  split at hmap'
  · obtain ⟨ds, -, rfl⟩ := Option.map_eq_some_iff.1 hmap'
    exact parseDynamic_fixed.2.2
  · obtain rfl := Option.some.inj hmap'
    rfl

/-! ## Runs -/

variable {cfg : Config} {env : Env} {s : State} {cpio : CpioEntry}

/-- An object that is added is that of the library in the memory at the end. -/
theorem addObject_spec : wp (addObject cfg name loadAddr delta phs)
    (fun _ s' => ∃ map, s'.objects = s.objects ++ [map] ∧
      LibraryMap (s'.memory cfg) loadAddr delta phs map) (fun _ _ => True) s := by
  exact wp_addObject (fun _ => trivial) trivial fun _ map _ hmap => ⟨map, rfl, libraryMap_spec hmap⟩

theorem loadPremappedLibrary_spec (hphs : libPhdrs (s.memory cfg) loadAddr (-3) (-4) = .ok phs) :
    wp (loadPremappedLibrary cfg name loadAddr)
      (fun _ s' => ∃ map, s'.objects = s.objects ++ [map] ∧
        LibraryMap (s'.memory cfg) loadAddr (premappedDelta loadAddr phs) phs map)
      (fun _ _ => True) s := by
  refine wp_loadPremappedLibrary (fun _ => trivial) fun n phs' _ hphs' => ?_
  obtain rfl := Except.ok.inj (hphs.symm.trans hphs')
  exact addObject_spec

/-- The page is one of a segment, moved by a bias, whatever its flags. -/
def SegmentPage (phs : List Elf64Phdr) (delta page _flags : ℕ) : Prop :=
  ∃ ph ∈ phs, ph.isLoad = true ∧ page ∈ ph.segPages delta

/-- What loading a library does: it maps pages of the segments, and notes one object. -/
def AddsLibrary (cfg : Config) (loadAddr : ℕ) (phs : List Elf64Phdr) (s s' : State) : Prop :=
  Asks (SegmentPage phs (libDelta loadAddr phs)) s s' ∧ ∃ map, s'.objects = s.objects ++ [map] ∧
    LibraryMap (s'.memory cfg) loadAddr (libDelta loadAddr phs) phs map

theorem loadFound_spec (hphs : libPhdrs (s.memory cfg) cpio.data (-4) (-5) = .ok phs) :
    wp (loadFound cfg env name loadAddr cpio)
      (fun _ s' => AddsLibrary cfg loadAddr phs s s') (fun _ _ => True) s := by
  -- Where the segments are mapped, the objects stay the same.
  have hadd : ∀ s₁, Grows (SegmentPage phs (libDelta loadAddr phs)) s s₁ →
      wp (addObject cfg name loadAddr (libDelta loadAddr phs) phs)
        (fun _ s' => AddsLibrary cfg loadAddr phs s s') (fun _ _ => True) s₁ := by
    intro s₁ h₁
    refine wp_returns (wp_and (addObject_asks (P := SegmentPage phs (libDelta loadAddr phs)) s₁)
      addObject_spec) fun _ s' h => ?_
    obtain ⟨hasks, map, hobjects, hmap⟩ := h
    exact ⟨trans_of (Asks _) h₁.toAsks hasks, map, by rw [hobjects, h₁.objects], hmap⟩
  refine wp_loadFound (fun _ => trivial) (fun phs' hphs' => ?_) fun phs' hphs' => ?_
  · obtain rfl := Except.ok.inj (hphs.symm.trans hphs')
    rw [wp_bind]
    refine wp_returns (loadSegments_grows (fun ph hph hl page hpage flags _ => ?_) s)
      fun _ s₁ h₁ => hadd s₁ h₁
    exact ⟨ph, hph, hl, hpage⟩
  · obtain rfl := Except.ok.inj (hphs.symm.trans hphs')
    exact hadd s (refl_of (Grows _) s)

theorem loadSharedLibrary_spec {objectName : List UInt8}
    (hname : makeCanonicalObjectName name = some objectName)
    (hfind : cpioFind (s.memory cfg) cfg.initrdBase cfg.initrdSize objectName = some (some cpio))
    (hphs : libPhdrs (s.memory cfg) cpio.data (-4) (-5) = .ok phs) :
    wp (loadSharedLibrary cfg env name loadAddr)
      (fun _ s' => AddsLibrary cfg loadAddr phs s s') (fun _ _ => True) s := by
  refine wp_loadSharedLibrary (fun _ => trivial) (fun n _ hn hnone _ => ?_)
    fun n cpio' _ hn hcpio => ?_
  · obtain rfl := Option.some.inj (hname.symm.trans hn)
    cases hfind.symm.trans hnone
  · obtain rfl := Option.some.inj (hname.symm.trans hn)
    obtain rfl := Option.some.inj (Option.some.inj (hfind.symm.trans hcpio))
    exact loadFound_spec hphs

end

/-! ## Files in memory -/

section

variable {m : Memory} {f : File} {ehdr : Elf64Ehdr} {phs : List Elf64Phdr} {data : ℕ}

theorem phdrsAt_eq (hf : m.Holds data f) (hent : ehdr.ePhentsize = 56) {todo i : ℕ}
    (htable : ehdr.ePhoff + (i + todo) * 56 ≤ f.size) :
    phdrsAt m (data + ehdr.ePhoff) todo i = phdrsFrom f ehdr todo i := by
  have hsize := f.size_lt
  induction todo generalizing i with
  | zero => rfl
  | succ todo ih =>
    have hoff : (ehdr.ePhoff + i * ehdr.ePhentsize) % 2 ^ 64 = ehdr.ePhoff + i * 56 := by
      rw [hent, Nat.mod_eq_of_lt (by omega)]
    have hread :
        m.elf64Phdr (data + ehdr.ePhoff + i * 56) = f.elf64Phdr (ehdr.ePhoff + i * 56) := by
      rw [Nat.add_assoc]
      exact hf.elf64Phdr (by omega)
    rw [phdrsAt, phdrsFrom, hoff, hread, ih (by omega), Nat.mod_eq_of_lt (by omega)]
    rw [if_neg (by omega)]
    cases f.elf64Phdr (ehdr.ePhoff + i * 56) <;> rfl

/-- The linker reads the program headers of a file that the loader reads, if they have the size
    of `Elf64Phdr` and are in the file. -/
theorem libPhdrs_of_table (hheader : f.elf64Ehdr 0 = some ehdr) (helf : ehdr.isElf = true)
    (hdyn : ehdr.eType = etDyn) (hent : ehdr.ePhentsize = 56)
    (htable : ehdr.ePhoff + ehdr.ePhnum * 56 ≤ f.size) (hphs : phdrs f ehdr = some phs)
    (hf : m.Holds data f) (notElf notDyn : ℤ) : libPhdrs m data notElf notDyn = .ok phs := by
  have hread := hf.elf64Ehdr (File.le_size_of_elf64Ehdr hheader)
  rw [Nat.add_zero, hheader] at hread
  have htable' : ehdr.ePhoff + (0 + ehdr.ePhnum) * 56 ≤ f.size := by
    rw [Nat.zero_add]
    exact htable
  have hphs' : phdrsFrom f ehdr ehdr.ePhnum 0 = some phs := hphs
  simp only [libPhdrs, hread, helf, hdyn, phdrsAt_eq hf hent htable', hphs', Bool.not_true]
  rw [if_neg (by simp), if_neg (by simp)]

/-- The linker reads the program headers of a library file that the loader reads. -/
theorem libPhdrs_eq (hlib : LibraryFile f ehdr phs) (hf : m.Holds data f) (notElf notDyn : ℤ) :
    libPhdrs m data notElf notDyn = .ok phs :=
  libPhdrs_of_table hlib.header hlib.isElf hlib.isDyn hlib.entSize hlib.table hlib.phdrs_eq hf
    notElf notDyn

end

/-! ## The bias -/

/-- All addresses of a library that the linker computes are moved by one bias: that of its
    dynamic table, the pointers of the table, the symbols, whatever is in memory when they
    are looked up, the targets of relocations and the TLS template. -/
structure OneBias (m : Memory) (phs : List Elf64Phdr) (map : LinkMap) (bias : ℕ) : Prop where
  dynamic : ∀ ph, phs.find? (·.pType = ptDynamic) = some ph →
    map.dynSection = (ph.pVaddr + bias) % 2 ^ 64
  pointers : ∀ ptr : DynPtr, ptr.get map = 0 ∨ ∃ ds, dynEntries m map.dynSection = some ds ∧
    ∃ d ∈ ds, d.dTag = ptr.tag.value ∧ ptr.get map = (d.dVal + bias) % 2 ^ 64
  symbols : ∀ m' name a, gnuHashLookup m' map name = some a ∨ linearLookup m' map name = some a →
    a ≠ 0 → ∃ idx sym, symbolEntry m' map idx = some sym ∧ a = (sym.stValue + bias) % 2 ^ 64
  targets : ∀ r : Elf64Rela, relaTarget map r = (r.rOffset + bias) % 2 ^ 64
  tls : (tlsSegment phs).memsz ≠ 0 →
    map.tlsTemplate = ((tlsSegment phs).template + bias) % 2 ^ 64

section

variable {m : Memory} {phs : List Elf64Phdr} {map : LinkMap} {loadAddr delta : ℕ} {f : File}
  {ehdr : Elf64Ehdr}

/-- With the load address as the bias of the segments there is one bias. -/
theorem LibraryMap.oneBias (h : LibraryMap m loadAddr loadAddr phs map) :
    OneBias m phs map loadAddr where
  dynamic ph hph := by rw [h.dynSection_eq, libDyn, hph]
  pointers ptr := by
    rcases h.get ptr with heq | ⟨ds, hds, d, hd, htag, heq⟩
    · exact .inl heq
    · exact .inr ⟨ds, hds, d, hd, htag, by rw [heq, Nat.add_comm]⟩
  symbols m' name a hfound ha := by
    have hsym : SymbolAt m' map a := by
      rcases hfound with hfound | hfound
      · exact gnuHashLookup_symbolAt hfound ha
      · exact linearLookup_symbolAt hfound ha
    obtain ⟨idx, sym, hentry, heq⟩ := hsym
    exact ⟨idx, sym, hentry, by rw [heq, symbolAddr, h.base_eq, Nat.add_comm]⟩
  targets r := by rw [relaTarget, h.base_eq, Nat.add_comm]
  tls hne := h.tls hne

/-- The bias can only be the base of the object. -/
theorem OneBias.base_mod {bias : ℕ} (h : OneBias m phs map bias) :
    map.base % 2 ^ 64 = bias % 2 ^ 64 := by
  have htarget := h.targets ⟨0, 0, 0, by decide, by decide⟩
  simpa [relaTarget] using htarget

section

variable (hlib : LibraryFile f ehdr phs) (halign : loadAddr % 4096 = 0)
  (hfits : ∀ ph ∈ phs, ph.isLoad = true → loadAddr + pageAlignUp (ph.pVaddr + ph.pMemsz) < 2 ^ 64)

include hlib halign hfits

/-- The end of the segments, moved to the load address. -/
theorem elfBrk_eq : elfBrk phs loadAddr = loadAddr + maxSegEnd phs := by
  have hseg : ∀ ph ∈ phs, ph.isLoad = true →
      ph.segEnd loadAddr = loadAddr + pageAlignUp (ph.pVaddr + ph.pMemsz) := by
    intro ph hph hl
    have hfit := hfits ph hph hl
    rw [Elf64Phdr.segEnd, Elf64Phdr.segVaddr, pageAlignUp_eq, pageAlignUp_eq]
    rw [pageAlignUp_eq] at hfit
    omega
  obtain ⟨ph, hph, hl⟩ := hlib.load
  have hle : loadAddr ≤ elfBrk phs loadAddr := by
    have hbrk := segEnd_le_elfBrk hph hl loadAddr
    rw [hseg ph hph hl] at hbrk
    omega
  refine Nat.le_antisymm (foldMax_le.2 ⟨Nat.zero_le _, fun ph hph => ?_⟩) ?_
  · obtain ⟨hph, hl⟩ := List.mem_filter.1 hph
    rw [hseg ph hph hl]
    exact Nat.add_le_add_left (le_maxSegEnd hph hl) _
  · have hmax : maxSegEnd phs ≤ elfBrk phs loadAddr - loadAddr := by
      refine foldMax_le.2 ⟨Nat.zero_le _, fun ph hph => ?_⟩
      obtain ⟨hph, hl⟩ := List.mem_filter.1 hph
      have hbrk := segEnd_le_elfBrk hph hl loadAddr
      rw [hseg ph hph hl] at hbrk
      omega
    omega

/-- Both footprints are the span when the library starts at zero. -/
theorem loadFootprint_eq : loadFootprint phs loadAddr loadAddr = maxSegEnd phs := by
  simp only [loadFootprint, elfBrk_eq hlib halign hfits]
  split <;> omega

end

theorem elfBrk_lt (phs : List Elf64Phdr) (delta : ℕ) : elfBrk phs delta < 2 ^ 64 := by
  have hle : elfBrk phs delta ≤ 2 ^ 64 - 4096 :=
    foldMax_le.2 ⟨Nat.zero_le _, fun ph _ => ph.segEnd_le delta⟩
  omega

/-- A footprint that is the span of a library at zero does not leave the address space. -/
theorem fits_of_loadFootprint (hlt : loadAddr < 2 ^ 64)
    (h : loadFootprint phs delta loadAddr = maxSegEnd phs) :
    ∀ ph ∈ phs, ph.isLoad = true → loadAddr + pageAlignUp (ph.pVaddr + ph.pMemsz) < 2 ^ 64 := by
  intro ph hph hl
  have hle := le_maxSegEnd hph hl
  have hbrk := elfBrk_lt phs delta
  simp only [loadFootprint] at h
  split at h <;> omega

end

/-- For every library file and page-aligned load address, loaded from the archive by one run
    and found where the parent has mapped it by another: all pages the linker maps are those
    of the segments, moved by their bias, and

    * the linker moves the segments and all other addresses by one bias, also where the
      parent has mapped the library, and
    * the footprints that the two runs note and the span that the parent computes are equal,

    if and only if the library starts at zero and does not leave the address space. -/
theorem library_bias_iff {cfg cfg₁ : Config} {env : Env} {name objectName name₁ : List UInt8}
    {loadAddr : ℕ} {s s' t t' : State} {cpio : CpioEntry} {f : File} {ehdr : Elf64Ehdr}
    {phs : List Elf64Phdr} (hlib : LibraryFile f ehdr phs) (halign : loadAddr % pageSize = 0)
    (hlt : loadAddr < 2 ^ 64) (hname : makeCanonicalObjectName name = some objectName)
    (hfind : cpioFind (s.memory cfg) cfg.initrdBase cfg.initrdSize objectName = some (some cpio))
    (hf : (s.memory cfg).Holds cpio.data f)
    (hrun : (loadSharedLibrary cfg env name loadAddr).run s = .ok ⟨⟩ s')
    (hmapped : libPhdrs (t.memory cfg₁) loadAddr (-3) (-4) = .ok phs)
    (hrun₁ : (loadPremappedLibrary cfg₁ name₁ loadAddr).run t = .ok ⟨⟩ t') :
    Asks (SegmentPage phs (libDelta loadAddr phs)) s s' ∧
    ∃ map map₁ info, s'.objects = s.objects ++ [map] ∧ t'.objects = t.objects ++ [map₁] ∧
      elfComputeLibInfo f = some (some info) ∧
      (((∃ bias, OneBias (s'.memory cfg) phs map bias ∧ ∀ ph ∈ phs, ph.isLoad = true →
          ph.segVaddr (libDelta loadAddr phs) = (ph.pVaddr + bias) % 2 ^ 64) ∧
        (∃ bias, OneBias (t'.memory cfg₁) phs map₁ bias) ∧
        map.loadSize = info.libSpan ∧ map₁.loadSize = info.libSpan) ↔
      minVaddr phs = 0 ∧ ∀ ph ∈ phs, ph.isLoad = true →
        loadAddr + pageAlignUp (ph.pVaddr + ph.pMemsz) < 2 ^ 64) := by
  have hphs := libPhdrs_eq hlib hf (-4) (-5)
  obtain ⟨hasks, map, hobjects, hmap⟩ := wp_ok (loadSharedLibrary_spec hname hfind hphs) hrun
  obtain ⟨map₁, hobjects₁, hmap₁⟩ := wp_ok (loadPremappedLibrary_spec hmapped) hrun₁
  refine ⟨hasks, map, map₁, _, hobjects, hobjects₁, hlib.libInfo, ?_⟩
  have hdelta : minVaddr phs = 0 → libDelta loadAddr phs = loadAddr ∧
      premappedDelta loadAddr phs = loadAddr ∧
      wsub (maxSegEnd phs) (pageAlignDown (minVaddr phs)) = maxSegEnd phs % 2 ^ 64 := by
    intro hmin
    rw [libDelta, premappedDelta, hmin, pageAlignDown_eq (by decide)]
    unfold wsub
    omega
  have hmaxlt : maxSegEnd phs < 2 ^ 64 := by
    have hle : maxSegEnd phs ≤ 2 ^ 64 - 1 := by
      refine foldMax_le.2 ⟨Nat.zero_le _, fun ph _ => ?_⟩
      rw [pageAlignUp_eq]
      omega
    omega
  constructor
  · rintro ⟨⟨bias, hbias, hsegs⟩, -, hsize, -⟩
    -- The segments fix the bias to theirs, the targets to the load address.
    have hmin : minVaddr phs = 0 := by
      obtain ⟨ph, hph, hl⟩ := hlib.load
      have hseg := hsegs ph hph hl
      have hbase := hbias.base_mod
      have hminlt := hlib.minVaddr_lt
      rw [hmap.base_eq] at hbase
      rw [Elf64Phdr.segVaddr, libDelta] at hseg
      unfold wsub at hseg
      omega
    obtain ⟨-, -, hspan⟩ := hdelta hmin
    have hfoot : loadFootprint phs (libDelta loadAddr phs) loadAddr = maxSegEnd phs := by
      rw [← hmap.loadSize_eq, hsize, hspan, Nat.mod_eq_of_lt hmaxlt]
    exact ⟨hmin, fits_of_loadFootprint hlt hfoot⟩
  · rintro ⟨hmin, hfits⟩
    obtain ⟨hd, hd₁, hspan⟩ := hdelta hmin
    rw [hd] at hmap ⊢
    rw [hd₁] at hmap₁
    have hfoot := loadFootprint_eq hlib halign hfits
    rw [hspan, Nat.mod_eq_of_lt hmaxlt]
    refine ⟨⟨loadAddr, hmap.oneBias, fun ph _ _ => rfl⟩, ⟨loadAddr, hmap₁.oneBias⟩, ?_, ?_⟩
    · rw [hmap.loadSize_eq, hfoot]
    · rw [hmap₁.loadSize_eq, hfoot]

/-! ## A library in an archive -/

/-- A library of one segment, with a dynamic table that has a symbol table. -/
def libImage (vaddr : ℕ) : File where
  bytes := ehdrBytes etDyn 2 ++ phdrBytes ptLoad 5 0 vaddr 208 208 ++
    phdrBytes ptDynamic 4 176 (vaddr + 176) 32 32 ++
    wordBytes 8 dtSymtab ++ wordBytes 8 (vaddr + 64) ++ wordBytes 16 0
  length_lt := by simp [ehdrBytes, phdrBytes, wordBytes]

/-- An archive with the library, under the name `lib/a`. -/
def libArchive (vaddr : ℕ) : File where
  bytes := cpioMagic ++ List.replicate 54 0x30 ++ [0x44, 0x30] ++ List.replicate 39 0x30 ++
    [0x36] ++ List.replicate 8 0x30 ++ initrdLibPrefix ++ [0x61, 0] ++ (libImage vaddr).bytes
  length_lt := by simp [libImage, cpioMagic, initrdLibPrefix, ehdrBytes, phdrBytes, wordBytes]

/-- The archive is at an address of its own, and no library was mapped by the parent. -/
def archiveConfig : Config := ⟨0x100000, 324, 0, by decide⟩

/-- A linker without objects, with a file in memory. -/
def startState (a : ℕ) (f : File) : State where
  given := .ofFile a f
  frames _ _ := 0
  vspace _ := none
  pages := []
  objects := []
  untyped := 16
  nextFrameSlot := 100
  log := []

/-- A kernel that agrees to everything. -/
def Env.quiet : Env := ⟨fun _ _ => 0, fun _ => 0, fun _ => 0, fun _ => 0, fun _ => 0⟩

/-- The header of the library at zero. -/
def libEhdr : Elf64Ehdr := ((libImage 0).elf64Ehdr 0).get (by decide +kernel)

/-- The program headers of the library at zero. -/
def libPhs : List Elf64Phdr := (phdrs (libImage 0) libEhdr).get (by decide +kernel)

theorem libImage_libraryFile : LibraryFile (libImage 0) libEhdr libPhs where
  header := (Option.some_get _).symm
  isElf := by decide +kernel
  isDyn := by decide +kernel
  entSize := by decide +kernel
  table := by decide +kernel
  phdrs_eq := (Option.some_get _).symm
  load := by decide +kernel
  noWrap := by decide +kernel

theorem library_bias_iff_libImage : ∃ s' map,
    (loadSharedLibrary archiveConfig .quiet [0x61] 0x400000).run
      (startState 0x100000 (libArchive 0)) = .ok ⟨⟩ s' ∧ s'.objects = [map] ∧
    ∃ bias, OneBias (s'.memory archiveConfig) libPhs map bias := by
  have hwp : wp (loadSharedLibrary archiveConfig .quiet [0x61] 0x400000) (fun _ _ => True)
      (fun _ _ => False) (startState 0x100000 (libArchive 0)) := by decide +kernel
  have hwp₁ : wp (loadPremappedLibrary archiveConfig [0x61] 0x400000) (fun _ _ => True)
      (fun _ _ => False) (startState 0x400000 (libImage 0)) := by decide +kernel
  obtain ⟨_, s', hrun, -⟩ := wp_exists_ok hwp
  obtain ⟨_, t', hrun₁, -⟩ := wp_exists_ok hwp₁
  have hf : ((startState 0x100000 (libArchive 0)).memory archiveConfig).Holds 0x100074
      (libImage 0) :=
    Memory.ofFile_holds rfl (by decide +kernel) (by decide +kernel)
  have hf₁ : ((startState 0x400000 (libImage 0)).memory archiveConfig).Holds 0x400000
      (libImage 0) :=
    Memory.ofFile_holds (List.nil_append _).symm rfl (by decide +kernel)
  have hfind : cpioFind ((startState 0x100000 (libArchive 0)).memory archiveConfig)
      archiveConfig.initrdBase archiveConfig.initrdSize [0x6C, 0x69, 0x62, 0x2F, 0x61] =
        some (some ⟨0x10006E, 5, 0x100074, 208⟩) := by decide +kernel
  obtain ⟨-, map, map₁, info, hobjects, -, -, hiff⟩ := library_bias_iff libImage_libraryFile
    (by decide) (by decide) (by decide) hfind hf hrun
    (libPhdrs_eq libImage_libraryFile hf₁ (-3) (-4)) hrun₁
  obtain ⟨⟨bias, hbias, -⟩, -⟩ := hiff.2 ⟨by decide +kernel, by decide +kernel⟩
  exact ⟨s', map, hrun, hobjects, bias, hbias⟩

/-- The program headers of the library at the second page. -/
def shiftedPhs : List Elf64Phdr :=
  resultOf (libPhdrs (.ofFile 0 (libImage 0x1000)) 0 (-4) (-5)) (by decide +kernel)

/-- The library at the second page is loaded, but the symbol table is taken to be a page
    above its place: there is no bias for both tables. -/
theorem library_bias_lost :
    wp (loadSharedLibrary archiveConfig .quiet [0x61] 0x400000)
      (fun _ s' => ∃ map, s'.objects = [map] ∧ map.dynSection = 0x400000 + 176 ∧
        map.symtab = 0x401000 + 64 ∧
        ¬∃ bias, OneBias (s'.memory archiveConfig) shiftedPhs map bias)
      (fun _ _ => False) (startState 0x100000 (libArchive 0x1000)) := by
  have hwp : wp (loadSharedLibrary archiveConfig .quiet [0x61] 0x400000)
      (fun _ s' => s'.objects.map (fun map => (map.base, map.dynSection, map.symtab)) =
        [(0x400000, 0x400000 + 176, 0x401000 + 64)])
      (fun _ _ => False) (startState 0x100000 (libArchive 0x1000)) := by decide +kernel
  have hdyn :
      (shiftedPhs.find? (·.pType = ptDynamic)).map Elf64Phdr.pVaddr = some (0x1000 + 176) := by
    decide +kernel
  obtain ⟨ph, hph, hvaddr⟩ := Option.map_eq_some_iff.1 hdyn
  refine wp_post hwp fun _ s' h => ?_
  obtain ⟨map, hobjects, hfields⟩ := List.map_eq_singleton_iff.1 h
  simp only [Prod.mk.injEq] at hfields
  obtain ⟨hbase, hdynSection, hsymtab⟩ := hfields
  refine ⟨map, hobjects, hdynSection, hsymtab, fun hbias => ?_⟩
  obtain ⟨bias, hbias⟩ := hbias
  have htarget := hbias.base_mod
  have hdynamic := hbias.dynamic ph hph
  rw [hbase] at htarget
  rw [hdynSection, hvaddr] at hdynamic
  omega

end Rtld

end Trona
