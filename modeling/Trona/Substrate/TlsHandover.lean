import Mathlib.Data.List.GetD
import Trona.Substrate.Tls

/-!
# The hand-over of static TLS

`export_static_tls_layout` (`rtld/elf/rtld_main.c`) stores the layout in the variables of libtrona.
A `Process` is what it works on: the objects, and the variables, which are found and apart from
each other. The hand-over is right (`HandsOver`) exactly when what the linker stores after the end
of the table is there already (`handsOver_iff`), and then the variables are read as they were meant
(`handed`).
-/

namespace Trona

namespace Tls

open Rtld Bytes

/-! ## A process -/

/-- The ranges of the variables of libtrona. The table is for `MAX_STATIC_TLS_MODULES` entries. -/
def ownRanges (vars : TlsSymbols) : List Range :=
  [⟨vars.template, 8⟩, ⟨vars.filesz, 8⟩, ⟨vars.memsz, 8⟩, ⟨vars.align, 8⟩, ⟨vars.moduleCount, 8⟩,
    ⟨vars.modules, tlsModuleSize * maxStaticTlsModules⟩]

/-- A process with its objects: what the linker knows of their thread-local data, and where the
    variables of libtrona are. -/
structure Process where
  arch : Arch
  maps : List LinkMap
  vars : TlsSymbols
  exeVaddr : ℕ
  exeFilesz : ℕ
  length_le : maps.length ≤ rtldMaxObjects
  ok : ∀ map ∈ maps, map.TlsOk
  fits : tlsEnd arch (TlsTotals.start arch).total maps < 2 ^ 63
  found : ∀ r ∈ ownRanges vars, r.base ≠ 0
  apart : (ownRanges vars).Pairwise Range.Apart

namespace Process

variable (p : Process)

/-- The layout that the linker has made. -/
def layout : TlsLayout := finalizeStaticTlsLayout p.arch p.maps

/-- The objects with thread-local data, as they are in the table. -/
def modules : List TlsModule := tlsModules p.layout.maps

/-- Memory after the hand-over. -/
def exported (mem : Bytes) : Bytes :=
  exportStaticTlsLayout p.vars p.exeVaddr p.exeFilesz p.layout mem

/-- What is stored in the variables other than the table. -/
def scalars : List Store :=
  [(p.vars.template, wordBytes 8 p.exeVaddr), (p.vars.filesz, wordBytes 8 p.exeFilesz),
    (p.vars.memsz, wordBytes 8 p.layout.memsz), (p.vars.align, wordBytes 8 p.layout.align),
    (p.vars.moduleCount, wordBytes 8 p.layout.moduleCount)]

/-- What is to be stored: the table as far as libtrona has room for it. -/
def stores : List Store :=
  p.scalars ++
    [(p.vars.modules, (tableBytes p.modules).take (tlsModuleSize * maxStaticTlsModules))]

/-- The hand-over has changed the variables of libtrona and nothing else. -/
structure HandsOver (mem : Bytes) : Prop where
  unchanged : ∀ i, (∀ r ∈ ownRanges p.vars, ¬r.Contains i) → p.exported mem i = mem i
  stored : ∀ s ∈ p.stores, (p.exported mem).slice s.1 s.2.length = s.2

/-- What the linker copies to the end of the table, beyond what libtrona has room for, is what
    is there already. -/
def TailInPlace (mem : Bytes) : Prop :=
  (putAll p.scalars mem).slice (p.vars.modules + tlsModuleSize * maxStaticTlsModules)
      (tlsModuleSize * (rtldMaxObjects - maxStaticTlsModules)) =
    (tableBytes p.modules).drop (tlsModuleSize * maxStaticTlsModules)

end Process

/-! ## The table -/

theorem length_tlsTable (mods : List TlsModule) : (tlsTable mods).length = rtldMaxObjects := by
  rw [tlsTable, List.length_append, List.length_take, List.length_replicate]
  omega

theorem length_moduleBytes (mod : TlsModule) : mod.bytes.length = tlsModuleSize := by
  simp [TlsModule.bytes, tlsModuleSize]

theorem length_tableBytes (mods : List TlsModule) :
    (tableBytes mods).length = tlsModuleSize * rtldMaxObjects := by
  rw [tableBytes, List.length_flatMap, List.map_congr_left fun mod _ => length_moduleBytes mod,
    List.map_const', List.sum_replicate_nat, length_tlsTable, Nat.mul_comm]

theorem length_finalizeMaps {arch : Arch} {t : TlsTotals} {maps : List LinkMap} :
    (finalizeMaps arch t maps).2.length = maps.length := by
  induction maps generalizing t with
  | nil => rfl
  | cons map maps ih => exact congrArg (· + 1) ih

namespace Process

variable (p : Process)

theorem length_modules_le : p.modules.length ≤ rtldMaxObjects := by
  refine le_trans ?_ p.length_le
  rw [modules, tlsModules, List.length_map]
  exact (List.length_filter_le _ _).trans length_finalizeMaps.le

theorem exported_eq (mem : Bytes) :
    p.exported mem = put p.vars.modules (tableBytes p.modules) (putAll p.scalars mem) := by
  have hfound := p.found
  simp only [ownRanges, List.forall_mem_cons] at hfound
  obtain ⟨htemplate, hfilesz, hmemsz, halign, hcount, hmodules, -⟩ := hfound
  rw [exported, exportStaticTlsLayout, storeIn, if_pos hmodules]
  simp only [exportScalars, storeIn, if_pos htemplate, if_pos hfilesz, if_pos hmemsz, if_pos halign,
    if_pos hcount]
  rfl

/-- What is stored has the ranges of the variables. -/
theorem map_range_stores : p.stores.map Store.range = ownRanges p.vars := by
  simp [stores, scalars, Store.range, ownRanges, length_tableBytes, tlsModuleSize,
    maxStaticTlsModules, rtldMaxObjects]

theorem stores_pairwise : p.stores.Pairwise fun s s' => s.range.Apart s'.range := by
  have hapart := p.apart
  rwa [← p.map_range_stores, List.pairwise_map] at hapart

theorem scalars_pairwise : p.scalars.Pairwise fun s s' => s.range.Apart s'.range :=
  (List.pairwise_append.1 p.stores_pairwise).1

theorem outside_iff {i : ℕ} :
    (∀ r ∈ ownRanges p.vars, ¬r.Contains i) ↔ ∀ s ∈ p.stores, ¬s.range.Contains i := by
  rw [← p.map_range_stores, List.forall_mem_map]

theorem length_take_tableBytes :
    ((tableBytes p.modules).take (tlsModuleSize * maxStaticTlsModules)).length =
      tlsModuleSize * maxStaticTlsModules := by
  rw [List.length_take, length_tableBytes]
  rfl

/-- When the end of the table is in place, no more is stored than is to be. -/
theorem exported_eq_putAll {mem : Bytes} (h : p.TailInPlace mem) :
    p.exported mem = putAll p.stores mem := by
  rw [exported_eq,
    ← List.take_append_drop (tlsModuleSize * maxStaticTlsModules) (tableBytes p.modules),
    put_append, length_take_tableBytes, stores, putAll_concat]
  refine put_eq_self ?_
  rw [List.length_drop, length_tableBytes, ← Nat.mul_sub]
  refine Eq.trans (List.map_congr_left fun i _ => put_outside (.inr ?_)) h
  rw [length_take_tableBytes]
  exact Nat.le_add_right ..

/-- The hand-over is right exactly when the end of the table is in place before. -/
theorem handsOver_iff {mem : Bytes} : p.HandsOver mem ↔ p.TailInPlace mem := by
  constructor
  · intro h
    -- the bytes after the table are those of another variable, or are to stay as they are
    have hscalars : ∀ i, p.vars.modules + tlsModuleSize * maxStaticTlsModules ≤ i →
        putAll p.scalars mem i = p.exported mem i := by
      intro i hi
      by_cases hout : ∀ s ∈ p.stores, ¬s.range.Contains i
      · rw [h.unchanged i (p.outside_iff.2 hout)]
        exact putAll_outside fun s hs => hout s (List.mem_append_left _ hs)
      · obtain ⟨s, hs, hmem⟩ : ∃ s ∈ p.stores, s.range.Contains i := by
          simpa only [not_forall, not_not, exists_prop] using hout
        rcases List.mem_append.1 hs with hscalar | htable
        · refine eq_of_slice ?_ hmem
          rw [h.stored s hs, slice_putAll p.scalars_pairwise hscalar]
        · obtain rfl := List.mem_singleton.1 htable
          have hlt := hmem.2
          simp only [Store.range, length_take_tableBytes] at hlt
          omega
    have htable : (p.exported mem).slice p.vars.modules (tlsModuleSize * rtldMaxObjects) =
        tableBytes p.modules := by
      rw [exported_eq, ← length_tableBytes p.modules, slice_put]
    rw [TailInPlace, slice, List.map_congr_left fun i _ => hscalars _ (Nat.le_add_right _ i),
      ← slice, slice_slice (n := tlsModuleSize * rtldMaxObjects) (by decide), htable]
    refine List.take_of_length_le (le_of_eq ?_)
    rw [List.length_drop, length_tableBytes, Nat.mul_sub]
  · intro htail
    have heq := p.exported_eq_putAll htail
    refine ⟨fun i hi => ?_, fun s hs => ?_⟩
    · rw [heq, putAll_outside (p.outside_iff.1 hi)]
    · rw [heq, slice_putAll p.stores_pairwise hs]

end Process

/-! ## Reading the variables -/

theorem word_of_wordBytes {m : Bytes} {a v : ℕ} (h : m.slice a 8 = wordBytes 8 v)
    (hv : v < 2 ^ 64) : m.word a = v := by
  rw [word, h, leNat_wordBytes]
  exact Nat.mod_eq_of_lt hv

/-- The numbers in an entry are words. -/
structure WordSized (mod : TlsModule) : Prop where
  moduleId : mod.moduleId < 2 ^ 64
  template : mod.templateAddr < 2 ^ 64
  filesz : mod.filesz < 2 ^ 64
  memsz : mod.memsz < 2 ^ 64
  tpoff_ge : -2 ^ 63 ≤ mod.tpoff
  tpoff_lt : mod.tpoff < 2 ^ 63

theorem tpWord_bmod {mod : TlsModule} (h : WordSized mod) :
    Int.bmod (tpWord mod) (2 ^ 64) = mod.tpoff := by
  have hge := h.tpoff_ge
  have hlt := h.tpoff_lt
  rw [tpWord, Int.toNat_of_nonneg (Int.emod_nonneg _ (by decide))]
  refine (Int.emod_bmod ..).trans (Int.bmod_eq_of_le ?_ ?_)
  · exact hge
  · exact hlt

/-- The words of an entry. -/
def moduleWords (mod : TlsModule) : List ℕ :=
  [mod.moduleId, mod.templateAddr, mod.filesz, mod.memsz, tpWord mod]

theorem moduleBytes_eq (mod : TlsModule) : mod.bytes = (moduleWords mod).flatMap (wordBytes 8) := by
  simp [TlsModule.bytes, moduleWords, tpWord]

/-- An entry is read as it was stored. -/
theorem readModule_eq {m : Bytes} {a : ℕ} {mod : TlsModule}
    (h : m.slice a tlsModuleSize = mod.bytes) (hmod : WordSized mod) : readModule m a = mod := by
  have htp : tpWord mod < 2 ^ 64 := by
    rw [tpWord]
    omega
  have hword : ∀ i < 5, (moduleWords mod).getD i 0 < 2 ^ 64 →
      m.word (a + 8 * i) = (moduleWords mod).getD i 0 := by
    intro i hi hlt
    rw [word, slice_slice (n := tlsModuleSize) (by simp only [tlsModuleSize]; omega), h,
      moduleBytes_eq, take_drop_flatMap 0 (fun v => length_wordBytes 8 v) hi, leNat_wordBytes]
    exact Nat.mod_eq_of_lt hlt
  have hid : m.word a = mod.moduleId := hword 0 (by decide) hmod.moduleId
  have htemplate : m.word (a + 8) = mod.templateAddr := hword 1 (by decide) hmod.template
  have hfilesz : m.word (a + 16) = mod.filesz := hword 2 (by decide) hmod.filesz
  have hmemsz : m.word (a + 24) = mod.memsz := hword 3 (by decide) hmod.memsz
  have htpoff : m.word (a + 32) = tpWord mod := hword 4 (by decide) htp
  rw [readModule, hid, htemplate, hfilesz, hmemsz, htpoff, tpWord_bmod hmod]

namespace Process

variable (p : Process)

/-- The variables of the loop of the linker at its end. -/
def totals : TlsTotals := (finalizeMaps p.arch (.start p.arch) p.maps).1

theorem total_lt :
    p.totals.total < 2 ^ 63 ∧ Rtld.Laid p.arch (.start p.arch) p.totals p.modules := by
  have hstart : 0 < (TlsTotals.start p.arch).moduleId ∧
      (p.arch = .aarch64 → 0 < (TlsTotals.start p.arch).total) := by
    cases p.arch <;> exact ⟨by decide, by decide⟩
  obtain ⟨htotal, hlaid⟩ := finalizeMaps_laid p.ok p.fits hstart.1 hstart.2
  exact ⟨htotal.trans_lt p.fits, hlaid⟩

theorem laid : Rtld.Laid p.arch (.start p.arch) p.totals p.modules := p.total_lt.2

/-- The size that is handed over does not count the header. -/
theorem memsz_add : p.layout.memsz + abiTcbSize p.arch = p.totals.total := by
  have hlt := p.total_lt.1
  have hle := p.laid.total_le
  cases harch : p.arch with
  | x86_64 => simp only [layout, finalizeStaticTlsLayout, totals, harch, abiTcbSize, Nat.add_zero]
  | aarch64 =>
    have hmemsz : p.layout.memsz = wsub p.totals.total 16 := by
      simp only [layout, finalizeStaticTlsLayout, totals, harch]
    rw [harch] at hle
    change 16 ≤ p.totals.total at hle
    rw [hmemsz, wsub_eq hle (by omega)]
    exact Nat.sub_add_cancel hle

theorem memsz_lt : p.layout.memsz < 2 ^ 64 := by
  have hlt := p.total_lt.1
  have hadd := p.memsz_add
  omega

theorem moduleCount_eq : p.layout.moduleCount = p.modules.length := by
  have hid : p.totals.moduleId = (TlsTotals.start p.arch).moduleId + p.modules.length :=
    p.laid.moduleId
  have hstart : (TlsTotals.start p.arch).moduleId = 1 := by cases p.arch <;> rfl
  change p.totals.moduleId - 1 = _
  omega

theorem exists_align : ∃ k < 64, p.layout.align = 2 ^ k := by
  refine p.laid.align_pow ?_
  cases p.arch
  · exact ⟨0, by decide, rfl⟩
  · exact ⟨4, by decide, rfl⟩

theorem align_lt : p.layout.align < 2 ^ 64 := by
  obtain ⟨k, hk, halign⟩ := p.exists_align
  rw [halign]
  exact Nat.pow_lt_pow_right (by decide) hk

/-- The objects are numbered from 1 on, in their order. -/
theorem moduleId_eq {i : ℕ} (hi : i < p.modules.length) :
    (p.modules.get ⟨i, hi⟩).moduleId = i + 1 := by
  have hstart : (TlsTotals.start p.arch).moduleId = 1 := by cases p.arch <;> rfl
  have hids := congrArg (·[i]?) p.laid.ids
  simp only [List.getElem?_map, List.getElem?_eq_getElem hi, Option.map_some,
    List.getElem?_range' hi, hstart] at hids
  have hid := Option.some.inj hids
  simp only [List.get_eq_getElem]
  omega

/-- An object is inside of the total. -/
theorem inside {mod : TlsModule} (hmod : mod ∈ p.modules) :
    match p.arch with
    | .x86_64 => -(p.layout.memsz : ℤ) ≤ mod.tpoff ∧ mod.tpoff + mod.memsz ≤ 0
    | .aarch64 => 16 ≤ mod.tpoff ∧ mod.tpoff + mod.memsz ≤ 16 + p.layout.memsz := by
  have hin := p.laid.inside mod hmod
  have hmemsz := p.memsz_add
  revert hin hmemsz
  cases p.arch <;> simp only [Inside, TlsTotals.start, abiTcbSize] <;> intro hin hmemsz <;> omega

theorem memsz_eq_zero (hnil : p.modules = []) : p.layout.memsz = 0 := by
  have hempty := p.laid.empty hnil
  have hmemsz := p.memsz_add
  revert hempty hmemsz
  cases p.arch <;> simp only [TlsTotals.start, abiTcbSize] <;> omega

theorem memsz_pos (hne : p.modules ≠ []) : 0 < p.layout.memsz := by
  obtain ⟨mod, hmod⟩ := List.exists_mem_of_ne_nil _ hne
  have hin := p.inside hmod
  have hpos := (p.laid.ok mod hmod).memsz_pos
  revert hin
  cases p.arch <;> simp only <;> omega

theorem wordSized {mod : TlsModule} (hmod : mod ∈ p.modules) : WordSized mod := by
  obtain ⟨i, rfl⟩ := List.mem_iff_get.1 hmod
  have hid : (p.modules.get i).moduleId = i + 1 := p.moduleId_eq i.2
  have hok := p.laid.ok _ hmod
  have hin := p.laid.inside _ hmod
  have hlen := p.length_modules_le
  have hlt := p.total_lt.1
  simp only [rtldMaxObjects] at hlen
  refine ⟨?_, hok.template_lt, hok.filesz_le.trans_lt hok.memsz_lt, hok.memsz_lt, ?_, ?_⟩
  · omega
  · revert hin
    cases p.arch <;> simp only [Inside] <;> omega
  · have hpos := hok.memsz_pos
    revert hin
    cases p.arch <;> simp only [Inside] <;> omega

/-- The variables of libtrona have their values. -/
structure Handed (m : Bytes) : Prop where
  memsz : m.word p.vars.memsz = p.layout.memsz
  align : m.word p.vars.align = p.layout.align
  count : m.word p.vars.moduleCount = p.modules.length
  table : ∀ i < maxStaticTlsModules, staticTlsModule p.vars m i = p.modules.getD i .zeroed

/-- The numbers of unused entries are words too. -/
theorem wordSized_getD (i : ℕ) : WordSized (p.modules.getD i .zeroed) := by
  by_cases hi : i < p.modules.length
  · rw [List.getD_eq_getElem _ _ hi]
    exact p.wordSized (List.getElem_mem hi)
  · rw [List.getD_eq_default _ _ (Nat.le_of_not_lt hi)]
    exact ⟨by decide, by decide, by decide, by decide, by decide, by decide⟩

theorem getD_tlsTable (i : ℕ) : (tlsTable p.modules).getD i .zeroed = p.modules.getD i .zeroed := by
  rw [tlsTable, List.take_of_length_le p.length_modules_le]
  by_cases hi : i < p.modules.length
  · rw [List.getD_append _ _ _ _ hi]
  · rw [List.getD_append_right _ _ _ _ (Nat.le_of_not_lt hi),
      List.getD_eq_default _ _ (Nat.le_of_not_lt hi), List.getD_eq_getElem?_getD,
      List.getElem?_getD_replicate_default_eq]

/-- After the hand-over, and as long as the variables stay as they are, they have their
    values. -/
theorem handed {mem m : Bytes} (h : p.HandsOver mem)
    (hsame : SameOn (ownRanges p.vars) (p.exported mem) m) : p.Handed m := by
  have hslice : ∀ s ∈ p.stores, m.slice s.1 s.2.length = s.2 := by
    intro s hs
    have hrange : s.range ∈ ownRanges p.vars := p.map_range_stores ▸ List.mem_map_of_mem hs
    exact (hsame.slice hrange le_rfl le_rfl).trans (h.stored s hs)
  have hword : ∀ a v, (a, wordBytes 8 v) ∈ p.stores → v < 2 ^ 64 → m.word a = v := by
    intro a v hs hv
    exact word_of_wordBytes (by simpa using hslice _ hs) hv
  have hlen := p.length_modules_le
  refine ⟨hword _ _ (by simp [stores, scalars]) p.memsz_lt,
    hword _ _ (by simp [stores, scalars]) p.align_lt, ?_, ?_⟩
  · rw [← p.moduleCount_eq]
    refine hword _ _ (by simp [stores, scalars]) ?_
    rw [p.moduleCount_eq]
    simp only [rtldMaxObjects] at hlen
    omega
  · intro i hi
    have htable := hslice _ (List.mem_append_right _ (List.mem_singleton_self _))
    refine readModule_eq ?_ (p.wordSized_getD i)
    have hend : tlsModuleSize * i + tlsModuleSize ≤ tlsModuleSize * maxStaticTlsModules := by
      exact Nat.mul_le_mul_left _ hi
    rw [length_take_tableBytes] at htable
    rw [slice_slice hend, htable, List.drop_take, List.take_take, Nat.min_eq_left (by omega),
      tableBytes, take_drop_flatMap .zeroed length_moduleBytes
        (by rw [length_tlsTable]; exact hi.trans (by decide)), p.getD_tlsTable]

end Process

end Tls

end Trona
