import Trona.Lib.Stores
import Trona.Rtld.Library

/-!
# The layout of static TLS

`finalize_static_tls_layout` (`rtld/elf/rtld_main.c`) gives each object with thread-local data
its place relative to the thread pointer: on x86-64 below it, on AArch64 above a header of two
words. `export_static_tls_layout` hands the result over to libtrona.

The places are described by `Laid`: the objects are apart from each other, in the order of the
list, and inside of the total.
-/

namespace Trona

namespace Rtld

/-! ## The layout -/

/-- The variables of the loop over the objects. -/
structure TlsTotals where
  total : ℕ
  maxAlign : ℕ
  moduleId : ℕ

def TlsTotals.start : Arch → TlsTotals
  | .x86_64 => ⟨0, 1, 1⟩
  | .aarch64 => ⟨16, 16, 1⟩

/-- The alignment of the thread-local data of an object. -/
def LinkMap.alignment (map : LinkMap) : ℕ := if map.tlsAlign ≠ 0 then map.tlsAlign else 1

/-- Round up to the alignment, as a word. -/
def LinkMap.rounded (map : LinkMap) (v : ℕ) : ℕ :=
  if map.alignment > 1 then alignUp map.alignment v else v

/-- The body of the loop. -/
def finalizeMap (arch : Arch) (t : TlsTotals) (map : LinkMap) : TlsTotals × LinkMap :=
  if map.tlsMemsz = 0 then (t, { map with tlsModuleId := 0, tlsTpoff := 0 })
  else
    let maxAlign := if map.alignment > t.maxAlign then map.alignment else t.maxAlign
    match arch with
    | .aarch64 =>
      let start := map.rounded t.total
      (⟨(start + map.tlsMemsz) % 2 ^ 64, maxAlign, t.moduleId + 1⟩,
        { map with tlsModuleId := t.moduleId, tlsTpoff := Int.bmod start (2 ^ 64) })
    | .x86_64 =>
      let total := map.rounded ((t.total + map.tlsMemsz) % 2 ^ 64)
      (⟨total, maxAlign, t.moduleId + 1⟩,
        -- the negation of a signed word, which wraps at the least one
        { map with
          tlsModuleId := t.moduleId, tlsTpoff := Int.bmod (-Int.bmod total (2 ^ 64)) (2 ^ 64) })

def finalizeMaps (arch : Arch) : TlsTotals → List LinkMap → TlsTotals × List LinkMap
  | t, [] => (t, [])
  | t, map :: maps =>
    let p := finalizeMap arch t map
    let q := finalizeMaps arch p.1 maps
    (q.1, p.2 :: q.2)

/-- What is known of the layout at the end. -/
structure TlsLayout where
  memsz : ℕ
  align : ℕ
  moduleCount : ℕ
  maps : List LinkMap

def finalizeStaticTlsLayout (arch : Arch) (maps : List LinkMap) : TlsLayout :=
  let p := finalizeMaps arch (.start arch) maps
  { memsz :=
      match arch with
      | .aarch64 => wsub p.1.total 16
      | .x86_64 => p.1.total
    align := p.1.maxAlign
    moduleCount := p.1.moduleId - 1
    maps := p.2 }

/-! ## The table for libtrona -/

/-- `struct rtld_tls_module`, and `StaticTlsModule` of libtrona. -/
structure TlsModule where
  moduleId : ℕ
  templateAddr : ℕ
  filesz : ℕ
  memsz : ℕ
  tpoff : ℤ
  deriving DecidableEq

def LinkMap.tlsModule (map : LinkMap) : TlsModule :=
  ⟨map.tlsModuleId, map.tlsTemplate, map.tlsFilesz, map.tlsMemsz, map.tlsTpoff⟩

/-- The objects that have thread-local data. -/
def tlsModules (maps : List LinkMap) : List TlsModule :=
  (maps.filter fun map => map.tlsModuleId ≠ 0).map LinkMap.tlsModule

/-- The size of an entry of the table. -/
def tlsModuleSize : ℕ := 40

/-- An entry of the table in memory. -/
def TlsModule.bytes (mod : TlsModule) : List UInt8 :=
  wordBytes 8 mod.moduleId ++ wordBytes 8 mod.templateAddr ++ wordBytes 8 mod.filesz ++
    wordBytes 8 mod.memsz ++ wordBytes 8 (mod.tpoff % 2 ^ 64).toNat

/-- An entry that is not used. -/
def TlsModule.zeroed : TlsModule := ⟨0, 0, 0, 0, 0⟩

/-- The table of the linker: the objects that have thread-local data, and zero after them. -/
def tlsTable (mods : List TlsModule) : List TlsModule :=
  mods.take rtldMaxObjects ++ List.replicate (rtldMaxObjects - mods.length) .zeroed

def tableBytes (mods : List TlsModule) : List UInt8 := (tlsTable mods).flatMap TlsModule.bytes

/-- The addresses of the variables of libtrona, as they are found by their names; zero for one
    that is not found. -/
structure TlsSymbols where
  template : ℕ
  filesz : ℕ
  memsz : ℕ
  align : ℕ
  moduleCount : ℕ
  modules : ℕ

/-- Store bytes in a variable, if it is found. -/
def storeIn (addr : ℕ) (bs : List UInt8) (m : Bytes) : Bytes :=
  if addr ≠ 0 then m.put addr bs else m

/-- Store all but the table. The executable has its template at `exeVaddr`, with `exeFilesz`
    bytes. -/
def exportScalars (syms : TlsSymbols) (exeVaddr exeFilesz : ℕ) (layout : TlsLayout) (m : Bytes) :
    Bytes :=
  let m := storeIn syms.template (wordBytes 8 exeVaddr) m
  let m := storeIn syms.filesz (wordBytes 8 exeFilesz) m
  let m := storeIn syms.memsz (wordBytes 8 layout.memsz) m
  let m := storeIn syms.align (wordBytes 8 layout.align) m
  storeIn syms.moduleCount (wordBytes 8 layout.moduleCount) m

/-- Hand the layout over: store it in the variables of libtrona. The table is copied with the
    size that it has in the linker. -/
def exportStaticTlsLayout (syms : TlsSymbols) (exeVaddr exeFilesz : ℕ) (layout : TlsLayout)
    (m : Bytes) : Bytes :=
  storeIn syms.modules (tableBytes (tlsModules layout.maps))
    (exportScalars syms exeVaddr exeFilesz layout m)

/-! ## The places of the objects -/

/-- The total after an object, with no bound. -/
def LinkMap.tlsEnd (arch : Arch) (total : ℕ) (map : LinkMap) : ℕ :=
  if map.tlsMemsz = 0 then total
  else
    match arch with
    | .aarch64 => roundUp map.alignment total + map.tlsMemsz
    | .x86_64 => roundUp map.alignment (total + map.tlsMemsz)

/-- The place of an object relative to the thread pointer, with no bound. -/
def LinkMap.tlsPlace (arch : Arch) (total : ℕ) (map : LinkMap) : ℤ :=
  match arch with
  | .aarch64 => roundUp map.alignment total
  | .x86_64 => -(roundUp map.alignment (total + map.tlsMemsz) : ℤ)

/-- The total after some objects. -/
def tlsEnd (arch : Arch) (total : ℕ) (maps : List LinkMap) : ℕ :=
  maps.foldl (LinkMap.tlsEnd arch) total

/-- The alignment is none or a power of two. -/
def LinkMap.PowAlign (map : LinkMap) : Prop := map.tlsAlign = 0 ∨ ∃ k < 64, map.tlsAlign = 2 ^ k

/-- The headers of an object for thread-local data make sense. -/
structure LinkMap.TlsOk (map : LinkMap) : Prop where
  filesz_le : map.tlsFilesz ≤ map.tlsMemsz
  align : map.tlsAlign = 0 ∨ ∃ k < 64, map.tlsAlign = 2 ^ k
  memsz_lt : map.tlsMemsz < 2 ^ 64
  template_lt : map.tlsTemplate < 2 ^ 64

/-- An entry of the table makes sense. -/
structure TlsModule.Ok (mod : TlsModule) : Prop where
  memsz_pos : 0 < mod.memsz
  filesz_le : mod.filesz ≤ mod.memsz
  memsz_lt : mod.memsz < 2 ^ 64
  template_lt : mod.templateAddr < 2 ^ 64

/-- Of two objects, the one that comes first is nearer to the thread pointer. -/
def Nearer : Arch → TlsModule → TlsModule → Prop
  | .x86_64, p, q => q.tpoff + q.memsz ≤ p.tpoff
  | .aarch64, p, q => p.tpoff + p.memsz ≤ q.tpoff

/-- The part of the total from `t` to `t'`, relative to the thread pointer. -/
def Inside (arch : Arch) (t t' : ℕ) (mod : TlsModule) : Prop :=
  match arch with
  | .x86_64 => -(t' : ℤ) ≤ mod.tpoff ∧ mod.tpoff + mod.memsz ≤ -(t : ℤ)
  | .aarch64 => (t : ℤ) ≤ mod.tpoff ∧ mod.tpoff + mod.memsz ≤ (t' : ℤ)

/-- Objects are laid out between two states of the loop. -/
structure Laid (arch : Arch) (t t' : TlsTotals) (mods : List TlsModule) : Prop where
  total_le : t.total ≤ t'.total
  inside : ∀ mod ∈ mods, Inside arch t.total t'.total mod
  nearer : mods.Pairwise (Nearer arch)
  ids : mods.map TlsModule.moduleId = List.range' t.moduleId mods.length
  moduleId : t'.moduleId = t.moduleId + mods.length
  ok : ∀ mod ∈ mods, mod.Ok
  last : arch = .x86_64 → ∀ mod ∈ mods.getLast?, mod.tpoff = -(t'.total : ℤ)
  empty : mods = [] → t'.total = t.total
  align_le : t'.maxAlign ≤ max t.maxAlign t'.total
  align_pow : (∃ k < 64, t.maxAlign = 2 ^ k) → ∃ k < 64, t'.maxAlign = 2 ^ k

section Laid

variable {arch : Arch} {t t' t'' : TlsTotals} {mods mods' : List TlsModule}

theorem Laid.refl : Laid arch t t [] where
  total_le := le_rfl
  inside := by simp
  nearer := .nil
  ids := rfl
  moduleId := rfl
  ok := by simp
  last := by simp
  empty := fun _ => rfl
  align_le := le_max_left _ _
  align_pow := id

theorem Inside.mono {a b a' b' : ℕ} {mod : TlsModule} (h : Inside arch a b mod) (ha : a' ≤ a)
    (hb : b ≤ b') : Inside arch a' b' mod := by
  cases arch <;> exact ⟨by have := h.1; omega, by have := h.2; omega⟩

theorem Inside.nearer {a b c : ℕ} {p q : TlsModule} (hp : Inside arch a b p)
    (hq : Inside arch b c q) : Nearer arch p q := by
  cases arch
  · exact Int.le_trans hq.2 hp.1
  · exact Int.le_trans hp.2 hq.1

/-- One object that is laid out. -/
theorem Laid.single {mod : TlsModule} (hid : mod.moduleId = t.moduleId)
    (hnext : t'.moduleId = t.moduleId + 1) (hok : mod.Ok)
    (hin : Inside arch t.total t'.total mod)
    (hlast : arch = .x86_64 → mod.tpoff = -(t'.total : ℤ)) (hlt : t.total < t'.total)
    (hle : t'.maxAlign ≤ max t.maxAlign t'.total)
    (hpow : (∃ k < 64, t.maxAlign = 2 ^ k) → ∃ k < 64, t'.maxAlign = 2 ^ k) :
    Laid arch t t' [mod] where
  total_le := hlt.le
  inside := by simpa using hin
  nearer := List.pairwise_singleton _ _
  ids := by simp [hid]
  moduleId := hnext
  ok := by simpa using hok
  last := by simpa using hlast
  empty := by simp
  align_le := hle
  align_pow := hpow

/-- Objects that are laid out one after the other. -/
theorem Laid.trans (h : Laid arch t t' mods) (h' : Laid arch t' t'' mods') :
    Laid arch t t'' (mods ++ mods') where
  total_le := h.total_le.trans h'.total_le
  inside := by
    intro mod hmod
    rcases List.mem_append.1 hmod with hmod | hmod
    · exact (h.inside mod hmod).mono le_rfl h'.total_le
    · exact (h'.inside mod hmod).mono h.total_le le_rfl
  nearer := List.pairwise_append.2
    ⟨h.nearer, h'.nearer, fun p hp q hq => (h.inside p hp).nearer (h'.inside q hq)⟩
  ids := by
    rw [List.map_append, h.ids, h'.ids, h.moduleId, List.length_append, List.range'_append_1]
  moduleId := by rw [h'.moduleId, h.moduleId, List.length_append, Nat.add_assoc]
  ok := fun mod hmod => (List.mem_append.1 hmod).elim (h.ok mod) (h'.ok mod)
  last := by
    intro harch mod hmod
    rcases mods'.eq_nil_or_concat with rfl | ⟨_, last, rfl⟩
    · rw [List.append_nil] at hmod
      rw [h.last harch mod hmod, h'.empty rfl]
    · refine h'.last harch mod ?_
      simpa [List.getLast?_append] using hmod
  empty := by
    intro hnil
    obtain ⟨hm, hm'⟩ := List.append_eq_nil_iff.1 hnil
    rw [h'.empty hm', h.empty hm]
  align_le := by
    have := h.align_le
    have := h'.align_le
    have := h'.total_le
    omega
  align_pow := h'.align_pow ∘ h.align_pow

end Laid

section Finalize

variable {arch : Arch} {t : TlsTotals} {map : LinkMap} {maps : List LinkMap}

theorem LinkMap.PowAlign.exists_alignment (h : map.PowAlign) : ∃ k < 64, map.alignment = 2 ^ k := by
  rcases h with hzero | ⟨k, hk, heq⟩
  · exact ⟨0, by decide, by simp [LinkMap.alignment, hzero]⟩
  · refine ⟨k, hk, ?_⟩
    rw [LinkMap.alignment, heq, if_pos (Nat.pos_iff_ne_zero.1 (Nat.two_pow_pos k))]

theorem LinkMap.PowAlign.alignment_pos (h : map.PowAlign) : 0 < map.alignment := by
  obtain ⟨k, -, hk⟩ := h.exists_alignment
  exact hk ▸ Nat.two_pow_pos k

/-- Words do not wrap around where the result is a word. -/
theorem LinkMap.PowAlign.rounded_eq {v : ℕ} (h : map.PowAlign)
    (hv : roundUp map.alignment v < 2 ^ 64) : map.rounded v = roundUp map.alignment v := by
  obtain ⟨k, hk, hpow⟩ := h.exists_alignment
  rw [LinkMap.rounded]
  split
  · rw [hpow] at hv ⊢
    refine alignUp_eq_roundUp hk.le (Nat.lt_of_not_le fun hle => ?_)
    have hdvd : 2 ^ 64 / 2 ^ k * 2 ^ k = 2 ^ 64 :=
      Nat.div_mul_cancel (Nat.pow_dvd_pow 2 hk.le)
    have hmul := Nat.mul_le_mul_right (2 ^ k) (Nat.div_le_div_right (c := 2 ^ k) hle)
    rw [hdvd] at hmul
    exact absurd hv (not_lt.2 hmul)
  · have hone : map.alignment = 1 := by have := h.alignment_pos; omega
    rw [hone, roundUp_one]

theorem LinkMap.PowAlign.le_tlsEnd (h : map.PowAlign) (total : ℕ) :
    total ≤ map.tlsEnd arch total := by
  unfold LinkMap.tlsEnd
  split
  · exact le_rfl
  · cases arch
    · exact (Nat.le_add_right _ _).trans (le_roundUp h.alignment_pos)
    · exact (le_roundUp h.alignment_pos).trans (Nat.le_add_right _ _)

theorem le_tlsEnd (h : ∀ map ∈ maps, map.PowAlign) (total : ℕ) :
    total ≤ tlsEnd arch total maps := by
  induction maps generalizing total with
  | nil => exact le_rfl
  | cons map maps ih =>
    obtain ⟨hmap, hmaps⟩ := List.forall_mem_cons.1 h
    exact (hmap.le_tlsEnd total).trans (ih hmaps _)

theorem bmod_eq_self {v : ℕ} (hv : v < 2 ^ 63) : Int.bmod v (2 ^ 64) = v :=
  Int.bmod_eq_of_le (by omega) (by omega)

theorem bmod_neg_eq_self {v : ℕ} (hv : v < 2 ^ 63) : Int.bmod (-v) (2 ^ 64) = -v :=
  Int.bmod_eq_of_le (by omega) (by omega)

theorem finalizeMap_of_zero (hmem : map.tlsMemsz = 0) :
    finalizeMap arch t map = (t, { map with tlsModuleId := 0, tlsTpoff := 0 }) := by
  rw [finalizeMap, if_pos hmem]

/-- The body of the loop for an object with thread-local data, where nothing wraps around. -/
theorem finalizeMap_eq (h : map.PowAlign) (hmem : map.tlsMemsz ≠ 0)
    (hlt : map.tlsEnd arch t.total < 2 ^ 63) :
    finalizeMap arch t map =
      (⟨map.tlsEnd arch t.total, max t.maxAlign map.alignment, t.moduleId + 1⟩,
        { map with tlsModuleId := t.moduleId, tlsTpoff := map.tlsPlace arch t.total }) := by
  have hmax : (if map.alignment > t.maxAlign then map.alignment else t.maxAlign) =
      max t.maxAlign map.alignment := by
    split <;> omega
  rw [LinkMap.tlsEnd.eq_def, if_neg hmem] at hlt
  rw [finalizeMap, if_neg hmem, LinkMap.tlsEnd.eq_def, if_neg hmem, LinkMap.tlsPlace.eq_def, hmax]
  cases arch
  · have hle := le_roundUp (v := t.total + map.tlsMemsz) h.alignment_pos
    simp only at hlt ⊢
    rw [Nat.mod_eq_of_lt (by omega), h.rounded_eq (by omega), bmod_eq_self hlt,
      bmod_neg_eq_self hlt]
  · simp only at hlt ⊢
    rw [h.rounded_eq (by omega), Nat.mod_eq_of_lt (by omega), bmod_eq_self (by omega)]

theorem tlsModules_singleton (hid : 0 < map.tlsModuleId) : tlsModules [map] = [map.tlsModule] := by
  simp [tlsModules, Nat.pos_iff_ne_zero.1 hid]

/-- An object is between the totals before and after it. -/
theorem LinkMap.PowAlign.inside (h : map.PowAlign) (hmem : map.tlsMemsz ≠ 0) (total id : ℕ) :
    Inside arch total (map.tlsEnd arch total)
      { map with tlsModuleId := id, tlsTpoff := map.tlsPlace arch total : LinkMap }.tlsModule := by
  rw [LinkMap.tlsEnd.eq_def, if_neg hmem, LinkMap.tlsModule, LinkMap.tlsPlace.eq_def]
  cases arch
  · have hle := le_roundUp (v := total + map.tlsMemsz) h.alignment_pos
    simp only [Inside]
    omega
  · have hle := le_roundUp (v := total) h.alignment_pos
    simp only [Inside]
    omega

/-- One object is laid out by the body of the loop, and the total is the one without a bound. -/
theorem finalizeMap_laid (h : map.TlsOk) (hlt : map.tlsEnd arch t.total < 2 ^ 63)
    (hid : 0 < t.moduleId) (hpos : arch = .aarch64 → 0 < t.total) :
    (finalizeMap arch t map).1.total = map.tlsEnd arch t.total ∧
      Laid arch t (finalizeMap arch t map).1 (tlsModules [(finalizeMap arch t map).2]) := by
  by_cases hmem : map.tlsMemsz = 0
  · rw [finalizeMap_of_zero hmem, LinkMap.tlsEnd.eq_def, if_pos hmem]
    exact ⟨rfl, Laid.refl⟩
  rw [finalizeMap_eq h.align hmem hlt, tlsModules_singleton hid]
  refine ⟨rfl, Laid.single rfl rfl ⟨Nat.pos_of_ne_zero hmem, h.filesz_le, h.memsz_lt, h.template_lt⟩
    (LinkMap.PowAlign.inside h.align hmem _ _) ?_ ?_ ?_ ?_⟩
  · rintro rfl
    simp only [LinkMap.tlsModule, LinkMap.tlsPlace, LinkMap.tlsEnd, if_neg hmem]
  · have hin : Inside arch t.total (map.tlsEnd arch t.total) _ :=
      LinkMap.PowAlign.inside h.align hmem t.total t.moduleId
    revert hin
    cases arch <;> simp only [Inside, LinkMap.tlsModule] <;> omega
  · -- the alignment of the object is not more than the total after it
    have hle : map.alignment ≤ map.tlsEnd arch t.total := by
      rw [LinkMap.tlsEnd.eq_def, if_neg hmem]
      cases arch
      · exact le_roundUp_of_pos (LinkMap.PowAlign.alignment_pos h.align) (by omega)
      · exact (le_roundUp_of_pos (LinkMap.PowAlign.alignment_pos h.align) (hpos rfl)).trans
          (Nat.le_add_right _ _)
    exact max_le_max_left t.maxAlign hle
  · intro hpow
    rcases max_choice t.maxAlign map.alignment with hmax | hmax
    · simpa only [hmax] using hpow
    · simpa only [hmax] using LinkMap.PowAlign.exists_alignment h.align

theorem tlsModules_cons : tlsModules (map :: maps) = tlsModules [map] ++ tlsModules maps := by
  simp only [tlsModules, ← List.map_append, ← List.filter_append, List.singleton_append]

/-- All objects are laid out by the loop. -/
theorem finalizeMaps_laid (h : ∀ map ∈ maps, map.TlsOk) (hlt : tlsEnd arch t.total maps < 2 ^ 63)
    (hid : 0 < t.moduleId) (hpos : arch = .aarch64 → 0 < t.total) :
    (finalizeMaps arch t maps).1.total = tlsEnd arch t.total maps ∧
      Laid arch t (finalizeMaps arch t maps).1 (tlsModules (finalizeMaps arch t maps).2) := by
  induction maps generalizing t with
  | nil => exact ⟨rfl, Laid.refl⟩
  | cons map maps ih =>
    obtain ⟨hmap, hmaps⟩ := List.forall_mem_cons.1 h
    have hle : map.tlsEnd arch t.total ≤ tlsEnd arch t.total (map :: maps) :=
      le_tlsEnd (fun map hmap => (hmaps map hmap).align) _
    obtain ⟨htotal, hlaid⟩ := finalizeMap_laid hmap (hle.trans_lt hlt) hid hpos
    have hrest := @ih (finalizeMap arch t map).1 hmaps (by rw [htotal]; exact hlt)
      (by rw [hlaid.moduleId]; omega) (fun harch => (hpos harch).trans_le hlaid.total_le)
    refine ⟨by rw [finalizeMaps, hrest.1, htotal]; rfl, ?_⟩
    rw [finalizeMaps, tlsModules_cons]
    exact hlaid.trans hrest.2

/-- The first object is next to the thread pointer, as far as its alignment allows. -/
theorem finalizeMaps_head (h : ∀ map ∈ maps, map.PowAlign) (hlt : tlsEnd arch t.total maps < 2 ^ 63)
    (hid : 0 < t.moduleId) {mod : TlsModule}
    (hmod : (tlsModules (finalizeMaps arch t maps).2).head? = some mod) :
    ∃ map ∈ maps, mod.tpoff = map.tlsPlace arch t.total := by
  induction maps with
  | nil => cases hmod
  | cons map maps ih =>
    obtain ⟨hmap, hmaps⟩ := List.forall_mem_cons.1 h
    by_cases hmem : map.tlsMemsz = 0
    · -- the first object is in the rest of the list
      have hend : map.tlsEnd arch t.total = t.total := by rw [LinkMap.tlsEnd.eq_def, if_pos hmem]
      rw [finalizeMaps, finalizeMap_of_zero hmem, tlsModules_cons] at hmod
      obtain ⟨first, hfirst, htpoff⟩ := ih hmaps
        (by simpa only [tlsEnd, List.foldl_cons, hend] using hlt)
        (by simpa [tlsModules] using hmod)
      exact ⟨first, List.mem_cons_of_mem _ hfirst, htpoff⟩
    · have hle : map.tlsEnd arch t.total ≤ tlsEnd arch t.total (map :: maps) := le_tlsEnd hmaps _
      rw [finalizeMaps, finalizeMap_eq hmap hmem (hle.trans_lt hlt), tlsModules_cons,
        tlsModules_singleton hid] at hmod
      obtain rfl := Option.some.inj hmod
      exact ⟨map, List.mem_cons_self, rfl⟩

end Finalize

end Rtld

end Trona
