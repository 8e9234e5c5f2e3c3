import Mathlib.Data.Set.Lattice
import Mathlib.Order.CompletePartialOrder
import Trona.Rtld.Tls

/-!
# The blocks of static TLS

`finalize_static_tls_layout` gives each object with thread-local data a block relative to the
thread pointer. `finalizeStaticTlsLayout_wellPlaced` says what is good about the blocks: they are
apart from each other and inside of the area that is handed over, they are aligned wherever the
thread pointer is, and the first of them is where the ABI wants it to be.
-/

namespace Trona

namespace Rtld

/-! ## Well-placed blocks -/

/-- The objects with thread-local data. -/
def withTls (maps : List LinkMap) : List LinkMap := maps.filter fun map => map.tlsMemsz ≠ 0

/-- The block of an object, relative to the thread pointer. -/
def LinkMap.tlsBlock (map : LinkMap) : Set ℤ :=
  {x | map.tlsTpoff ≤ x ∧ x < map.tlsTpoff + map.tlsMemsz}

/-- The area for the blocks. -/
def TlsLayout.area (layout : TlsLayout) : Arch → Set ℤ
  | .x86_64 => {x | -(layout.memsz : ℤ) ≤ x ∧ x < 0}
  | .aarch64 => {x | 16 ≤ x ∧ x < 16 + layout.memsz}

/-- Where the ABI wants the first block. -/
def LinkMap.abiPlace (map : LinkMap) : Arch → ℤ
  | .x86_64 => -(roundUp map.alignment map.tlsMemsz : ℤ)
  | .aarch64 => roundUp map.alignment 16

/-- An object without its place. -/
def LinkMap.unplaced (map : LinkMap) : LinkMap := { map with tlsModuleId := 0, tlsTpoff := 0 }

/-- The objects are placed as they should be. -/
structure WellPlaced (arch : Arch) (maps : List LinkMap) (layout : TlsLayout) : Prop where
  same : layout.maps.map LinkMap.unplaced = maps.map LinkMap.unplaced
  apart : (withTls layout.maps).Pairwise fun p q => Disjoint p.tlsBlock q.tlsBlock
  inside : ∀ map ∈ withTls layout.maps, map.tlsBlock ⊆ layout.area arch
  aligned : ∀ tp : ℤ, (layout.align : ℤ) ∣ tp → ∀ map ∈ withTls layout.maps,
    (map.alignment : ℤ) ∣ tp + map.tlsTpoff
  ids : (withTls layout.maps).map LinkMap.tlsModuleId =
    List.range' 1 (withTls layout.maps).length
  first : ∀ map ∈ (withTls layout.maps).head?, map.tlsTpoff = map.abiPlace arch

/-! ## The loop -/

/-- The objects are placed between two states of the loop. -/
structure Blocks (arch : Arch) (t t' : TlsTotals) (maps : List LinkMap) : Prop where
  total_le : t.total ≤ t'.total
  inside : ∀ map ∈ maps, Inside arch t.total t'.total map.tlsModule
  nearer : maps.Pairwise fun p q => Nearer arch p.tlsModule q.tlsModule
  ids : maps.map LinkMap.tlsModuleId = List.range' t.moduleId maps.length
  aligned : ∀ map ∈ maps, (map.alignment : ℤ) ∣ map.tlsTpoff
  maxAlign : ∀ map ∈ maps, map.alignment ∣ t'.maxAlign
  maxAlign_dvd : t.maxAlign ∣ t'.maxAlign
  first : ∀ map ∈ maps.head?, map.tlsTpoff = map.tlsPlace arch t.total

section

variable {arch : Arch} {t t' : TlsTotals} {map : LinkMap} {maps : List LinkMap}

theorem Blocks.nil : Blocks arch t t [] where
  total_le := le_rfl
  inside := by simp
  nearer := .nil
  ids := rfl
  aligned := by simp
  maxAlign := by simp
  maxAlign_dvd := Nat.dvd_refl _
  first := by simp

/-- Of two powers of two, both divide the greater one. -/
theorem dvd_max_of_pow {a b : ℕ} (ha : ∃ k, a = 2 ^ k) (hb : ∃ k, b = 2 ^ k) :
    a ∣ max a b ∧ b ∣ max a b ∧ ∃ k, max a b = 2 ^ k := by
  obtain ⟨k, rfl⟩ := ha
  obtain ⟨l, rfl⟩ := hb
  rcases Nat.le_total k l with hle | hle
  · rw [Nat.max_eq_right (Nat.pow_le_pow_right (by decide) hle)]
    exact ⟨Nat.pow_dvd_pow 2 hle, Nat.dvd_refl _, l, rfl⟩
  · rw [Nat.max_eq_left (Nat.pow_le_pow_right (by decide) hle)]
    exact ⟨Nat.dvd_refl _, Nat.pow_dvd_pow 2 hle, k, rfl⟩

theorem unplaced_placed (id : ℕ) (tpoff : ℤ) :
    { map with tlsModuleId := id, tlsTpoff := tpoff : LinkMap }.unplaced = map.unplaced := rfl

theorem tlsPlace_placed (total id : ℕ) (tpoff : ℤ) :
    { map with tlsModuleId := id, tlsTpoff := tpoff : LinkMap }.tlsPlace arch total =
      map.tlsPlace arch total := by
  simp only [LinkMap.tlsPlace, LinkMap.alignment]

theorem alignment_dvd_tlsPlace (total : ℕ) : (map.alignment : ℤ) ∣ map.tlsPlace arch total := by
  cases arch
  · exact Int.dvd_neg.2 (Int.natCast_dvd_natCast.2 (Nat.dvd_mul_left _ _))
  · exact Int.natCast_dvd_natCast.2 (Nat.dvd_mul_left _ _)

/-- One more object in front. -/
theorem Blocks.cons {placed : LinkMap} {total max : ℕ}
    (h : Blocks arch ⟨total, max, t.moduleId + 1⟩ t' maps)
    (hin : Inside arch t.total total placed.tlsModule) (hle : t.total ≤ total)
    (hid : placed.tlsModuleId = t.moduleId)
    (hplace : placed.tlsTpoff = placed.tlsPlace arch t.total)
    (halign : placed.alignment ∣ max) (hmax : t.maxAlign ∣ max) :
    Blocks arch t t' (placed :: maps) where
  total_le := hle.trans h.total_le
  inside := List.forall_mem_cons.2
    ⟨hin.mono le_rfl h.total_le, fun q hq => (h.inside q hq).mono hle le_rfl⟩
  nearer := List.pairwise_cons.2 ⟨fun q hq => hin.nearer (h.inside q hq), h.nearer⟩
  ids := by
    rw [List.map_cons, hid, h.ids, List.length_cons, List.range'_succ]
  aligned := List.forall_mem_cons.2 ⟨hplace ▸ alignment_dvd_tlsPlace _, h.aligned⟩
  maxAlign := List.forall_mem_cons.2 ⟨halign.trans h.maxAlign_dvd, h.maxAlign⟩
  maxAlign_dvd := hmax.trans h.maxAlign_dvd
  first := by simpa using hplace

/-- The loop places all objects. -/
theorem finalizeMaps_blocks (h : ∀ map ∈ maps, map.PowAlign)
    (hlt : tlsEnd arch t.total maps < 2 ^ 63) (hpow : ∃ k, t.maxAlign = 2 ^ k) :
    (finalizeMaps arch t maps).1.total = tlsEnd arch t.total maps ∧
      Blocks arch t (finalizeMaps arch t maps).1 (withTls (finalizeMaps arch t maps).2) := by
  induction maps generalizing t with
  | nil => exact ⟨rfl, .nil⟩
  | cons map maps ih =>
    obtain ⟨hmap, hmaps⟩ := List.forall_mem_cons.1 h
    have hle : map.tlsEnd arch t.total ≤ tlsEnd arch t.total (map :: maps) := le_tlsEnd hmaps _
    rw [finalizeMaps]
    by_cases hmem : map.tlsMemsz = 0
    · -- an object without variables is passed over
      have hend : map.tlsEnd arch t.total = t.total := by rw [LinkMap.tlsEnd.eq_def, if_pos hmem]
      rw [finalizeMap_of_zero hmem]
      have hrest := @ih t hmaps (by simpa only [tlsEnd, List.foldl_cons, hend] using hlt) hpow
      refine ⟨by rw [hrest.1, tlsEnd, tlsEnd, List.foldl_cons, hend], ?_⟩
      simpa [withTls, hmem] using hrest.2
    · rw [finalizeMap_eq hmap hmem (hle.trans_lt hlt)]
      obtain ⟨k, -, halign⟩ := hmap.exists_alignment
      obtain ⟨hdvd, hdvd', hmax⟩ := dvd_max_of_pow hpow ⟨k, halign⟩
      have hrest := @ih ⟨map.tlsEnd arch t.total, max t.maxAlign map.alignment, t.moduleId + 1⟩
        hmaps hlt hmax
      refine ⟨by rw [hrest.1]; rfl, ?_⟩
      have hcons := hrest.2.cons (hmap.inside hmem t.total t.moduleId) (hmap.le_tlsEnd t.total) rfl
        (tlsPlace_placed _ _ _).symm hdvd' hdvd
      simpa [withTls, hmem] using hcons

theorem finalizeMaps_unplaced :
    (finalizeMaps arch t maps).2.map LinkMap.unplaced = maps.map LinkMap.unplaced := by
  induction maps generalizing t with
  | nil => rfl
  | cons map maps ih =>
    rw [finalizeMaps, List.map_cons, List.map_cons, ih]
    congr 1
    rw [finalizeMap]
    split
    · rfl
    · cases arch <;> exact unplaced_placed _ _

/-! ## The layout -/

theorem Inside.tlsBlock_subset {layout : TlsLayout} {total : ℕ}
    (htotal : total = layout.memsz + (TlsTotals.start arch).total)
    (h : Inside arch (TlsTotals.start arch).total total map.tlsModule) :
    map.tlsBlock ⊆ layout.area arch := by
  rintro x ⟨hlo, hhi⟩
  cases arch
  all_goals
    simp only [Inside, TlsTotals.start, LinkMap.tlsModule] at h htotal
    exact ⟨by omega, by omega⟩

theorem Nearer.disjoint {p q : LinkMap} (h : Nearer arch p.tlsModule q.tlsModule) :
    Disjoint p.tlsBlock q.tlsBlock := by
  refine Set.disjoint_left.2 fun x hp hq => ?_
  obtain ⟨hlo, hhi⟩ := hp
  obtain ⟨hlo', hhi'⟩ := hq
  cases arch
  · have hle : q.tlsTpoff + q.tlsMemsz ≤ p.tlsTpoff := h
    omega
  · have hle : p.tlsTpoff + p.tlsMemsz ≤ q.tlsTpoff := h
    omega

theorem tlsPlace_start : map.tlsPlace arch (TlsTotals.start arch).total = map.abiPlace arch := by
  cases arch
  · simp only [LinkMap.tlsPlace, LinkMap.abiPlace, TlsTotals.start, Nat.zero_add]
  · rfl

/-- The layout of static TLS: for every list of objects whose alignments are powers of two, the
    blocks are placed as they should be, as long as the total is a signed word. -/
theorem finalizeStaticTlsLayout_wellPlaced (arch : Arch) (maps : List LinkMap)
    (hpow : ∀ map ∈ maps, map.PowAlign)
    (hlt : tlsEnd arch (TlsTotals.start arch).total maps < 2 ^ 63) :
    WellPlaced arch maps (finalizeStaticTlsLayout arch maps) := by
  have hstart : ∃ k, (TlsTotals.start arch).maxAlign = 2 ^ k := by
    cases arch
    exacts [⟨0, rfl⟩, ⟨4, rfl⟩]
  obtain ⟨htotal, hblocks⟩ := finalizeMaps_blocks hpow hlt hstart
  have hmemsz : (finalizeMaps arch (.start arch) maps).1.total =
      (finalizeStaticTlsLayout arch maps).memsz + (TlsTotals.start arch).total := by
    have hle := hblocks.total_le
    cases arch
    · rfl
    · change _ = wsub _ 16 + 16
      change 16 ≤ _ at hle
      rw [wsub_eq hle (by omega)]
      omega
  refine ⟨finalizeMaps_unplaced, hblocks.nearer.imp Nearer.disjoint,
    fun map hmap => (hblocks.inside map hmap).tlsBlock_subset hmemsz, fun tp htp map hmap => ?_, ?_,
    fun map hmap => ?_⟩
  · have hdvd : map.alignment ∣ (finalizeStaticTlsLayout arch maps).align :=
      hblocks.maxAlign map hmap
    exact Int.dvd_add ((Int.natCast_dvd_natCast.2 hdvd).trans htp) (hblocks.aligned map hmap)
  · have hids := hblocks.ids
    cases arch <;> exact hids
  · rw [hblocks.first map hmap, tlsPlace_start]

/-- An executable and a library with thread-local data, and one without. -/
def threeObjects : List LinkMap :=
  [{ tlsMemsz := 20, tlsAlign := 8 }, {}, { tlsMemsz := 4, tlsAlign := 16 }]

theorem finalizeStaticTlsLayout_threeObjects :
    WellPlaced .x86_64 threeObjects (finalizeStaticTlsLayout .x86_64 threeObjects) ∧
      (finalizeStaticTlsLayout .x86_64 threeObjects).maps.map LinkMap.tlsTpoff = [-24, 0, -32] := by
  refine ⟨finalizeStaticTlsLayout_wellPlaced _ _ ?_ (by decide), by decide⟩
  simp only [threeObjects, List.forall_mem_cons]
  exact ⟨.inr ⟨3, by decide, rfl⟩, .inl rfl, .inr ⟨4, by decide, rfl⟩, List.forall_mem_nil _⟩

/-- An object with more thread-local data than a signed word can count. -/
def hugeObject : LinkMap := { tlsMemsz := 2 ^ 63 + 1 }

/-- Nothing wraps around as an unsigned word, but the place of the object is above the thread
    pointer. -/
theorem finalizeStaticTlsLayout_hugeObject : hugeObject.PowAlign ∧
    tlsEnd .x86_64 (TlsTotals.start .x86_64).total [hugeObject] < 2 ^ 64 ∧
    ¬WellPlaced .x86_64 [hugeObject] (finalizeStaticTlsLayout .x86_64 [hugeObject]) := by
  refine ⟨.inl rfl, by decide, fun h => ?_⟩
  have hmaps : (finalizeStaticTlsLayout .x86_64 [hugeObject]).maps =
      [{ hugeObject with tlsModuleId := 1, tlsTpoff := 2 ^ 63 - 1 }] := by decide
  have hplace := h.first
  exact absurd (hplace _ rfl) (by decide)

end

end Rtld

end Trona
