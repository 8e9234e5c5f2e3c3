import Trona.Loader.Image

/-!
# Regions of a file

A segment of an ELF file and a section of a PE file are placed in the same way. Both are
a *region*: bytes from an address on, the first of which are in the file, and a range of
pages around them, with one item for every page.

* `Laid.copiedFor_iff` says which bytes were copied for a region, by its items.
* `Laid.region_copied_iff` says when these are all the bytes that the file has for it.
-/

namespace Trona

/-! ## Items in order -/

/-- The items of numbered regions, one for each page. -/
def regionItems {ρ : Type} (pages : ρ → List ℕ) (item : ρ → ℕ → ℕ → PlaceItem)
    (l : List (ρ × ℕ)) : List PlaceItem :=
  l.flatMap fun r => (pages r.1).map (item r.1 r.2)

/-- The place of a site in the order in which a loader goes through its regions. -/
def Site.rank : Site → ℕ
  | .headers _ => 0
  | .segment index _ => index + 1
  | .reloc _ => 0

/-- The items are in the order of their regions, and no region has a page twice. -/
structure InOrder (items : List PlaceItem) : Prop where
  site_page : ∀ it ∈ items, it.site = .headers it.page ∨ ∃ i, it.site = .segment i it.page
  ordered : items.Pairwise fun a b =>
    a.site.rank < b.site.rank ∨ (a.site.rank = b.site.rank ∧ a.page ≠ b.page)

/-- The page of an item is shared with one of an earlier region. -/
def PlaceItem.Shared (it : PlaceItem) (items : List PlaceItem) : Prop :=
  ∃ it' ∈ items, it'.page = it.page ∧ it'.site.rank < it.site.rank

section

variable {env : Env} {f : File} {items before after : List PlaceItem} {it it' : PlaceItem}
  {w : World}

theorem InOrder.page_eq (h : InOrder items) (hit : it ∈ items) (hit' : it' ∈ items)
    (hsite : it.site = it'.site) : it.page = it'.page := by
  rcases h.site_page it hit with hs | ⟨i, hs⟩
  · rcases h.site_page it' hit' with hs' | ⟨i', hs'⟩
    · rw [hs, hs'] at hsite
      exact Site.headers.inj hsite
    · rw [hs, hs'] at hsite
      cases hsite
  · rcases h.site_page it' hit' with hs' | ⟨i', hs'⟩
    · rw [hs, hs'] at hsite
      cases hsite
    · rw [hs, hs'] at hsite
      exact (Site.segment.inj hsite).2

/-- No two items have the same site. -/
theorem InOrder.sites_nodup (h : InOrder items) : (items.map PlaceItem.site).Nodup := by
  refine List.pairwise_map.2 (h.ordered.imp_of_mem fun {a b} ha hb hab hsite => ?_)
  rcases hab with hlt | ⟨-, hne⟩
  · rw [hsite] at hlt
    exact Nat.lt_irrefl _ hlt
  · exact hne (h.page_eq ha hb hsite)

/-- What comes before an item on its page is of an earlier region. -/
theorem InOrder.shared_iff (h : InOrder (before ++ it :: after)) :
    (∃ it' ∈ before, it'.page = it.page) ↔ it.Shared (before ++ it :: after) := by
  have hord := h.ordered
  rw [List.pairwise_append, List.pairwise_cons] at hord
  obtain ⟨-, ⟨hafter, -⟩, hbefore⟩ := hord
  constructor
  · rintro ⟨it', hit', hpage⟩
    refine ⟨it', List.mem_append_left _ hit', hpage, ?_⟩
    rcases hbefore it' hit' it (List.mem_cons_self ..) with hlt | ⟨-, hne⟩
    · exact hlt
    · exact absurd hpage hne
  · rintro ⟨it', hit', hpage, hrank⟩
    rcases List.mem_append.1 hit' with hmem | hmem
    · exact ⟨it', hmem, hpage⟩
    · -- The item itself and those after it are not of an earlier region.
      rcases List.mem_cons.1 hmem with rfl | hmem
      · exact absurd hrank (Nat.lt_irrefl _)
      · rcases hafter it' hmem with hlt | ⟨heq, -⟩
        · omega
        · omega

/-- The bytes that are copied, in terms of the regions. -/
theorem InOrder.byteCopied_iff (h : InOrder items) {v o : ℕ} : ByteCopied env f items v o ↔
    ∃ it ∈ items, it.Covers f v o ∧ (it.Shared items → env.mapScratch it.site = 0) := by
  constructor
  · rintro ⟨before, it, after, rfl, ⟨-, hscratch⟩, hcov⟩
    exact ⟨it, by simp, hcov, fun hs => hscratch (h.shared_iff.2 hs)⟩
  · rintro ⟨it, hit, hcov, hscratch⟩
    obtain ⟨before, after, rfl⟩ := List.append_of_mem hit
    exact ⟨before, it, after, rfl, ⟨hcov.1, fun hb => hscratch (h.shared_iff.1 hb)⟩, hcov⟩

variable {ρ : Type} {pages : ρ → List ℕ} {item : ρ → ℕ → ℕ → PlaceItem} {l : List (ρ × ℕ)}

/-- Numbered elements without their numbers. -/
theorem filter_zipIdx_map_fst (l : List ρ) (p : ρ → Bool) :
    (l.zipIdx.filter fun r => p r.1).map Prod.fst = l.filter p := by
  have h := List.filter_map (p := p) (f := Prod.fst) (l := l.zipIdx)
  rw [List.zipIdx_map_fst] at h
  exact h.symm

/-- Numbered elements are in the order of their numbers. -/
theorem pairwise_filter_zipIdx (l : List ρ) (p : ρ × ℕ → Bool) :
    (l.zipIdx.filter p).Pairwise fun a b => a.2 < b.2 := by
  have hnumbers : (l.zipIdx.map Prod.snd).Pairwise (· < ·) := by
    rw [List.zipIdx_map_snd]
    exact List.pairwise_lt_range'
  exact (List.pairwise_map.1 hnumbers).filter p

theorem mem_regionItems : it ∈ regionItems pages item l ↔
      ∃ r i v, (r, i) ∈ l ∧ v ∈ pages r ∧ item r i v = it := by
  simp only [regionItems, List.mem_flatMap, List.mem_map, Prod.exists]
  constructor
  · rintro ⟨r, i, hl, v, hv, rfl⟩
    exact ⟨r, i, v, hl, hv, rfl⟩
  · rintro ⟨r, i, v, hl, hv, rfl⟩
    exact ⟨r, i, hl, v, hv, rfl⟩

/-- The items of numbered regions are in order. -/
theorem inOrder_regionItems (hl : l.Pairwise fun a b => a.2 < b.2) (hpages : ∀ r, (pages r).Nodup)
    (hsite : ∀ r i v, (item r i v).site = .segment i v) (hpage : ∀ r i v, (item r i v).page = v) :
    InOrder (regionItems pages item l) where
  site_page it hit := by
    obtain ⟨r, i, v, -, -, rfl⟩ := mem_regionItems.1 hit
    exact .inr ⟨i, by rw [hsite, hpage]⟩
  ordered := by
    rw [regionItems, List.pairwise_flatMap]
    refine ⟨fun r _ => ?_, hl.imp fun {a b} hlt it hit it' hit' => ?_⟩
    · refine List.pairwise_map.2 ((hpages r.1).imp fun {v v'} hne => .inr ⟨?_, ?_⟩)
      · rw [hsite, hsite]
        rfl
      · rwa [hpage, hpage]
    · obtain ⟨v, -, rfl⟩ := List.mem_map.1 hit
      obtain ⟨v', -, rfl⟩ := List.mem_map.1 hit'
      rw [hsite, hsite]
      exact .inl (Nat.succ_lt_succ hlt)

/-! ## The bytes that were copied -/

/-- The byte at the address `a` of the child was copied for a region, from the offset `off`
    of the file. -/
def CopiedFor (w : World) (index a off : ℕ) : Prop :=
  ∃ v frame flags dst src len, LoadEvent.copy (.segment index v) v frame dst src len ∈ w.log ∧
    w.child v = some ⟨frame, flags⟩ ∧ v + dst ≤ a ∧ a < v + dst + len ∧
    src + (a - (v + dst)) = off

/-- An item takes the byte at the address `a` from the offset `off`. -/
def PlaceItem.Takes (it : PlaceItem) (a off : ℕ) : Prop :=
  it.page + it.dst ≤ a ∧ a < it.page + it.dst + it.len ∧
    it.src + (a - (it.page + it.dst)) = off

/-- The bytes copied for a region are those its items take from the file. Where the page is
    shared, the scratch mapping has to be made. -/
theorem Laid.copiedFor_iff (h : Laid env f items w) (ho : InOrder items) {index a off : ℕ} :
    CopiedFor w index a off ↔ ∃ it ∈ items, it.site = .segment index it.page ∧
      it.Takes a off ∧ it.src + it.len ≤ f.size ∧
      (it.Shared items → env.mapScratch it.site = 0) := by
  have hsize := f.size_lt
  constructor
  · rintro ⟨v, frame, flags, dst, src, len, hev, -, hlo, hhi, hoff⟩
    have hfile := h.in_file _ _ _ _ _ _ hev
    obtain ⟨-, before, it, after, rfl, ⟨-, hscratch⟩, hsite, rfl, rfl, rfl, rfl⟩ :=
      (h.copies _ _ _ _ _ _).1 hev
    exact ⟨it, by simp, hsite, ⟨hlo, hhi, hoff⟩, hfile, fun hs => hscratch (ho.shared_iff.2 hs)⟩
  · rintro ⟨it, hit, hsite, ⟨hlo, hhi, hoff⟩, hfile, hscratch⟩
    obtain ⟨before, after, rfl⟩ := List.append_of_mem hit
    obtain ⟨e, he⟩ := Option.isSome_iff_exists.1 ((h.mem it.page).2 ⟨it, hit, rfl⟩)
    have hcopies : it.Copies f := by
      refine ⟨by omega, ?_⟩
      rw [Nat.mod_eq_of_lt (by omega)]
      exact hfile
    have hdone : it.Done env f before := ⟨hcopies, fun hb => hscratch (ho.shared_iff.1 hb)⟩
    refine ⟨it.page, e.frameCap, e.flags, it.dst, it.src, it.len, ?_, h.inSync _ _ he,
      hlo, hhi, hoff⟩
    exact (h.copies _ _ _ _ _ _).2 ⟨⟨e, he, rfl⟩, before, it, after, rfl, hdone, hsite, rfl, rfl,
      rfl, rfl⟩

end

/-! ## All bytes of a region -/

/-- The item copies what its page has of the `size` bytes at `start`, which the file has
    from the offset `off` on. -/
structure PlaceItem.Backs (it : PlaceItem) (start size off : ℕ) : Prop where
  len_eq : it.len = min (it.page + 4096) (start + size) - max it.page start
  dst_eq : 0 < it.len → it.page + it.dst = max it.page start
  src_eq : 0 < it.len → it.src = (off + (max it.page start - start)) % 2 ^ 64

section

variable {start fin size off backed fileSize : ℕ} {it : PlaceItem} {f : File} {env : Env}
  {items : List PlaceItem}

section

variable (h : it.Backs start size off)

include h

/-- The item that takes a byte is the one of its page. -/
theorem PlaceItem.Backs.takes_iff (hpage : it.page % 4096 = 0) (hstart : start < 2 ^ 64)
    (hsize : size < 2 ^ 64) (hfile : fileSize < 2 ^ 64) {k : ℕ} (hk : k < size) :
    (it.Takes ((start + k) % 2 ^ 64) (off + k) ∧ it.src + it.len ≤ fileSize) ↔
      start + k < 2 ^ 64 ∧ it.page = start + k - (start + k) % 4096 ∧
        off + (min (it.page + 4096) (start + size) - start) ≤ fileSize := by
  have hlen := h.len_eq
  constructor
  · rintro ⟨⟨hlo, hhi, hoff⟩, hin⟩
    have hpos : 0 < it.len := by omega
    have hdst := h.dst_eq hpos
    have hsrc := h.src_eq hpos
    -- The address would be below the start of the region if it wrapped.
    have hwrap : start + k < 2 ^ 64 := by omega
    rw [Nat.mod_eq_of_lt hwrap] at hlo hhi hoff
    exact ⟨hwrap, by omega, by omega⟩
  · rintro ⟨hwrap, hv, hin⟩
    rw [Nat.mod_eq_of_lt hwrap]
    have hpos : 0 < it.len := by omega
    have hdst := h.dst_eq hpos
    have hsrc := h.src_eq hpos
    rw [Nat.mod_eq_of_lt (by omega)] at hsrc
    exact ⟨⟨by omega, by omega, by omega⟩, by omega⟩

variable (hfile : off + size ≤ f.size)

include hfile

/-- An item covers what its page has of the bytes at `start`, when these are in the file. -/
theorem PlaceItem.Backs.covers_iff {v o : ℕ} (ho : o < 4096) :
    it.Covers f v o ↔
      it.page = v ∧ start ≤ it.page + o ∧ it.page + o < start + size := by
  have hlt := f.size_lt
  have hlen := h.len_eq
  simp only [PlaceItem.Covers, PlaceItem.Copies]
  constructor
  · rintro ⟨⟨hpos, -⟩, hv, hlo, hhi⟩
    have hdst := h.dst_eq hpos
    exact ⟨hv, by omega, by omega⟩
  · rintro ⟨hv, hlo, hhi⟩
    have hpos : 0 < it.len := by omega
    have hdst := h.dst_eq hpos
    have hsrc := h.src_eq hpos
    rw [Nat.mod_eq_of_lt (by omega)] at hsrc
    rw [Nat.mod_eq_of_lt (by omega)]
    exact ⟨⟨hpos, by omega⟩, hv, by omega, by omega⟩

/-- The copy of an item reads what the region has in the file. -/
theorem PlaceItem.Backs.src_add_len_le (hpos : 0 < it.len) : it.src + it.len ≤ f.size := by
  have hlt := f.size_lt
  have hlen := h.len_eq
  have hsrc := h.src_eq hpos
  rw [Nat.mod_eq_of_lt (by omega)] at hsrc
  omega

/-- Where a byte that an item covers is in the file. -/
theorem PlaceItem.Backs.source_eq {v o : ℕ} (hc : it.Covers f v o) :
    it.source o = off + (it.page + o - start) := by
  have hlt := f.size_lt
  have hlen := h.len_eq
  obtain ⟨⟨hpos, -⟩, -, hlo, hhi⟩ := hc
  have hdst := h.dst_eq hpos
  have hsrc := h.src_eq hpos
  rw [Nat.mod_eq_of_lt (by omega)] at hsrc
  unfold PlaceItem.source
  omega

/-- The bytes of a page with one item: those that the file has for it, and zero past
    them. -/
theorem PlaceItem.Backs.image_byte (hs : ∀ site, env.mapScratch site = 0) (hit : it ∈ items)
    (hone : ∀ it' ∈ items, it'.page = it.page → it' = it) {o : ℕ} (ho : o < 4096)
    (hlo : start ≤ it.page + o) {p : ImagePage}
    (hp : items.foldl (Image.place env f) (fun _ => none) it.page = some p) :
    p.bytes o = if it.page + o < start + size then f.byte (off + (it.page + o - start)) else 0 := by
  have hall : ∀ it' ∈ items, it'.Covers f it.page o →
      it'.source o = off + (it.page + o - start) := by
    intro it' hit' hc
    obtain rfl := hone it' hit' hc.2.1
    exact h.source_eq hfile hc
  have hcov : (∃ it' ∈ items, it'.Covers f it.page o) ↔ it.page + o < start + size := by
    constructor
    · rintro ⟨it', hit', hc⟩
      obtain rfl := hone it' hit' hc.2.1
      exact ((h.covers_iff hfile ho).1 hc).2.2
    · exact fun hhi => ⟨it, hit, (h.covers_iff hfile ho).2 ⟨rfl, hlo, hhi⟩⟩
  rw [image_bytes hs hall hp]
  exact if_congr hcov rfl rfl

end

/-- The first `backed` bytes of a region are all copied if and only if there are any, its
    pages reach over them, the file has them, up to the end of the last page, and every
    page with some of them is one that can be copied to. -/
theorem forall_takes_iff {item : ℕ → PlaceItem} {ok : ℕ → Prop} (hstart : start < 2 ^ 64)
    (hsize : size < 2 ^ 64) (hfile : fileSize < 2 ^ 64) (hfin : fin % 4096 = 0)
    (hfin' : fin < 2 ^ 64) (hbacked : backed ≤ size) (hpage : ∀ v, (item v).page = v)
    (hitem : ∀ v ∈ pageRange (start - start % 4096) fin, (item v).Backs start size off) :
    (∀ k < backed, ∃ v ∈ pageRange (start - start % 4096) fin,
      (item v).Takes ((start + k) % 2 ^ 64) (off + k) ∧
      (item v).src + (item v).len ≤ fileSize ∧ ok v) ↔
    (0 < backed → start + backed ≤ fin ∧
      off + min size (pageAlignUp (start + backed) - start) ≤ fileSize) ∧
    ∀ v ∈ pageRange (start - start % 4096) fin,
      (∃ k < backed, v ≤ start + k ∧ start + k < v + 4096) → ok v := by
  have hmem : ∀ v, v ∈ pageRange (start - start % 4096) fin ↔
      v % 4096 = 0 ∧ start - start % 4096 ≤ v ∧ v < fin :=
    fun v => mem_pageRange (by omega) hfin
  have htakes : ∀ k < backed, ∀ v ∈ pageRange (start - start % 4096) fin, _ := fun k hk v hv =>
    (hitem v hv).takes_iff (by rw [hpage]; exact ((hmem v).1 hv).1) hstart hsize hfile
      (hk.trans_le hbacked)
  simp only [hpage] at htakes
  constructor
  · intro h
    refine ⟨fun hpos => ?_, fun v hv hbyte => ?_⟩
    · -- The last byte is on the last page.
      obtain ⟨v, hv, ht, hin, -⟩ := h (backed - 1) (by omega)
      obtain ⟨hwrap, hvk, hoff⟩ := (htakes (backed - 1) (by omega) v hv).1 ⟨ht, hin⟩
      obtain ⟨hal, -, hlt⟩ := (hmem v).1 hv
      have hle : start + backed ≤ fin := by omega
      have hup := pageAlignUp_eq (start + backed)
      rw [Nat.mod_eq_of_lt (by omega)] at hup
      refine ⟨hle, ?_⟩
      have hlast : pageAlignUp (start + backed) = v + 4096 := by omega
      rw [hlast]
      omega
    · obtain ⟨k, hk, hlo, hhi⟩ := hbyte
      obtain ⟨v', hv', ht, hin, hok⟩ := h k hk
      obtain ⟨-, hvk, -⟩ := (htakes k hk v' hv').1 ⟨ht, hin⟩
      obtain ⟨hal, -, -⟩ := (hmem v).1 hv
      have heq : v' = v := by omega
      rwa [heq] at hok
  · rintro ⟨hregion, hok⟩ k hk
    obtain ⟨hle, hoff⟩ := hregion (by omega)
    have hup := pageAlignUp_eq (start + backed)
    rw [Nat.mod_eq_of_lt (by omega)] at hup
    have hv : start + k - (start + k) % 4096 ∈ pageRange (start - start % 4096) fin :=
      (hmem _).2 ⟨by omega, by omega, by omega⟩
    obtain ⟨ht, hin⟩ := (htakes k hk _ hv).2 ⟨by omega, rfl, by omega⟩
    exact ⟨_, hv, ht, hin, hok _ hv ⟨k, hk, by omega, by omega⟩⟩

/-- When a load has laid all items, the bytes that the file has for a region are all copied
    if and only if the region is good and the scratch mappings of its shared pages were
    made. -/
theorem Laid.region_copied_iff {w : World} {index : ℕ} (h : Laid env f items w) (ho : InOrder items)
    (item : ℕ → PlaceItem) (hstart : start < 2 ^ 64) (hsize : size < 2 ^ 64) (hfin : fin % 4096 = 0)
    (hfin' : fin < 2 ^ 64) (hbacked : backed ≤ size) (hsite : ∀ v, (item v).site = .segment index v)
    (hpage : ∀ v, (item v).page = v)
    (hitem : ∀ v ∈ pageRange (start - start % 4096) fin, (item v).Backs start size off)
    (hitems : ∀ it, (it ∈ items ∧ it.site = .segment index it.page) ↔
      ∃ v ∈ pageRange (start - start % 4096) fin, item v = it) :
    (∀ k < backed, CopiedFor w index ((start + k) % 2 ^ 64) (off + k)) ↔
    (0 < backed → start + backed ≤ fin ∧
      off + min size (pageAlignUp (start + backed) - start) ≤ f.size) ∧
    ∀ v ∈ pageRange (start - start % 4096) fin,
      (∃ k < backed, v ≤ start + k ∧ start + k < v + 4096) →
        (item v).Shared items → env.mapScratch (.segment index v) = 0 := by
  have hsize' : f.size < 2 ^ 64 := f.size_lt.trans (by decide)
  rw [← forall_takes_iff hstart hsize hsize' hfin hfin' hbacked hpage hitem]
  refine forall₂_congr fun k _ => (h.copiedFor_iff ho).trans ⟨?_, ?_⟩
  · rintro ⟨it, hit, his, ht, hin, hscratch⟩
    obtain ⟨v, hv, rfl⟩ := (hitems it).1 ⟨hit, his⟩
    rw [hsite] at hscratch
    exact ⟨v, hv, ht, hin, hscratch⟩
  · rintro ⟨v, hv, ht, hin, hscratch⟩
    obtain ⟨hit, his⟩ := (hitems (item v)).2 ⟨v, hv, rfl⟩
    refine ⟨item v, hit, his, ht, hin, ?_⟩
    rwa [hsite]

end

end Trona
