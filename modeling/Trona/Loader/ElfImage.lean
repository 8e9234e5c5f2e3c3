import Mathlib.Data.List.Pairwise
import Trona.Loader.Elf

/-!
# The image of an ELF file

The segment loop of `elf_load` makes the image that the program headers describe, in
whatever order the segments come and however they share pages: `elfLoadSegments_image`.
-/

namespace Trona

/-- The memory ranges of two segments are disjoint. -/
def Elf64Phdr.Disjoint (a b : Elf64Phdr) : Prop :=
  a.pVaddr + a.pMemsz ≤ b.pVaddr ∨ b.pVaddr + b.pMemsz ≤ a.pVaddr

instance : Std.Symm Elf64Phdr.Disjoint where
  symm _ _ h := h.symm

instance (a b : Elf64Phdr) : Decidable (a.Disjoint b) := inferInstanceAs (Decidable (_ ∨ _))

/-- A well-formed ELF64 file, to be loaded at `loadBase`: its segments are not empty and
    are disjoint, their bytes are in the file, they do not leave the address space, and
    they do not have too many pages. -/
structure ElfWellFormed (arch : Arch) (f : File) (loadBase : ℕ) (plan : ElfPlan) : Prop where
  header : elfHeader arch f = .ok plan.ehdr
  table : phdrs f plan.ehdr = some plan.phs
  delta_eq : plan.delta = if plan.ehdr.eType = etDyn then wsub loadBase (minVaddr plan.phs) else 0
  load : ∃ ph ∈ plan.phs, ph.isLoad = true
  nonempty : ∀ ph ∈ plan.phs, ph.isLoad = true → 0 < ph.pMemsz
  filesz_le : ∀ ph ∈ plan.phs, ph.isLoad = true → ph.pFilesz ≤ ph.pMemsz
  in_file : ∀ ph ∈ plan.phs, ph.isLoad = true → ph.pOffset + ph.pFilesz ≤ f.size
  disjoint : (plan.phs.filter Elf64Phdr.isLoad).Pairwise Elf64Phdr.Disjoint
  no_overflow : ∀ ph ∈ plan.phs, ph.isLoad = true → ph.pVaddr + ph.pMemsz < 2 ^ 64
  no_wrap : ∀ ph ∈ plan.phs, ph.isLoad = true → ph.NoWrap plan.delta
  pages_le : (elfItems plan.phs plan.delta).length ≤ maxPages

namespace Elf64Phdr

variable {ph : Elf64Phdr} {delta v : ℕ} {f : File}

section

variable (index : ℕ) (h : ph.NoWrap delta) (hd : delta < 2 ^ 64) (hle : ph.pFilesz ≤ ph.pMemsz)
  (hfile : ph.pOffset + ph.pFilesz ≤ f.size) {page o : ℕ} (hpage : page ∈ ph.segPages delta)

include h hd hle hfile hpage

/-- The item of a page, when nothing wraps and the bytes are in the file. -/
theorem item_eq : (ph.item delta index page).len =
      min (page + 4096) (ph.segVaddr delta + ph.pFilesz) - max page (ph.segVaddr delta) ∧
    (0 < (ph.item delta index page).len →
      (ph.item delta index page).dst = max page (ph.segVaddr delta) - page ∧
      (ph.item delta index page).src =
        ph.pOffset + (max page (ph.segVaddr delta) - ph.segVaddr delta)) := by
  obtain ⟨hlen, hsrc⟩ := item_spec index hd hpage
  have hsize := f.size_lt
  unfold NoWrap at h
  rw [Nat.mod_eq_of_lt (show ph.segVaddr delta + ph.pFilesz < 2 ^ 64 by omega)] at hlen
  refine ⟨hlen, fun hpos => ⟨(hsrc hpos).1, ?_⟩⟩
  omega

/-- The copy of an item reads the segment's part of the file. -/
theorem item_in_file (hpos : 0 < (ph.item delta index page).len) :
    (ph.item delta index page).src + (ph.item delta index page).len ≤ f.size := by
  obtain ⟨hlen, hsrc⟩ := item_eq index h hd hle hfile hpage
  omega

/-- An item copies the bytes of its page that are in the segment's part of the file. -/
theorem item_covers (ho : o < 4096) : (ph.item delta index page).Covers f v o ↔
    page = v ∧ ph.segVaddr delta ≤ page + o ∧ page + o < ph.segVaddr delta + ph.pFilesz := by
  obtain ⟨hlen, hsrc⟩ := item_eq index h hd hle hfile hpage
  simp only [PlaceItem.Covers, PlaceItem.Copies,
    show (ph.item delta index page).page = page from rfl]
  constructor
  · rintro ⟨⟨hpos, -⟩, hv, hlo, hhi⟩
    omega
  · rintro ⟨hv, hlo, hhi⟩
    omega

theorem item_source (ho : (ph.item delta index page).Covers f v o) :
    (ph.item delta index page).source o = ph.pOffset + (page + o - ph.segVaddr delta) := by
  obtain ⟨hlen, hsrc⟩ := item_eq index h hd hle hfile hpage
  obtain ⟨⟨hpos, -⟩, -, hlo, hhi⟩ := ho
  unfold PlaceItem.source
  omega

end

/-- Disjoint segments are disjoint at run time too. -/
theorem eq_of_mem_range {arch : Arch} {loadBase a : ℕ} {plan : ElfPlan} {ph' : Elf64Phdr}
    (hwf : ElfWellFormed arch f loadBase plan) (hph : ph ∈ plan.phs) (hl : ph.isLoad = true)
    (hph' : ph' ∈ plan.phs) (hl' : ph'.isLoad = true)
    (ha : ph.segVaddr plan.delta ≤ a ∧ a < ph.segVaddr plan.delta + ph.pMemsz)
    (ha' : ph'.segVaddr plan.delta ≤ a ∧ a < ph'.segVaddr plan.delta + ph'.pMemsz) : ph' = ph := by
  by_contra hne
  have hdisj :=
    hwf.disjoint.forall (List.mem_filter.2 ⟨hph', hl'⟩) (List.mem_filter.2 ⟨hph, hl⟩) hne
  have h₁ := hwf.no_overflow ph hph hl
  have h₂ := hwf.no_overflow ph' hph' hl'
  unfold NoWrap segVaddr Elf64Phdr.Disjoint at *
  omega

end Elf64Phdr

/-- A segment has a byte on a page. -/
def Elf64Phdr.Touches (ph : Elf64Phdr) (delta v : ℕ) : Prop :=
  ph.segVaddr delta < v + 4096 ∧ v < ph.segVaddr delta + ph.pMemsz

section

variable {arch : Arch} {env : Env} {f : File} {loadBase : ℕ} {plan : ElfPlan} {w : World}

namespace ElfWellFormed

variable (hwf : ElfWellFormed arch f loadBase plan)

include hwf

theorem delta_lt : plan.delta < 2 ^ 64 := by
  rw [hwf.delta_eq]
  split
  · exact wsub_lt _ _
  · decide

variable {ph : Elf64Phdr} {v : ℕ}

/-- The pages that are loaded are those that segments have bytes on. -/
theorem mem_segPages_iff (hph : ph ∈ plan.phs) (hl : ph.isLoad = true) :
    v ∈ ph.segPages plan.delta ↔ v % 4096 = 0 ∧ ph.Touches plan.delta v := by
  have hno := hwf.no_wrap ph hph hl
  rw [Elf64Phdr.mem_segPages, ph.segStart_eq, hno.segEnd_eq, Elf64Phdr.Touches]
  omega

theorem items_length :
    pageCapacity plan.phs plan.delta = (elfItems plan.phs plan.delta).length := by
  have := hwf.pages_le
  rw [pageCapacity_eq, Nat.mod_eq_of_lt]
  simp only [maxPages] at this
  omega

theorem capacity_pos : 0 < (elfItems plan.phs plan.delta).length := by
  obtain ⟨ph, hph, hl⟩ := hwf.load
  obtain ⟨i, hi⟩ := exists_mem_loads hph hl
  have hpos := hwf.nonempty ph hph hl
  have hv : ph.segStart plan.delta ∈ ph.segPages plan.delta := by
    rw [hwf.mem_segPages_iff hph hl, Elf64Phdr.Touches, ph.segStart_eq]
    omega
  exact List.length_pos_of_mem (mem_elfItems.2 ⟨ph, i, _, hi, hv, rfl⟩)

/-- A well-formed file passes the checks. -/
theorem elfPlan_eq : elfPlan arch f loadBase = .ok plan := by
  have hload : plan.phs.any Elf64Phdr.isLoad = true := List.any_eq_true.2 hwf.load
  have hcap := hwf.items_length
  have hpos := hwf.capacity_pos
  have hle := hwf.pages_le
  simp only [elfPlan, hwf.header, bind, Except.bind, hwf.table, hload, ← hwf.delta_eq]
  rw [if_neg (by simp), if_neg (by omega), if_neg (by omega)]

/-- What is copied is in the file. -/
theorem items_in_file {it : PlaceItem} (hit : it ∈ elfItems plan.phs plan.delta)
    (hc : it.Copies f) : it.src + it.len ≤ f.size := by
  obtain ⟨ph, i, v, hi, hv, rfl⟩ := mem_elfItems.1 hit
  obtain ⟨hph, hl⟩ := mem_of_mem_loads hi
  exact Elf64Phdr.item_in_file _ (hwf.no_wrap ph hph hl) hwf.delta_lt (hwf.filesz_le ph hph hl)
    (hwf.in_file ph hph hl) hv hc.1

/-- With all calls succeeding, the segment loop lays its items. -/
theorem elfLoadSegments_succeeds (hs : env.Succeeds) (hfresh : env.FreshFrames) (hw : w.Start)
    (hcounter : env.allocFrameSlot = none →
      w.nextFrameSlot ≠ 0 ∧ w.nextFrameSlot + maxPages < 2 ^ 64) :
    wp (elfLoadSegments arch env f loadBase)
      (fun p w' => p = plan ∧ Laid env f (elfItems plan.phs plan.delta) w' ∧
        Refines env f (elfItems plan.phs plan.delta) w') (fun _ _ => False) w := by
  have hle := hwf.pages_le
  rw [wp_elfLoadSegments, hwf.elfPlan_eq]
  refine wp_mono (wp_and (wp_and (placePages_laid hw.reset)
    (placePages_refines hw.reset hfresh (elfItems_inOrder _ _).sites_nodup))
    (placePages_succeeds hw.reset hs (fun _ => hwf.items_in_file) hwf.items_length.ge fun h => ?_))
    (fun _ _ h => ⟨rfl, h.1⟩) fun _ _ h => h.2
  have := hcounter h
  exact ⟨this.1, by simp only; omega⟩

/-- A header of a segment is in the table once. -/
theorem loads_unique {i i' : ℕ} (hi : (ph, i) ∈ loads plan.phs) (hi' : (ph, i') ∈ loads plan.phs) :
    i' = i := by
  have hnodup : ((loads plan.phs).map Prod.fst).Nodup := by
    rw [loads_map_fst]
    refine hwf.disjoint.imp_of_mem fun {a b} ha _ hdisj heq => ?_
    obtain ⟨hph, hl⟩ := List.mem_filter.1 ha
    have hpos := hwf.nonempty a hph hl
    subst heq
    unfold Elf64Phdr.Disjoint at hdisj
    omega
  exact congrArg Prod.snd (List.inj_on_of_nodup_map hnodup hi' hi rfl)

section

variable {ph : Elf64Phdr} {i k a : ℕ} (hi : (ph, i) ∈ loads plan.phs)
  (ha : a = ph.segVaddr plan.delta + k)

include hi ha

/-- The address of a byte of a segment is on a page of the segment. -/
theorem page_mem_segPages (hk : k < ph.pMemsz) : a - a % 4096 ∈ ph.segPages plan.delta := by
  obtain ⟨hph, hl⟩ := mem_of_mem_loads hi
  rw [hwf.mem_segPages_iff hph hl, Elf64Phdr.Touches]
  omega

/-- The item of the segment covers the bytes that the file has for it. -/
theorem item_covers (hk : k < ph.pFilesz) :
    (ph.item plan.delta i (a - a % 4096)).Covers f (a - a % 4096) (a % 4096) := by
  obtain ⟨hph, hl⟩ := mem_of_mem_loads hi
  have hle := hwf.filesz_le ph hph hl
  rw [Elf64Phdr.item_covers _ (hwf.no_wrap ph hph hl) hwf.delta_lt hle (hwf.in_file ph hph hl)
    (hwf.page_mem_segPages hi ha (by omega)) (Nat.mod_lt _ (by decide))]
  omega

/-- An item that covers a byte of a segment is one of this segment. -/
theorem eq_item_of_covers (hk : k < ph.pMemsz) {it : PlaceItem}
    (hit : it ∈ elfItems plan.phs plan.delta) (hc : it.Covers f (a - a % 4096) (a % 4096)) :
    it = ph.item plan.delta i (a - a % 4096) ∧ k < ph.pFilesz ∧
      it.source (a % 4096) = ph.pOffset + k := by
  obtain ⟨hph, hl⟩ := mem_of_mem_loads hi
  obtain ⟨ph', i', v', hi', hv', rfl⟩ := mem_elfItems.1 hit
  obtain ⟨hph', hl'⟩ := mem_of_mem_loads hi'
  have hno := hwf.no_wrap ph' hph' hl'
  have hle := hwf.filesz_le ph' hph' hl'
  have hin := hwf.in_file ph' hph' hl'
  have hsource := Elf64Phdr.item_source _ hno hwf.delta_lt hle hin hv' hc
  have hrange :=
    (Elf64Phdr.item_covers _ hno hwf.delta_lt hle hin hv' (Nat.mod_lt _ (by decide))).1 hc
  obtain rfl := Elf64Phdr.eq_of_mem_range (a := a) hwf hph hl hph' hl' (by omega) (by omega)
  obtain rfl := hwf.loads_unique hi hi'
  exact ⟨by rw [hrange.1], by omega, by omega⟩

end

/-- Every byte of a segment is the byte of the file, or zero past the part in the
    file. -/
theorem image_byte (hs : env.Succeeds) (hph : ph ∈ plan.phs) (hl : ph.isLoad = true) {k : ℕ}
    (hk : k < ph.pMemsz) {p : ImagePage} {a : ℕ} (ha : a = ph.segVaddr plan.delta + k)
    (hp : (elfItems plan.phs plan.delta).foldl (Image.place env f) (fun _ => none)
      (a - a % 4096) = some p) :
    p.bytes (a % 4096) = if k < ph.pFilesz then f.byte (ph.pOffset + k) else 0 := by
  obtain ⟨i, hi⟩ := exists_mem_loads hph hl
  have hcov : ∀ it ∈ elfItems plan.phs plan.delta, it.Covers f (a - a % 4096) (a % 4096) →
      k < ph.pFilesz ∧ it.source (a % 4096) = ph.pOffset + k :=
    fun it hit hc => (hwf.eq_item_of_covers hi ha hk hit hc).2
  rw [image_bytes hs.mapScratch (fun it hit hc => (hcov it hit hc).2) hp]
  by_cases hfile : k < ph.pFilesz
  · rw [if_pos hfile, if_pos]
    exact ⟨_, mem_elfItems.2 ⟨ph, i, _, hi, hwf.page_mem_segPages hi ha hk, rfl⟩,
      hwf.item_covers hi ha hfile⟩
  · rw [if_neg hfile, if_neg]
    rintro ⟨it, hit, hc⟩
    exact hfile (hcov it hit hc).1

/-- A page has a permission when a segment with a byte on the page gives it. -/
theorem any_items (perm : PlaceItem → Bool) (seg : Elf64Phdr → Prop)
    (hperm : ∀ ph i v, perm (ph.item plan.delta i v) = true ↔ seg ph) (hv : v % 4096 = 0) :
    ((elfItems plan.phs plan.delta).any fun it => it.page = v && perm it) = true ↔
      ∃ ph ∈ plan.phs, ph.isLoad = true ∧ ph.Touches plan.delta v ∧ seg ph := by
  simp only [List.any_eq_true, Bool.and_eq_true, decide_eq_true_eq]
  constructor
  · rintro ⟨it, hit, rfl, hp⟩
    obtain ⟨ph, i, v, hi, hv', rfl⟩ := mem_elfItems.1 hit
    obtain ⟨hph, hl⟩ := mem_of_mem_loads hi
    exact ⟨ph, hph, hl, ((hwf.mem_segPages_iff hph hl).1 hv').2, (hperm ph i v).1 hp⟩
  · rintro ⟨ph, hph, hl, ht, hp⟩
    obtain ⟨i, hi⟩ := exists_mem_loads hph hl
    exact ⟨_, mem_elfItems.2 ⟨ph, i, v, hi, (hwf.mem_segPages_iff hph hl).2 ⟨hv, ht⟩, rfl⟩, rfl,
      (hperm ph i v).2 hp⟩

end ElfWellFormed

/-- The image of an ELF file. When all calls succeed and every frame is given out once,
    the segment loop ends with every byte of every segment in the child: the byte of the
    file, or zero past the part in the file. Every page mapped has one frame of its own,
    given out for it. A page is writable when some segment on it is, and executable when no
    segment on it is writable and some segment is executable. -/
theorem elfLoadSegments_image (hwf : ElfWellFormed arch f loadBase plan) (hs : env.Succeeds)
    (hfresh : env.FreshFrames) (hw : w.Start)
    (hcounter : env.allocFrameSlot = none →
      w.nextFrameSlot ≠ 0 ∧ w.nextFrameSlot + maxPages < 2 ^ 64) :
    ∃ w', (elfLoadSegments arch env f loadBase).run w = .ok plan w' ∧
      (∀ ph ∈ plan.phs, ph.isLoad = true → ∀ k < ph.pMemsz,
        w'.childByte ((ph.pVaddr + plan.delta + k) % 2 ^ 64) =
          some (if k < ph.pFilesz then f.byte (ph.pOffset + k) else 0)) ∧
      (w'.pages.map PageEntry.vaddr).Nodup ∧ (w'.pages.map PageEntry.frameCap).Nodup ∧
      allocs w'.log = w'.pages.map PageEntry.frameCap ∧
      (∀ v, (∃ frame flags, LoadEvent.map v frame flags ∈ w'.log) ↔ ∃ e ∈ w'.pages, e.vaddr = v) ∧
      ∀ e ∈ w'.pages, w'.child e.vaddr = some ⟨e.frameCap, e.flags⟩ ∧
        (e.flags &&& vspaceFlagWritable ≠ 0 ↔ ∃ ph ∈ plan.phs, ph.isLoad = true ∧
          ph.Touches plan.delta e.vaddr ∧ ph.pFlags &&& pfW ≠ 0) ∧
        (e.flags &&& vspaceFlagExecutable ≠ 0 ↔
          (¬∃ ph ∈ plan.phs, ph.isLoad = true ∧ ph.Touches plan.delta e.vaddr ∧
            ph.pFlags &&& pfW ≠ 0) ∧
          ∃ ph ∈ plan.phs, ph.isLoad = true ∧ ph.Touches plan.delta e.vaddr ∧
            ph.pFlags &&& pfX ≠ 0) := by
  obtain ⟨p, w', hrun, rfl, hlaid, href⟩ :=
    wp_exists_ok (hwf.elfLoadSegments_succeeds hs hfresh hw hcounter)
  refine ⟨w', hrun, fun ph hph hl k hk => ?_, hlaid.nodup,
    href.distinct.frameCaps_nodup hlaid.nodup, hlaid.allocs_eq, fun v => ?_, fun e he => ?_⟩
  · -- The byte is on a page of the segment, whose image is known.
    have hno := hwf.no_wrap ph hph hl
    have haddr : (ph.pVaddr + p.delta + k) % 2 ^ 64 = ph.segVaddr p.delta + k := by
      unfold Elf64Phdr.NoWrap at hno
      unfold Elf64Phdr.segVaddr at hno ⊢
      omega
    generalize ha : (ph.pVaddr + p.delta + k) % 2 ^ 64 = a at haddr
    obtain ⟨i, hi⟩ := exists_mem_loads hph hl
    have hv : a - a % 4096 ∈ ph.segPages p.delta := by
      rw [hwf.mem_segPages_iff hph hl, Elf64Phdr.Touches]
      omega
    have hmem : (w'.entry (a - a % pageSize)).isSome = true :=
      (hlaid.mem _).2 ⟨_, mem_elfItems.2 ⟨ph, i, _, hi, hv, rfl⟩, rfl⟩
    rw [hlaid.inSync.childByte_eq hmem, href.image_eq]
    have hsome : ((elfItems p.phs p.delta).foldl (Image.place env f) (fun _ => none)
        (a - a % pageSize)).isSome = true :=
      image_isSome.2 ⟨_, mem_elfItems.2 ⟨ph, i, _, hi, hv, rfl⟩, rfl⟩
    obtain ⟨q, hq⟩ := Option.isSome_iff_exists.1 hsome
    rw [hq, Option.map_some, Option.some.injEq]
    exact hwf.image_byte hs hph hl hk haddr hq
  · constructor
    · rintro ⟨frame, flags, hev⟩
      have hentry := (hlaid.mem v).2 (hlaid.maps v frame flags hev).1
      obtain ⟨e, he⟩ := Option.isSome_iff_exists.1 hentry
      exact ⟨e, mem_of_lookup he, key_of_lookup he⟩
    · rintro ⟨e, he, rfl⟩
      obtain ⟨it, hit, hv⟩ := (hlaid.mem _).1 (lookup_isSome_of_mem he)
      rw [← hv]
      exact hlaid.mapped it hit
  · have hentry : w'.entry e.vaddr = some e := lookup_of_mem hlaid.nodup he
    obtain ⟨it, hit, hv⟩ := (hlaid.mem e.vaddr).1 (by simp [hentry])
    have halign : e.vaddr % 4096 = 0 := by
      obtain ⟨ph, i, v, _, hv', rfl⟩ := mem_elfItems.1 hit
      rw [← hv]
      exact (Elf64Phdr.mem_segPages.1 hv').1
    have hwrite := hwf.any_items PlaceItem.writable _ (fun _ _ _ => Elf64Phdr.item_writable) halign
    have hexec := hwf.any_items PlaceItem.executable _ (fun _ _ _ => Elf64Phdr.item_executable)
      halign
    refine ⟨hlaid.inSync _ _ hentry, ?_, ?_⟩
    · rw [hlaid.flags _ _ hentry, permFlags_writable]
      exact hwrite
    · rw [hlaid.flags _ _ hentry, permFlags_executable, ← Bool.not_eq_true]
      refine (and_congr (not_congr hwrite) hexec).trans (and_congr_right fun hno => ?_)
      -- where no segment is writable, the segments keep their permission to execute
      constructor
      · rintro ⟨ph, hph, hl, ht, -, hx⟩
        exact ⟨ph, hph, hl, ht, hx⟩
      · rintro ⟨ph, hph, hl, ht, hx⟩
        exact ⟨ph, hph, hl, ht, fun hw => hno ⟨ph, hph, hl, ht, hw⟩, hx⟩

end

/-- A position-independent file with two segments on one page, the second with
    uninitialised data at its end. -/
def twoSegments : File where
  bytes := ehdrBytes etDyn 2 ++ phdrBytes ptLoad 5 0 0x1000 176 176 ++
    phdrBytes ptLoad 6 64 0x10C0 16 40
  length_lt := by simp [ehdrBytes, phdrBytes, wordBytes]

/-- The plan for the file with two segments. -/
def twoSegmentsPlan : ElfPlan :=
  resultOf (elfPlan .x86_64 twoSegments 0x210000) (by decide +kernel)

theorem twoSegments_wellFormed : ElfWellFormed .x86_64 twoSegments 0x210000 twoSegmentsPlan := by
  have hplan : elfPlan .x86_64 twoSegments 0x210000 = .ok twoSegmentsPlan := eq_ok_resultOf _
  obtain ⟨hheader, htable, hload, hdelta, -, -⟩ := elfPlan_ok hplan
  exact ⟨hheader, htable, hdelta, hload, by decide +kernel, by decide +kernel, by decide +kernel,
    by decide +kernel, by decide +kernel, by decide +kernel, by decide +kernel⟩

theorem elfLoadSegments_image_twoSegments :
    ∃ w', (elfLoadSegments .x86_64 Env.quiet twoSegments 0x210000).run World.initial =
        .ok twoSegmentsPlan w' ∧
      ∀ ph ∈ twoSegmentsPlan.phs, ph.isLoad = true → ∀ k < ph.pMemsz,
        w'.childByte ((ph.pVaddr + twoSegmentsPlan.delta + k) % 2 ^ 64) =
          some (if k < ph.pFilesz then twoSegments.byte (ph.pOffset + k) else 0) := by
  obtain ⟨w', hrun, hbytes, -⟩ := elfLoadSegments_image twoSegments_wellFormed Env.quiet_succeeds
    Env.quiet_freshFrames World.initial_start fun _ => by decide
  exact ⟨w', hrun, hbytes⟩

end Trona
