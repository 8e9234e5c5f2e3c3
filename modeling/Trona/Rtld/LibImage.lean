import Trona.Loader.ElfImage
import Trona.Loader.ElfReloc
import Trona.Rtld.Needed

/-!
# The image of a library

`load_shared_library` (`rtld/elf/rtld_elf.c`) and `elf_load` (`loader/elf_loader.rs`) both map
the segments of a file. The linker has one more way to do so: a page that the file has all
bytes of, and that is not writable, is mapped from the initial RAM disk itself if the kernel
allows it. Such a page cannot be shared with a later segment.

Both loops refine the image that the items of the file give when they are laid over each other
(`Image.place`). For the linker this is `loadSegments_laid`; no later segment meets a page that
was mapped from the RAM disk, because the segments of a well-formed file are disjoint
(`ElfWellFormed.eq_of_full`). The two address spaces are then the same page by page
(`loadSharedLibrary_image`).
-/

namespace Trona

/-- An item with all bytes of its page is the only one there: another segment would have a byte
    on the page too. -/
theorem ElfWellFormed.eq_of_full {arch : Arch} {f : File} {loadBase : ℕ} {plan : ElfPlan}
    {it it' : PlaceItem} (hwf : ElfWellFormed arch f loadBase plan)
    (hit : it ∈ elfItems plan.phs plan.delta) (hit' : it' ∈ elfItems plan.phs plan.delta)
    (hpage : it'.page = it.page) (hfull : it.len = pageSize) : it' = it := by
  obtain ⟨ph, i, v, hi, hv, rfl⟩ := mem_elfItems.1 hit
  obtain ⟨ph', i', v', hi', hv', rfl⟩ := mem_elfItems.1 hit'
  obtain rfl : v' = v := hpage
  obtain ⟨hph, hl⟩ := mem_of_mem_loads hi
  obtain ⟨hph', hl'⟩ := mem_of_mem_loads hi'
  have hle := hwf.filesz_le ph hph hl
  have hlen := (Elf64Phdr.item_eq i (hwf.no_wrap ph hph hl) hwf.delta_lt hle
    (hwf.in_file ph hph hl) hv).1
  obtain ⟨-, htouch⟩ := (hwf.mem_segPages_iff hph' hl').1 hv'
  rw [Elf64Phdr.Touches] at htouch
  rw [hfull, pageSize] at hlen
  -- The first byte that the other segment has on the page is one of this segment.
  have hpos := hwf.nonempty ph' hph' hl'
  obtain rfl := Elf64Phdr.eq_of_mem_range (a := max v' (ph'.segVaddr plan.delta)) hwf hph hl
    hph' hl' (by omega) (by omega)
  rw [hwf.loads_unique hi hi']

namespace Rtld

/-! ## One page -/

section

variable {ph : Elf64Phdr} {delta page i : ℕ} {f : File}

/-- What is copied for an item. -/
def itemCopy (f : File) (it : PlaceItem) : PageCopy :=
  ⟨it.src, it.dst, if it.Copies f then it.len else 0⟩

/-- What the linker copies to a page is what the item of the loader copies. -/
theorem pageCopy_eq (i : ℕ) (hd : delta < 2 ^ 64) (hv : page ∈ ph.segPages delta) :
    pageCopy ph delta f.size page = itemCopy f (ph.item delta i page) := by
  obtain ⟨-, -, hhi⟩ := Elf64Phdr.mem_segPages.1 hv
  have hend := ph.segEnd_le delta
  have hbound : (page + pageSize) % 2 ^ 64 = page + pageSize :=
    Nat.mod_eq_of_lt (by rw [pageSize]; omega)
  have hstart : (if page > ph.segVaddr delta then page else ph.segVaddr delta) =
      overlapStart page (ph.segVaddr delta) := rfl
  have hfin : (if page + pageSize < (ph.segVaddr delta + ph.pFilesz) % 2 ^ 64 then page + pageSize
      else (ph.segVaddr delta + ph.pFilesz) % 2 ^ 64) =
      overlapEnd page ((ph.segVaddr delta + ph.pFilesz) % 2 ^ 64) := by
    rw [overlapEnd, hbound]
  have hle : ph.segVaddr delta ≤ overlapStart page (ph.segVaddr delta) := by
    unfold overlapStart
    split <;> omega
  have hsrc := ph.src_eq hd hle
  rw [Nat.add_comm ph.pOffset] at hsrc
  simp only [pageCopy, itemCopy, hstart, hfin, Elf64Phdr.item, PlaceItem.ofOverlap,
    PlaceItem.Copies, hsrc]
  -- What is left is about the two ends of the overlap and the offset in the file.
  generalize overlapStart page (ph.segVaddr delta) = lo
  generalize overlapEnd page ((ph.segVaddr delta + ph.pFilesz) % 2 ^ 64) = hi
  generalize (lo - ph.segVaddr delta + ph.pOffset) % 2 ^ 64 = src
  by_cases hc : lo < hi
  · simp only [if_pos hc]
    by_cases hin : (src + (hi - lo)) % 2 ^ 64 ≤ f.size
    · rw [if_neg (by omega), if_pos ⟨by omega, hin⟩]
    · rw [if_pos (by omega), if_neg fun h => hin h.2]
  · simp only [if_neg hc]
    rw [if_neg fun h => absurd h.1 (Nat.lt_irrefl 0)]

end

/-- The kernel agrees to all calls, but for those that map a page of the initial RAM disk. -/
structure Env.Agrees (env : Env) : Prop where
  retype : ∀ site ut, env.retype site ut = 0
  mapScratch : ∀ site, env.mapScratch site = 0
  mapPage : ∀ site, env.mapPage site = 0
  unmapPage : ∀ site, env.unmapPage site = 0

namespace State

variable (s : State)

/-- A page of the library that is being loaded. -/
def libPage (v : ℕ) : Option LibPage := lookup LibPage.vaddr s.pages v

/-- An item is laid over a frame. -/
def layFrame (f : File) (it : PlaceItem) (slot : ℕ) : State :=
  { s with frames := fun c => if c = slot then it.overlay f (s.frames c) else s.frames c }

/-- A file is in the memory that the linker was given, on pages that it has not mapped. -/
def Archived (data : ℕ) (f : File) : Prop :=
  ∀ i < f.size, s.vspace ((data + i) % 2 ^ 64 - (data + i) % 2 ^ 64 % pageSize) = none ∧
    s.given ((data + i) % 2 ^ 64) = some (f.byte i)

variable {s} {s' : State} {data : ℕ} {f : File}

theorem Archived.holds (h : s.Archived data f) (cfg : Config) :
    (s.memory cfg).Holds data f := by
  intro i hi
  obtain ⟨hclear, hbyte⟩ := h i hi
  rw [memory, hclear]
  exact hbyte

theorem Archived.congr (h : s.Archived data f) (hgiven : s'.given = s.given)
    (hvspace : s'.vspace = s.vspace) : s'.Archived data f := by
  intro i hi
  rw [hgiven, hvspace]
  exact h i hi

end State

/-- The three ways to load a page: to add to one that an earlier segment has, to map one of the
    initial RAM disk, and to map a new frame. -/
inductive PageCase (cfg : Config) (data : ℕ) (f : File) (it : PlaceItem) (s s' : State) :
    LibPage → Backing → Prop
  | merge (e : LibPage) (he : s.libPage it.page = some e) (hdev : e.isDevice = false)
      (hframes : s'.frames = (s.layFrame f it e.frameSlot).frames)
      (hnext : s'.nextFrameSlot = s.nextFrameSlot) :
      PageCase cfg data f it s s' { e with flags := mergeFlags e.flags it.flags }
        (.frame e.frameSlot)
  | device (off : ℕ) (hnew : s.libPage it.page = none) (hcopies : it.Copies f)
      (hdst : it.dst = 0) (hlen : it.len = pageSize)
      (hoff : ∀ o, (cfg.initrdBase + off + o) % 2 ^ 64 = (data + (it.src + o)) % 2 ^ 64)
      (hframes : s'.frames = s.frames) (hnext : s'.nextFrameSlot = s.nextFrameSlot) :
      PageCase cfg data f it s s' ⟨it.page, 0, it.flags, true⟩ (.device off)
  | alloc (hnew : s.libPage it.page = none)
      (hframes : s'.frames = ((s.zeroFrame s.nextFrameSlot).layFrame f it s.nextFrameSlot).frames)
      (hnext : s'.nextFrameSlot = (s.nextFrameSlot + 1) % 2 ^ 64) :
      PageCase cfg data f it s s' ⟨it.page, s.nextFrameSlot, it.flags, false⟩
        (.frame s.nextFrameSlot)

/-- From `s` to `s'` the page of an item has got the entry `e` and what is behind it, and the
    other pages are as they were. -/
structure PageLoaded (cfg : Config) (data : ℕ) (f : File) (it : PlaceItem) (s s' : State)
    (e : LibPage) (b : Backing) : Prop where
  given_eq : s'.given = s.given
  objects_eq : s'.objects = s.objects
  libPage_eq : ∀ v, s'.libPage v = if v = it.page then some e else s.libPage v
  vspace_eq : ∀ v, s'.vspace v = if v = it.page then some ⟨b, e.flags⟩ else s.vspace v
  length_le : s'.pages.length ≤ s.pages.length + 1
  pageCase : PageCase cfg data f it s s' e b

section

variable {cfg : Config} {env : Env} {cpio : CpioEntry} {ph : Elf64Phdr} {f : File}
  {it : PlaceItem} {s : State} {data slot : ℕ}

theorem overlay_of_not_copies (hno : ¬it.Copies f) (b : ℕ → UInt8) : it.overlay f b = b := by
  funext o
  rw [PlaceItem.overlay, if_neg fun h => hno h.1]

theorem layFrame_of_not_copies (hno : ¬it.Copies f) : s.layFrame f it slot = s := by
  have hframes : (fun c => if c = slot then it.overlay f (s.frames c) else s.frames c) =
      s.frames := by
    funext c
    rw [overlay_of_not_copies hno, ite_self]
  rw [State.layFrame, hframes]

theorem wp_vspaceMap {err : ℤ} {v : ℕ} {m : OwnMapping} {Q : ℤ → State → Prop}
    {E : Stop ℤ → State → Prop} : wp (vspaceMap err v m) Q E s ↔
      Q err (if err = 0 then (s.emit (.map v m)).setPage v (some m) else s.emit (.map v m)) := by
  rw [vspaceMap, wp_bind, wp_modify, wp_bind, wp_modify, wp_pure]

/-- Where a page of the initial RAM disk is mapped from, it is a page of the file. -/
theorem deviceOffset_item {off : ℕ} (hbase : cfg.initrdBase < 2 ^ 64)
    (h : deviceOffset cfg cpio ph (itemCopy f it) = some off) :
    it.Copies f ∧ it.dst = 0 ∧ it.len = pageSize ∧
      ∀ o, (cfg.initrdBase + off + o) % 2 ^ 64 = (cpio.data + (it.src + o)) % 2 ^ 64 := by
  obtain ⟨⟨-, hdst, hlen⟩, h⟩ := Option.ite_none_right_eq_some.1 h
  obtain ⟨-, h⟩ := Option.ite_none_right_eq_some.1 h
  obtain rfl := Option.some.inj h
  change (if it.Copies f then it.len else 0) = pageSize at hlen
  have hc : it.Copies f := by
    by_contra hno
    rw [if_neg hno, pageSize] at hlen
    omega
  rw [if_pos hc] at hlen
  refine ⟨hc, hdst, hlen, fun o => ?_⟩
  change (cfg.initrdBase + wsub ((cpio.data + it.src) % 2 ^ 64) cfg.initrdBase + o) % 2 ^ 64 = _
  rw [wsub]
  omega

section

variable (hdata : data ≠ 0) (hm : s.Archived data f)
  (hfile : it.Copies f → it.src + it.len ≤ f.size)

include hdata hm hfile

/-- The bytes of an item are copied to a frame. -/
theorem copyToFrame_item :
    wp (copyToFrame cfg slot data it.src it.dst (itemCopy f it).copyLen)
      (fun _ s' => s' = s.layFrame f it slot) (fun _ _ => False) s := by
  rw [copyToFrame, itemCopy]
  by_cases hc : it.Copies f
  · have hin := hfile hc
    simp only [hc, ↓reduceIte]
    rw [if_pos ⟨hdata, hc.1⟩, wp_bind, wp_get, (hm.holds cfg).read hin]
    refine wp_modify.2 ?_
    have hlen : ((f.bytes.drop it.src).take it.len).length = it.len := by
      have hsize : f.bytes.length = f.size := rfl
      rw [List.length_take, List.length_drop]
      omega
    rw [State.writeFrame, State.layFrame, hlen]
    congr 1
    funext c o
    by_cases hslot : c = slot
    · -- Byte by byte, what was read from the archive is the file.
      subst hslot
      simp only [true_and, ↓reduceIte, PlaceItem.overlay, hc]
      split_ifs with ho
      · rw [List.getD_eq_getElem?_getD, List.getElem?_take_of_lt (by omega), List.getElem?_drop,
          File.byte, List.getD_eq_getElem?_getD]
      · rfl
    · simp [hslot]
  · simp only [hc, ↓reduceIte]
    rw [if_neg fun h => absurd h.2 (Nat.lt_irrefl 0)]
    exact wp_pure.2 (layFrame_of_not_copies hc).symm

theorem patchMappedPage_item (henv : env.Agrees) {site : Site} :
    wp (patchMappedPage cfg env site slot data it.src it.dst (itemCopy f it).copyLen)
      (fun err s' => err = 0 ∧ s' = s.layFrame f it slot) (fun _ _ => False) s := by
  rw [patchMappedPage, wp_ite, wp_ite]
  refine ⟨fun h => ?_, fun _ => ⟨fun h => absurd (henv.mapScratch site) h, fun _ => ?_⟩⟩
  · have hno : ¬it.Copies f := by
      intro hc
      rw [itemCopy, if_pos hc] at h
      exact absurd (h.resolve_left hdata) (Nat.pos_iff_ne_zero.1 hc.1)
    exact wp_pure.2 ⟨rfl, (layFrame_of_not_copies hno).symm⟩
  · rw [wp_bind]
    exact wp_post (copyToFrame_item hdata hm hfile) fun _ s' h => wp_pure.2 ⟨rfl, h⟩

/-- A new frame with the bytes of an item is mapped. -/
theorem allocMapPage_item (henv : env.Agrees) {site : Site} {v flags : ℕ} :
    wp (allocMapPage cfg env site v flags data it.src it.dst (itemCopy f it).copyLen)
      (fun err s' => err = 0 ∧ s'.given = s.given ∧ s'.objects = s.objects ∧ s'.pages = s.pages ∧
        s'.vspace = (s.setPage v (some ⟨.frame s.nextFrameSlot, flags⟩)).vspace ∧
        s'.frames = ((s.zeroFrame s.nextFrameSlot).layFrame f it s.nextFrameSlot).frames ∧
        s'.nextFrameSlot = (s.nextFrameSlot + 1) % 2 ^ 64) (fun _ _ => False) s := by
  rw [allocMapPage, wp_bind, wp_get, wp_bind, wp_modify, wp_bind, retypeFrameAny, wp_bind, wp_get]
  simp only [henv.retype, henv.mapScratch, henv.mapPage, ↓reduceIte, wp_bind, wp_modify, wp_pure,
    ne_eq, not_true_eq_false]
  refine wp_post (copyToFrame_item hdata (hm.congr rfl rfl) hfile) fun _ s₁ h₁ => ?_
  subst h₁
  rw [wp_vspaceMap, if_pos rfl, if_neg (not_not.2 rfl), wp_pure]
  exact ⟨rfl, rfl, rfl, rfl, rfl, rfl, rfl⟩

end

variable (henv : env.Agrees) (hdata : cpio.data ≠ 0) (hm : s.Archived cpio.data f)
  (hfile : it.Copies f → it.src + it.len ≤ f.size)
  (hflags : it.flags = elfToVspaceFlags ph.pFlags)

include henv hdata hm hfile hflags

/-- An item is added to a page that an earlier segment has. -/
theorem mergeLibPage_item {e : LibPage} (he : s.libPage it.page = some e)
    (hdev : e.isDevice = false) (hvspace : s.vspace it.page = some ⟨.frame e.frameSlot, e.flags⟩) :
    wp (mergeLibPage cfg env cpio ph it.site it.page (itemCopy f it) e)
      (fun _ s' => ∃ e b, PageLoaded cfg cpio.data f it s s' e b)
      (fun _ _ => False) s := by
  have hnot : ¬e.isDevice = true := by rw [hdev]; decide
  have hvaddr : e.vaddr = it.page := key_of_lookup he
  rw [mergeLibPage, if_neg hnot, wp_bind, ← hflags]
  refine wp_post (patchMappedPage_item hdata hm hfile henv) fun err s₁ h₁ => ?_
  obtain ⟨rfl, rfl⟩ := h₁
  rw [if_neg (not_not.2 rfl)]
  refine wp_ite.2 ⟨fun hne => ?_, fun heq => ?_⟩
  · -- The page is mapped again, with the merged flags.
    rw [wp_bind, vspaceUnmap, wp_modify, wp_bind, wp_vspaceMap, henv.unmapPage, henv.mapPage,
      if_pos rfl, if_pos rfl, if_neg (not_not.2 rfl), wp_modify]
    refine ⟨_, _, rfl, rfl, fun v => ?_, fun v => ?_, ?_, .merge e he hdev rfl rfl⟩
    · exact lookup_replace he hvaddr
    · simp only [State.setPage, State.emit, State.layFrame]
      split <;> rfl
    · simp [replace, State.setPage, State.emit, State.layFrame]
  · refine wp_pure.2 ⟨_, _, rfl, rfl, fun v => ?_, fun v => ?_, Nat.le_succ _,
      .merge e he hdev rfl rfl⟩
    · rw [not_not.1 heq]
      split_ifs with hv
      · rw [hv]
        exact he
      · rfl
    · rw [not_not.1 heq]
      split_ifs with hv
      · rw [hv]
        exact hvspace
      · rfl

variable (hbase : cfg.initrdBase < 2 ^ 64)

include hbase

/-- An item is placed on a page that no segment has yet. -/
theorem addLibPage_item (he : s.libPage it.page = none) (hroom : s.pages.length < rtldMaxLibPages) :
    wp (addLibPage cfg env cpio ph it.site it.page (itemCopy f it))
      (fun _ s' => ∃ e b, PageLoaded cfg cpio.data f it s s' e b)
      (fun _ _ => False) s := by
  have hnew : ∀ e : LibPage, e.vaddr = it.page → ∀ v, lookup LibPage.vaddr (s.pages ++ [e]) v =
      if v = it.page then some e else lookup LibPage.vaddr s.pages v := by
    intro e hvaddr v
    rw [lookup_append_singleton (hvaddr ▸ he), hvaddr]
  -- A new frame is mapped where the initial RAM disk is not; only the log may have grown.
  have halloc : ∀ log, wp (do
      let s ← get
      let err ← allocMapPage cfg env it.site it.page it.flags cpio.data
        (itemCopy f it).dataOffset (itemCopy f it).pageOffset (itemCopy f it).copyLen
      if err ≠ 0 then throw (.error (-6))
      else recordLibPage ⟨it.page, s.nextFrameSlot, it.flags, false⟩)
      (fun _ s' => ∃ e b, PageLoaded cfg cpio.data f it s s' e b)
      (fun _ _ => False) { s with log := log } := by
    intro log
    rw [wp_bind, wp_get, wp_bind]
    refine wp_post (allocMapPage_item (s := { s with log := log }) hdata hm hfile henv)
      fun err s₂ h₂ => ?_
    obtain ⟨rfl, hgiven, hobjects, hpages, hvspace, hframes, hnext⟩ := h₂
    refine wp_modify.2 ⟨_, _, hgiven, hobjects, fun v => ?_, fun v => ?_, ?_,
      .alloc he hframes hnext⟩
    · rw [State.libPage, hpages]
      exact hnew _ rfl v
    · exact congrFun hvspace v
    · simp [hpages]
  rw [addLibPage, wp_bind, wp_get, wp_ite, ← hflags]
  refine ⟨fun h => absurd hroom (not_lt.2 h), fun _ => ?_⟩
  rw [wp_bind, mapDevicePage, ← hflags]
  split
  · exact wp_pure.2 (halloc s.log)
  · rename_i off hoff
    obtain ⟨hcopies, hdst, hlen, hbytes⟩ := deviceOffset_item hbase hoff
    rw [wp_bind, wp_vspaceMap]
    refine wp_ite.2 ⟨fun hok => ?_, fun hno => ?_⟩
    · rw [if_pos hok, recordLibPage, wp_bind, wp_modify, wp_pure]
      refine wp_pure.2 ⟨_, _, rfl, rfl, fun v => ?_, fun v => ?_, ?_,
        .device off he hcopies hdst hlen hbytes rfl rfl⟩
      · exact hnew _ rfl v
      · rfl
      · simp [State.setPage, State.emit]
    · rw [if_neg hno]
      exact wp_pure.2 (halloc _)

/-- A page of an item is loaded. -/
theorem loadPage_item (hold : ∀ e, s.libPage it.page = some e → e.isDevice = false ∧
      s.vspace it.page = some ⟨.frame e.frameSlot, e.flags⟩)
    (hroom : s.pages.length < rtldMaxLibPages) :
    wp (loadPage cfg env cpio ph it.site it.page (itemCopy f it))
      (fun _ s' => ∃ e b, PageLoaded cfg cpio.data f it s s' e b)
      (fun _ _ => False) s := by
  rw [loadPage, wp_bind, wp_get]
  split
  · rename_i e he
    obtain ⟨hdev, hvspace⟩ := hold e he
    exact mergeLibPage_item henv hdata hm hfile hflags he hdev hvspace
  · rename_i he
    exact addLibPage_item henv hdata hm hfile hflags hbase he hroom

end

/-! ## All pages -/

/-- What is behind the entry `e` of a page has the bytes of the image: a frame that the linker
    has taken since `first`, or a page of the initial RAM disk, where an item has all bytes of
    the page. -/
inductive Backed (cfg : Config) (items : List PlaceItem) (first : ℕ) (s : State) (e : LibPage)
    (p : ImagePage) : Backing → Prop
  | frame (hdev : e.isDevice = false) (hlo : first ≤ e.frameSlot)
      (hhi : e.frameSlot < s.nextFrameSlot) (hbytes : s.frames e.frameSlot = p.bytes) :
      Backed cfg items first s e p (.frame e.frameSlot)
  | device (off : ℕ) (hdev : e.isDevice = true)
      (hfull : ∃ it ∈ items, it.page = e.vaddr ∧ it.len = pageSize)
      (hbytes : ∀ o < pageSize,
        s.given ((cfg.initrdBase + off + o) % 2 ^ 64) = some (p.bytes o)) :
      Backed cfg items first s e p (.device off)

/-- The image of some items. -/
def itemsImage (lenv : Trona.Env) (f : File) (items : List PlaceItem) : Image :=
  items.foldl (Image.place lenv f) fun _ => none

/-- The linker after some items are loaded, which it was to load from the state `s₀` on: its
    pages refine their image. -/
structure LibLaid (cfg : Config) (lenv : Trona.Env) (f : File) (s₀ : State)
    (items : List PlaceItem) (s : State) : Prop where
  given_eq : s.given = s₀.given
  objects_eq : s.objects = s₀.objects
  absent : ∀ v, itemsImage lenv f items v = none →
    s.libPage v = none ∧ s.vspace v = s₀.vspace v
  present : ∀ v p, itemsImage lenv f items v = some p → ∃ e b, s.libPage v = some e ∧
    e.flags = p.flags ∧ s.vspace v = some ⟨b, p.flags⟩ ∧
      Backed cfg items s₀.nextFrameSlot s e p b
  distinct : ∀ v v' e e', s.libPage v = some e → s.libPage v' = some e' → e.isDevice = false →
    e'.isDevice = false → e.frameSlot = e'.frameSlot → v = v'
  length_le : s.pages.length ≤ items.length
  next_ge : s₀.nextFrameSlot ≤ s.nextFrameSlot
  next_le : s.nextFrameSlot ≤ s₀.nextFrameSlot + items.length

section

variable {cfg : Config} {env : Env} {lenv : Trona.Env} {cpio : CpioEntry} {ph : Elf64Phdr}
  {f : File} {it : PlaceItem} {items : List PlaceItem} {s₀ s s' : State} {data v : ℕ}
  {e e' : LibPage} {b : Backing} {p : ImagePage}

theorem itemsImage_concat : itemsImage lenv f (items ++ [it]) =
    (itemsImage lenv f items).place lenv f it := by
  rw [itemsImage, List.foldl_append]
  rfl

/-- The slots that are taken grow. -/
theorem PageCase.next (hcase : PageCase cfg data f it s s' e b)
    (hslot : s.nextFrameSlot + 1 < 2 ^ 64) :
    s.nextFrameSlot ≤ s'.nextFrameSlot ∧ s'.nextFrameSlot ≤ s.nextFrameSlot + 1 := by
  cases hcase with
  | merge e he hdev hframes hnext => omega
  | device off hnew hcopies hdst hlen hoff hframes hnext => omega
  | alloc hnew hframes hnext =>
    omega

section

variable (h : LibLaid cfg lenv f s₀ items s)

include h

/-- The entry of a page, with what is behind it and its part of the image. -/
theorem LibLaid.of_libPage (he : s.libPage v = some e) :
    ∃ p b, itemsImage lenv f items v = some p ∧ e.flags = p.flags ∧
      s.vspace v = some ⟨b, p.flags⟩ ∧ Backed cfg items s₀.nextFrameSlot s e p b := by
  cases himg : itemsImage lenv f items v with
  | none =>
    rw [(h.absent v himg).1] at he
    cases he
  | some p =>
    obtain ⟨e', b, he', hrest⟩ := h.present v p himg
    obtain rfl := Option.some.inj (he'.symm.trans he)
    exact ⟨p, b, rfl, hrest⟩

theorem LibLaid.image_eq_none (he : s.libPage v = none) :
    itemsImage lenv f items v = none := by
  cases himg : itemsImage lenv f items v with
  | none => rfl
  | some p =>
    obtain ⟨e', b, he', -⟩ := h.present v p himg
    rw [he] at he'
    cases he'

/-- Loading a page leaves the frames of the other pages. -/
theorem LibLaid.frames_eq (hcase : PageCase cfg data f it s s' e b) {e₁ : LibPage}
    (he₁ : s.libPage v = some e₁) (hv : v ≠ it.page) (hdev₁ : e₁.isDevice = false)
    (hlt : e₁.frameSlot < s.nextFrameSlot) : s'.frames e₁.frameSlot = s.frames e₁.frameSlot := by
  cases hcase with
  | merge e he hdev hframes hnext =>
    rw [hframes]
    exact if_neg fun heq => hv (h.distinct _ _ _ _ he₁ he hdev₁ hdev heq)
  | device off hnew hcopies hdst hlen hoff hframes hnext => rw [hframes]
  | alloc hnew hframes hnext =>
    rw [hframes, State.layFrame, State.zeroFrame]
    simp only [if_neg hlt.ne]

variable (hload : PageLoaded cfg data f it s s' e b) (hslot : s.nextFrameSlot + 1 < 2 ^ 64)

include hload hslot

/-- What is behind the other pages stays. -/
theorem LibLaid.backed_of_ne {e₁ : LibPage} {b₁ : Backing} (he₁ : s.libPage v = some e₁)
    (hv : v ≠ it.page) (hb : Backed cfg items s₀.nextFrameSlot s e₁ p b₁) :
    Backed cfg (items ++ [it]) s₀.nextFrameSlot s' e₁ p b₁ := by
  have hnext := hload.pageCase.next hslot
  cases hb with
  | frame hdev hlo hhi hbytes =>
    refine .frame hdev hlo (by omega) ?_
    rw [h.frames_eq hload.pageCase he₁ hv hdev hhi, hbytes]
  | device off hdev hfull hbytes =>
    obtain ⟨it', hit', hfull⟩ := hfull
    refine .device off hdev ⟨it', List.mem_append_left _ hit', hfull⟩ ?_
    rw [hload.given_eq]
    exact hbytes

variable (hs : ∀ site, lenv.mapScratch site = 0) (hm : s.Archived data f)
  (hfile : it.Copies f → it.src + it.len ≤ f.size)

include hs hm hfile

/-- The page that is loaded has the bytes of the image with one more item. -/
theorem LibLaid.backed_self :
    ∃ p, itemsImage lenv f (items ++ [it]) it.page = some p ∧ e.flags = p.flags ∧
      Backed cfg (items ++ [it]) s₀.nextFrameSlot s' e p b := by
  have hgiven := hload.given_eq
  rw [itemsImage_concat, Image.place, if_pos rfl]
  cases hload.pageCase with
  | merge e he hdev hframes hnext' =>
    obtain ⟨p, b, himg, hflags, -, hb⟩ := h.of_libPage he
    rw [himg]
    simp only [hs, ↓reduceIte]
    refine ⟨_, rfl, by rw [hflags], ?_⟩
    cases hb with
    | frame _ hlo hhi hbytes =>
      refine .frame hdev hlo (by dsimp only; omega) ?_
      rw [hframes, ← hbytes]
      exact if_pos rfl
    | device off hdev' => rw [hdev] at hdev'; cases hdev'
  | device off hnew hcopies hdst hlen hoff hframes hnext' =>
    rw [h.image_eq_none hnew]
    refine ⟨_, rfl, rfl, .device off rfl ⟨it, by simp, rfl, hlen⟩ fun o ho => ?_⟩
    -- The page of the initial RAM disk is the page of the file.
    have hin := hfile hcopies
    obtain ⟨-, hbyte⟩ := hm (it.src + o) (by omega)
    rw [hgiven, hoff, hbyte]
    dsimp only
    rw [PlaceItem.overlay, if_pos ⟨hcopies, by omega, by omega⟩, hdst, Nat.sub_zero]
  | alloc hnew hframes hnext' =>
    rw [h.image_eq_none hnew]
    have hge := h.next_ge
    refine ⟨_, rfl, rfl, .frame rfl hge (by dsimp only; omega) ?_⟩
    rw [hframes, State.layFrame, State.zeroFrame]
    simp only [↓reduceIte]

/-- One more item is loaded. -/
theorem LibLaid.concat : LibLaid cfg lenv f s₀ (items ++ [it]) s' := by
  have hnext := hload.pageCase.next hslot
  have hlen : (items ++ [it]).length = items.length + 1 := List.length_append
  have hplace : ∀ v, v ≠ it.page →
      itemsImage lenv f (items ++ [it]) v = itemsImage lenv f items v := by
    intro v hv
    rw [itemsImage_concat, Image.place, if_neg hv]
  obtain ⟨p, hp, hflags, hb⟩ := h.backed_self hload hslot hs hm hfile
  -- The entry of a page is the one loaded or an old one.
  have hentry : ∀ {v e₁}, s'.libPage v = some e₁ →
      (v = it.page ∧ e₁ = e) ∨ (v ≠ it.page ∧ s.libPage v = some e₁) := by
    intro v e₁ he₁
    rw [hload.libPage_eq] at he₁
    split_ifs at he₁ with hv
    · exact .inl ⟨hv, (Option.some.inj he₁).symm⟩
    · exact .inr ⟨hv, he₁⟩
  -- No other page has the slot of the page that is loaded.
  have hother : ∀ {v e₁}, s.libPage v = some e₁ → v ≠ it.page → e₁.isDevice = false →
      e.isDevice = false → e₁.frameSlot ≠ e.frameSlot := by
    intro v e₁ he₁ hv hdev₁ hdev heq
    obtain ⟨p₁, b₁, -, -, -, hb₁⟩ := h.of_libPage he₁
    cases hb₁ with
    | device _ hdev' => rw [hdev₁] at hdev'; cases hdev'
    | frame _ _ hhi _ =>
      cases hload.pageCase with
      | merge e' he' hdev' => exact hv (h.distinct _ _ _ _ he₁ he' hdev₁ hdev' heq)
      | device => cases hdev
      | alloc => exact hhi.ne heq
  refine ⟨hload.given_eq.trans h.given_eq, hload.objects_eq.trans h.objects_eq, fun v himg => ?_,
    fun v p' himg => ?_, fun v v' e₁ e₂ he₁ he₂ hdev₁ hdev₂ heq => ?_, ?_, ?_, ?_⟩
  · by_cases hv : v = it.page
    · rw [hv, hp] at himg
      cases himg
    · rw [hplace v hv] at himg
      obtain ⟨hlib, hvspace⟩ := h.absent v himg
      rw [hload.libPage_eq, hload.vspace_eq, if_neg hv, if_neg hv]
      exact ⟨hlib, hvspace⟩
  · rcases eq_or_ne v it.page with rfl | hv
    · obtain rfl := Option.some.inj (hp.symm.trans himg)
      refine ⟨e, b, ?_, hflags, ?_, hb⟩
      · rw [hload.libPage_eq, if_pos rfl]
      · rw [hload.vspace_eq, if_pos rfl, hflags]
    · rw [hplace v hv] at himg
      obtain ⟨e₁, b₁, he₁, hflags₁, hvspace₁, hb₁⟩ := h.present v p' himg
      refine ⟨e₁, b₁, ?_, hflags₁, ?_, h.backed_of_ne hload hslot he₁ hv hb₁⟩
      · rw [hload.libPage_eq, if_neg hv, he₁]
      · rw [hload.vspace_eq, if_neg hv, hvspace₁]
  · rcases hentry he₁ with ⟨hv, rfl⟩ | ⟨hv, he₁⟩
    · rcases hentry he₂ with ⟨hv', -⟩ | ⟨hv', he₂⟩
      · rw [hv, hv']
      · exact absurd heq.symm (hother he₂ hv' hdev₂ hdev₁)
    · rcases hentry he₂ with ⟨hv', rfl⟩ | ⟨hv', he₂⟩
      · exact absurd heq (hother he₁ hv hdev₁ hdev₂)
      · exact h.distinct v v' e₁ e₂ he₁ he₂ hdev₁ hdev₂ heq
  · have := h.length_le
    have := hload.length_le
    omega
  · have := h.next_ge
    omega
  · have := h.next_le
    omega

end

theorem LibLaid.nil (s : State) (mapped : List MappedLibrary) :
    LibLaid cfg lenv f s [] { s with pages := [], mapped } := by
  refine ⟨rfl, rfl, fun v _ => ⟨rfl, rfl⟩, fun v p hp => ?_, fun v v' e e' he => ?_, Nat.le_refl _,
    Nat.le_refl _, Nat.le_refl _⟩
  · cases hp
  · cases he

/-- The file is not under the pages of the library. -/
theorem LibLaid.archived (h : LibLaid cfg lenv f s₀ items s) (hm : s₀.Archived data f)
    (hfree : ∀ it ∈ items, ∀ o < pageSize, s₀.given (it.page + o) = none) :
    s.Archived data f := by
  intro i hi
  obtain ⟨hclear, hbyte⟩ := hm i hi
  rw [h.given_eq]
  refine ⟨?_, hbyte⟩
  cases himg : itemsImage lenv f items ((data + i) % 2 ^ 64 - (data + i) % 2 ^ 64 % pageSize) with
  | none => rw [(h.absent _ himg).2, hclear]
  | some p =>
    obtain ⟨it, hit, hpage⟩ := image_isSome.1 (Option.isSome_of_eq_some himg)
    have hnone := hfree it hit _ (Nat.mod_lt ((data + i) % 2 ^ 64) (by decide))
    rw [hpage, Nat.sub_add_cancel (Nat.mod_le _ _), hbyte] at hnone
    cases hnone

/-- A page that no item has all bytes of is a frame. -/
theorem LibLaid.frame_of_libPage (h : LibLaid cfg lenv f s₀ items s)
    (hpart : ∀ it ∈ items, it.page = v → it.len ≠ pageSize) (he : s.libPage v = some e) :
    e.isDevice = false ∧ s.vspace v = some ⟨.frame e.frameSlot, e.flags⟩ := by
  obtain ⟨p, b, -, hflags, hvspace, hb⟩ := h.of_libPage he
  rw [hflags]
  cases hb with
  | frame hdev => exact ⟨hdev, hvspace⟩
  | device off hdev hfull =>
    obtain ⟨it, hit, hpage, hlen⟩ := hfull
    exact absurd hlen (hpart it hit (hpage.trans (key_of_lookup he)))

end

/-! ## All segments -/

section

variable {arch : Arch} {cfg : Config} {env : Env} {lenv : Trona.Env} {cpio : CpioEntry} {f : File}
  {loadAddr : ℕ} {plan : ElfPlan} {s s' : State} {w w' : World}

/-- The segment loop of the linker refines the image of the items of the loader. -/
theorem loadSegments_laid (hwf : ElfWellFormed arch f loadAddr plan) (henv : env.Agrees)
    (hs : ∀ site, lenv.mapScratch site = 0) (hbase : cfg.initrdBase < 2 ^ 64)
    (hdata : cpio.data ≠ 0) (hlen : cpio.dataLen = f.size) (hm : s.Archived cpio.data f)
    (hfree : ∀ v, plan.HasPage v → ∀ o < pageSize, s.given (v + o) = none)
    (hslots : s.nextFrameSlot + maxPages < 2 ^ 64) :
    wp (loadSegments cfg env cpio plan.phs plan.delta)
      (fun _ s' => LibLaid cfg lenv f s (elfItems plan.phs plan.delta) s')
      (fun _ _ => False) s := by
  rw [loadSegments, wp_bind, wp_modify]
  refine wp_forM_forM (fun (r : Elf64Phdr × ℕ) page => r.1.item plan.delta r.2 page)
    (fun items s' => LibLaid cfg lenv f s items s') (.nil s _)
    fun done r page todo s₁ hr hpage hitems h => ?_
  change elfItems plan.phs plan.delta = _ at hitems
  have hall : ∀ it ∈ elfItems plan.phs plan.delta, ∀ o < pageSize,
      s.given (it.page + o) = none := by
    intro it hit
    obtain ⟨ph, i, v, hi, hv, rfl⟩ := mem_elfItems.1 hit
    obtain ⟨hph, hl⟩ := mem_of_mem_loads hi
    exact hfree v ⟨ph, hph, hl, hv⟩
  have hmem : r.1.item plan.delta r.2 page ∈ elfItems plan.phs plan.delta := hitems ▸ by simp
  have hdone : ∀ it ∈ done, it ∈ elfItems plan.phs plan.delta := by
    intro it hit
    rw [hitems]
    exact List.mem_append_left _ hit
  have hcount : done.length + 1 ≤ maxPages := by
    have hle := hwf.pages_le
    rw [hitems, List.length_append, List.length_cons] at hle
    omega
  have hnext := h.next_le
  have hpages := h.length_le
  have hm₁ := h.archived hm fun it hit => hall it (hdone it hit)
  -- No item before this one has all bytes of the page.
  have hpart : ∀ it ∈ done, it.page = page → it.len ≠ pageSize := by
    intro it hit hv hfull
    have heq := hwf.eq_of_full (hdone it hit) hmem hv.symm hfull
    have hnodup := List.Nodup.of_map _ (elfItems_inOrder plan.phs plan.delta).sites_nodup
    rw [hitems, List.nodup_append] at hnodup
    exact hnodup.2.2 it hit _ List.mem_cons_self heq.symm
  rw [hlen, pageCopy_eq r.2 hwf.delta_lt hpage]
  refine wp_post (loadPage_item henv hdata hm₁ (hwf.items_in_file hmem) rfl hbase
    (fun e he => h.frame_of_libPage hpart he)
    (by rw [rtldMaxLibPages]; rw [maxPages] at hcount; omega)) fun _ s₂ h₂ => ?_
  obtain ⟨e, b, hloaded⟩ := h₂
  exact h.concat hloaded (by omega) hs hm₁ (hwf.items_in_file hmem)

/-- From `s` to `s'` the linker has mapped the image that the loader has mapped into the child
    `w`: the same pages, with the same flags and the same bytes. -/
structure SameImage (cfg : Config) (s s' : State) (w : World) : Prop where
  mapped : ∀ v frame flags, LoadEvent.map v frame flags ∈ w.log → ∃ b frame flags,
    s'.vspace v = some ⟨b, flags⟩ ∧ w.child v = some ⟨frame, flags⟩ ∧
      ∀ o < pageSize, ∃ byte, s'.memory cfg (v + o) = some byte ∧ w.childByte (v + o) = some byte
  others : ∀ v, (∀ frame flags, LoadEvent.map v frame flags ∉ w.log) → s'.vspace v = s.vspace v

/-- Two refinements of one image. -/
theorem LibLaid.sameImage {items : List PlaceItem} (h : LibLaid cfg lenv f s items s')
    (hlaid : Trona.Laid lenv f items w) (href : Refines lenv f items w)
    (halign : ∀ it ∈ items, it.page % pageSize = 0) : SameImage cfg s s' w := by
  refine ⟨fun v frame flags hmap => ?_, fun v hnot => ?_⟩
  · obtain ⟨⟨it, hit, rfl⟩, -⟩ := hlaid.maps v frame flags hmap
    have hentry := (hlaid.mem it.page).2 ⟨it, hit, rfl⟩
    obtain ⟨e, he⟩ := Option.isSome_iff_exists.1 hentry
    have himage : w.image it.page = some ⟨e.flags, w.frames e.frameCap⟩ := by
      rw [World.image, he]
      rfl
    -- The page of the table is that of the image, and so is that of the linker.
    have himg := himage
    rw [href.image_eq] at himg
    obtain ⟨_, b, -, -, hvspace, hb⟩ := h.present it.page _ himg
    refine ⟨b, e.frameCap, e.flags, hvspace, hlaid.inSync _ _ he, fun o ho => ?_⟩
    have hpage := halign it hit
    have hoff : (it.page + o) % pageSize = o := by
      rw [pageSize] at *
      omega
    have hstart : it.page + o - (it.page + o) % pageSize = it.page := by omega
    refine ⟨w.frames e.frameCap o, ?_, ?_⟩
    · rw [State.memory, hstart, hvspace, hoff]
      cases hb with
      | frame hdev hlo hhi hbytes => exact congrArg some (congrFun hbytes o)
      | device off hdev hfull hbytes => exact hbytes o ho
    · rw [hlaid.inSync.childByte_eq (hstart.symm ▸ hentry), hstart, himage, hoff]
      rfl
  · -- A page that the loader has not mapped is none of an item.
    refine (h.absent v (Option.not_isSome_iff_eq_none.1 fun hsome => ?_)).2
    obtain ⟨it, hit, rfl⟩ := image_isSome.1 hsome
    obtain ⟨frame, flags, hmap⟩ := hlaid.mapped it hit
    exact hnot frame flags hmap

/-- To add an object leaves what is mapped; it can only fail to read the dynamic table. -/
theorem addObject_kept {name : List UInt8} {delta : ℕ} {phs : List Elf64Phdr}
    (hname : makeCanonicalObjectName name = some name) (h : SameImage cfg s s' w) :
    wp (addObject cfg name loadAddr delta phs) (fun _ s₁ => SameImage cfg s s₁ w)
      (fun e s₁ => e = .fault ∧ SameImage cfg s s₁ w) s' := by
  refine wp_addObject (fun hnone => ?_) ⟨rfl, h⟩ fun _ _ _ _ => ⟨h.mapped, h.others⟩
  cases hname.symm.trans hnone

/-- The linker and the loader map the same image of a library. The file is well formed and in
    the initial RAM disk, its pages are free, and the kernel agrees to all calls, but for those
    that map a page of the RAM disk itself, which it may refuse. Then the segment loop of
    `elf_load` ends with a child `w'`, whose mappings the relocations do not change, and
    `load_shared_library` has mapped the same pages, with the same flags and the same bytes. It
    ends so, too, if it cannot read the dynamic table afterwards. -/
theorem loadSharedLibrary_image {name objectName : List UInt8}
    (hwf : ElfWellFormed arch f loadAddr plan) (hdyn : plan.ehdr.eType = etDyn)
    (hent : plan.ehdr.ePhentsize = 56)
    (htable : plan.ehdr.ePhoff + plan.ehdr.ePhnum * 56 ≤ f.size)
    (hs : lenv.Succeeds) (hfresh : lenv.FreshFrames) (hw : w.Start)
    (hcounter : lenv.allocFrameSlot = none →
      w.nextFrameSlot ≠ 0 ∧ w.nextFrameSlot + maxPages < 2 ^ 64)
    (henv : env.Agrees) (hnot : ¬cfg.IsPremapped loadAddr)
    (hinitrd : cfg.initrdBase + cfg.initrdSize ≤ 2 ^ 64)
    (hobjects : s.objects.length < rtldMaxObjects)
    (hname : makeCanonicalObjectName name = some objectName)
    (hfind : cpioFind (s.memory cfg) cfg.initrdBase cfg.initrdSize objectName = some (some cpio))
    (hlen : cpio.dataLen = f.size) (hm : s.Archived cpio.data f)
    (hfree : ∀ v, plan.HasPage v → ∀ o < pageSize, s.given (v + o) = none)
    (hslots : s.nextFrameSlot + maxPages < 2 ^ 64) :
    ∃ w', (elfLoadSegments arch lenv f loadAddr).run w = .ok plan w' ∧
      wp (elfLoad arch lenv f loadAddr) (fun _ w₂ => w'.SameMaps w₂)
        (fun _ w₂ => w'.SameMaps w₂) w ∧
      wp (loadSharedLibrary cfg env name loadAddr) (fun _ s' => SameImage cfg s s' w')
        (fun e s' => e = .fault ∧ SameImage cfg s s' w') s := by
  obtain ⟨p, w', hrun, rfl, hlaid, href⟩ :=
    wp_exists_ok (hwf.elfLoadSegments_succeeds hs hfresh hw hcounter)
  refine ⟨w', hrun, ?_, ?_⟩
  · rw [elfLoad, wp_bind, wp_iff_of_ok hrun]
    simp only [wp_bind, wp_ite, wp_pure]
    exact ⟨fun _ => applyRelocations_sameMaps w', fun _ => .refl w'⟩
  · obtain ⟨hheader, helf⟩ := elfHeader_ok hwf.header
    have hsize := File.le_size_of_elf64Ehdr hheader
    -- The data of the file is in the archive, which starts with a header.
    have hwhere : cfg.initrdBase < 2 ^ 64 ∧ cpio.data ≠ 0 := by
      obtain ⟨start, hstart, hend, hdata⟩ := cpioFindFrom_data hfind
      rw [cpioHeaderSize] at hstart
      omega
    have hdelta : libDelta loadAddr p.phs = p.delta := by rw [hwf.delta_eq, if_pos hdyn, libDelta]
    have halign : ∀ it ∈ elfItems p.phs p.delta, it.page % pageSize = 0 := by
      intro it hit
      obtain ⟨ph, i, v, hi, hv, rfl⟩ := mem_elfItems.1 hit
      obtain ⟨hph, hl⟩ := mem_of_mem_loads hi
      exact ((hwf.mem_segPages_iff hph hl).1 hv).1
    have hload : wp (loadSegments cfg env cpio p.phs p.delta) (fun _ s' => SameImage cfg s s' w')
        (fun _ _ => False) s :=
      wp_post (loadSegments_laid hwf henv hs.mapScratch hwhere.1 hwhere.2 hlen hm hfree hslots)
        fun _ _ h => h.sameImage hlaid href halign
    rw [loadSharedLibrary, wp_bind, wp_get, if_neg (not_le.2 hobjects), hname]
    dsimp only
    rw [hfind]
    dsimp only
    rw [loadFound, wp_bind, wp_get, if_neg (by omega),
      libPhdrs_of_table hheader helf hdyn hent htable hwf.table (hm.holds cfg)]
    dsimp only
    rw [if_pos hnot, hdelta, wp_bind]
    exact wp_mono hload (fun _ _ h => addObject_kept (makeCanonicalObjectName_idem hname) h)
      fun _ _ h => h.elim

end

/-- The program headers of a library: a segment that is a page of the archive, and two segments that
    share a page, of which the second is writable. -/
def pageSegmentPhs : List Elf64Phdr :=
  [⟨ptLoad, 5, 3980, 0x1000, 4096, 4096, 4096, by decide, by decide, by decide, by decide⟩,
    ⟨ptLoad, 5, 8, 0x2040, 64, 64, 4096, by decide, by decide, by decide, by decide⟩,
    ⟨ptLoad, 6, 64, 0x20C0, 16, 40, 4096, by decide, by decide, by decide, by decide⟩]

def pageSegment : File where
  bytes := ehdrBytes etDyn 3 ++
    pageSegmentPhs.flatMap (fun ph =>
      phdrBytes ph.pType ph.pFlags ph.pOffset ph.pVaddr ph.pFilesz ph.pMemsz) ++
    List.replicate 7844 7
  length_lt := by decide +kernel

/-- An archive with the library, under the name `lib/a`. -/
def pageSegmentArchive : File where
  bytes := cpioMagic ++ List.replicate 52 0x30 ++ [0x31, 0x46, 0x38, 0x43] ++
    List.replicate 39 0x30 ++ [0x36] ++ List.replicate 8 0x30 ++ initrdLibPrefix ++ [0x61, 0] ++
    pageSegment.bytes
  length_lt := by decide +kernel

def pageConfig : Config := ⟨0x100000, 8192, 0, by decide⟩

def pageSegmentPlan : ElfPlan :=
  resultOf (elfPlan .x86_64 pageSegment 0x210000) (by decide +kernel)

theorem pageSegmentPlan_eq : pageSegmentPlan.phs = pageSegmentPhs ∧
    pageSegmentPlan.delta = 0x20F000 ∧ pageSegmentPlan.ehdr.eType = etDyn ∧
    pageSegmentPlan.ehdr.ePhentsize = 56 ∧
    pageSegmentPlan.ehdr.ePhoff + pageSegmentPlan.ehdr.ePhnum * 56 ≤ pageSegment.size ∧
    pageSegment.size = 8076 := by decide +kernel

theorem pageSegment_wellFormed : ElfWellFormed .x86_64 pageSegment 0x210000 pageSegmentPlan := by
  have hplan : elfPlan .x86_64 pageSegment 0x210000 = .ok pageSegmentPlan := eq_ok_resultOf _
  obtain ⟨hheader, htable, hload, hdelta, -, -⟩ := elfPlan_ok hplan
  obtain ⟨hphs, hdelta', -, -, -, hsize⟩ := pageSegmentPlan_eq
  refine ⟨hheader, htable, hdelta, hload, ?_, ?_, ?_, ?_, ?_, ?_, ?_⟩ <;>
    simp only [hphs, hdelta', hsize] <;> decide

/-- The page of the first segment is mapped from the archive, and the page that the others share
    is copied. -/
theorem loadSharedLibrary_image_pageSegment :
    (pageSegmentPhs.map fun ph => deviceOffset pageConfig ⟨0x10006E, 5, 0x100074, 8076⟩ ph
      (pageCopy ph 0x20F000 8076 (ph.segStart 0x20F000))) = [some 0x1000, none, none] ∧
    ∃ w', (elfLoadSegments .x86_64 Trona.Env.quiet pageSegment 0x210000).run World.initial =
        .ok pageSegmentPlan w' ∧
      wp (loadSharedLibrary pageConfig .quiet [0x61] 0x210000)
        (fun _ s' => SameImage pageConfig (startState 0x100000 pageSegmentArchive) s' w')
        (fun e s' => e = .fault ∧
          SameImage pageConfig (startState 0x100000 pageSegmentArchive) s' w')
        (startState 0x100000 pageSegmentArchive) := by
  refine ⟨by decide, ?_⟩
  obtain ⟨hphs, hdelta, hdyn, hent, htable, hlen⟩ := pageSegmentPlan_eq
  have hsize : pageSegmentArchive.size = 8192 := by decide +kernel
  have hholds : ((startState 0x100000 pageSegmentArchive).memory pageConfig).Holds 0x100074
      pageSegment :=
    Memory.ofFile_holds rfl (by decide) (by omega)
  have hfind : cpioFind ((startState 0x100000 pageSegmentArchive).memory pageConfig)
      pageConfig.initrdBase pageConfig.initrdSize [0x6C, 0x69, 0x62, 0x2F, 0x61] =
        some (some ⟨0x10006E, 5, 0x100074, 8076⟩) := by decide +kernel
  -- The archive ends before the pages of the segments.
  have hpage : ∀ ph ∈ pageSegmentPhs, ph.isLoad = true →
      ∀ v ∈ ph.segPages 0x20F000, 0x210000 ≤ v := by decide
  have hfree : ∀ v, pageSegmentPlan.HasPage v → ∀ o < pageSize,
      (startState 0x100000 pageSegmentArchive).given (v + o) = none := by
    rintro v ⟨ph, hph, hl, hv⟩ o -
    rw [hphs] at hph
    rw [hdelta] at hv
    have hle := hpage ph hph hl v hv
    exact if_neg (by omega)
  have hnot : ¬pageConfig.IsPremapped 0x210000 := fun h => absurd rfl h.1
  have henv : Env.quiet.Agrees := ⟨fun _ _ => rfl, fun _ => rfl, fun _ => rfl, fun _ => rfl⟩
  obtain ⟨w', hrun, -, himage⟩ := loadSharedLibrary_image pageSegment_wellFormed hdyn hent htable
    Trona.Env.quiet_succeeds Trona.Env.quiet_freshFrames World.initial_start (fun _ => by decide)
    henv hnot (by decide) (by decide)
    (show makeCanonicalObjectName [0x61] = some [0x6C, 0x69, 0x62, 0x2F, 0x61] from by decide)
    hfind hlen.symm (fun i hi => ⟨rfl, hholds i hi⟩) hfree (by decide)
  exact ⟨w', hrun, himage⟩

end Rtld

end Trona
