import Mathlib.Data.List.Induction
import Trona.Loader.Place

/-!
# The image of a load

What placing pages is for: an image in the address space of the child, made of the
items in their order. The loop over the items is described twice.

* `placePages_laid` needs nothing of the frames: which pages are mapped, with which
  flags, and which copies were made (`Laid`). A load that stops early has mapped no
  page but those of its items, and none writable and executable (`MapsWithin`).
* `placePages_image` is the refinement of the abstract image: when the context gives
  out every frame once, the child has the bytes of the items laid over each other
  (`Image.place`).
-/

namespace Trona

/-- Place the items in their order. -/
def placePages {ε : Type} (cfg : PlaceConfig ε) (env : Env) (f : File) (items : List PlaceItem) :
    LoadM ε PUnit :=
  items.forM (placePage cfg env f)

/-- The machine before a load. -/
structure World.Start (w : World) : Prop where
  pages_nil : w.pages = []
  log_nil : w.log = []
  next_lt : w.nextFrameSlot < 2 ^ 64

section Flags

variable (items : List PlaceItem) (v : ℕ)

/-- Some item on a page is writable. -/
def anyWritable : Bool := items.any fun it => it.page = v && it.writable

/-- Some item on a page is executable. -/
def anyExecutable : Bool := items.any fun it => it.page = v && it.executable

end Flags

/-- The bytes of an item are copied: the test before the copy succeeds, and on a page
    that an earlier item is on, so does the scratch mapping. -/
def PlaceItem.Done (it : PlaceItem) (env : Env) (f : File) (before : List PlaceItem) : Prop :=
  it.Copies f ∧ ((∃ it' ∈ before, it'.page = it.page) → env.mapScratch it.site = 0)

/-- Every mapping asked for is on a page of an item, and not both writable and
    executable. -/
def MapsWithin (items : List PlaceItem) (w : World) : Prop :=
  ∀ v frame flags, LoadEvent.map v frame flags ∈ w.log →
    (∃ it ∈ items, it.page = v) ∧ ¬WritableExecutable flags

/-- Every page that a load asks to be mapped is in `[lo, lo + span)`. -/
def MapsInWindow (lo span : ℕ) (w : World) : Prop :=
  ∀ v frame flags, LoadEvent.map v frame flags ∈ w.log → lo ≤ v ∧ v + pageSize ≤ lo + span

/-- The item of a site, on the page `v`, has had its `len` bytes copied from `src` to
    `dst`. -/
def CopyDone (env : Env) (f : File) (items : List PlaceItem) (site : Site) (v dst src len : ℕ) :
    Prop :=
  ∃ before it after, items = before ++ it :: after ∧ it.Done env f before ∧
    it.site = site ∧ it.page = v ∧ it.dst = dst ∧ it.src = src ∧ it.len = len

/-- The frames a log says were given out. -/
def allocs (log : List LoadEvent) : List ℕ :=
  log.filterMap fun
    | .alloc frame => some frame
    | _ => none

/-- The machine after some items are placed. -/
structure Laid (env : Env) (f : File) (items : List PlaceItem) (w : World) : Prop where
  inSync : w.InSync
  mem : ∀ v, (w.entry v).isSome = true ↔ ∃ it ∈ items, it.page = v
  flags : ∀ v e, w.entry v = some e →
    e.flags = permFlags (anyWritable items v) (anyExecutable items v)
  maps : MapsWithin items w
  mapped : ∀ it ∈ items, ∃ frame flags, LoadEvent.map it.page frame flags ∈ w.log
  copies : ∀ site v frame dst src len, LoadEvent.copy site v frame dst src len ∈ w.log ↔
    (∃ e, w.entry v = some e ∧ e.frameCap = frame) ∧ CopyDone env f items site v dst src len
  in_file : ∀ site v frame dst src len, LoadEvent.copy site v frame dst src len ∈ w.log →
    src + len ≤ f.size
  nodup : (w.pages.map PageEntry.vaddr).Nodup
  allocs_eq : allocs w.log = w.pages.map PageEntry.frameCap
  length_le : w.pages.length ≤ items.length

variable {ε : Type} {cfg : PlaceConfig ε} {env : Env} {f : File} {items : List PlaceItem}
  {it : PlaceItem} {w w' : World}

theorem World.Start.entry_eq (hw : w.Start) (v : ℕ) : w.entry v = none := by
  simp [World.entry, hw.pages_nil]

theorem World.Start.reset (hw : w.Start) : World.Start { w with pages := [] } :=
  ⟨rfl, hw.log_nil, hw.next_lt⟩

theorem laid_nil (hw : w.Start) : Laid env f [] w where
  inSync v e he := by simp [hw.entry_eq] at he
  mem v := by simp [hw.entry_eq]
  flags v e he := by simp [hw.entry_eq] at he
  maps _ _ _ hev := by simp [hw.log_nil] at hev
  mapped _ hit := absurd hit List.not_mem_nil
  copies := by simp [hw.log_nil, hw.entry_eq]
  in_file := by simp [hw.log_nil]
  nodup := by simp [hw.pages_nil]
  allocs_eq := by simp [hw.pages_nil, hw.log_nil, allocs]
  length_le := by simp [hw.pages_nil]

theorem World.SameMaps.entry_eq (hs : w.SameMaps w') (v : ℕ) : w'.entry v = w.entry v := by
  rw [World.entry, hs.pages_eq, World.entry]

theorem World.SameMaps.inSync (hs : w.SameMaps w') (h : w.InSync) : w'.InSync := by
  intro v e he
  rw [hs.child_eq]
  exact h v e (hs.entry_eq v ▸ he)

/-- What is laid does not depend on the contents of the frames. -/
theorem Laid.congr (h : Laid env f items w) (hs : w.SameMaps w') : Laid env f items w' := by
  have hentry : ∀ v, w'.entry v = w.entry v := hs.entry_eq
  constructor
  · exact hs.inSync h.inSync
  · intro v
    rw [hentry]
    exact h.mem v
  · exact fun v e he => h.flags v e (hentry v ▸ he)
  · exact fun v frame flags hev => h.maps v frame flags (hs.log_eq ▸ hev)
  · rw [hs.log_eq]
    exact h.mapped
  · simp only [hs.log_eq, hentry]
    exact h.copies
  · rw [hs.log_eq]
    exact h.in_file
  · rw [hs.pages_eq]
    exact h.nodup
  · rw [hs.log_eq, hs.pages_eq]
    exact h.allocs_eq
  · rw [hs.pages_eq]
    exact h.length_le

/-- What is mapped is in a window when the pages of the items are. -/
theorem Laid.mapsInWindow_iff (h : Laid env f items w) {lo span : ℕ} :
    MapsInWindow lo span w ↔ ∀ it ∈ items, lo ≤ it.page ∧ it.page + pageSize ≤ lo + span := by
  constructor
  · intro hwin it hit
    obtain ⟨frame, flags, hev⟩ := h.mapped it hit
    exact hwin it.page frame flags hev
  · intro hwin v frame flags hev
    obtain ⟨⟨it, hit, rfl⟩, -⟩ := h.maps v frame flags hev
    exact hwin it hit

/-! ## One item -/

/-- An item of a list with one more is one of the list, or the last. -/
theorem exists_split_concat {P : List PlaceItem → PlaceItem → Prop} :
    (∃ before it' after, items ++ [it] = before ++ it' :: after ∧ P before it') ↔
      (∃ before it' after, items = before ++ it' :: after ∧ P before it') ∨ P items it := by
  constructor
  · rintro ⟨before, it', after, heq, hp⟩
    rcases List.eq_nil_or_concat after with rfl | ⟨after', last, rfl⟩
    · obtain ⟨rfl, h⟩ := List.append_inj' heq rfl
      obtain rfl := List.cons.inj h |>.1
      exact .inr hp
    · rw [List.concat_eq_append, ← List.cons_append, ← List.append_assoc] at heq
      exact .inl ⟨before, it', after', (List.append_inj' heq rfl).1, hp⟩
  · rintro (⟨before, it', after, rfl, hp⟩ | hp)
    · exact ⟨before, it', after ++ [it], by simp, hp⟩
    · exact ⟨items, it, [], rfl, hp⟩

variable {v o a : ℕ} {site : Site} {e : PageEntry} {p : ImagePage}

theorem copyDone_concat {dst src len : ℕ} :
    CopyDone env f (items ++ [it]) site v dst src len ↔ CopyDone env f items site v dst src len ∨
      (it.Done env f items ∧ it.site = site ∧ it.page = v ∧ it.dst = dst ∧ it.src = src ∧
        it.len = len) :=
  exists_split_concat

/-- A mapping asked for in placing an item is the one its page then has. -/
theorem map_mem_placeEvents {frame flags : ℕ}
    (h : LoadEvent.map v frame flags ∈ placeEvents cfg env f it w) :
    v = it.page ∧ flags = (placedEntry env it w).flags := by
  unfold placeEvents at h
  unfold placedEntry
  split at h <;> rename_i he
  · simp only [mergeEvents, remapEvents, copyEvents, List.mem_append] at h
    split_ifs at h <;> simp_all
  · simp only [addEvents, copyEvents, List.mem_append, List.mem_cons] at h
    split_ifs at h <;> simp_all

/-- A new page is mapped. -/
theorem map_mem_placeEvents_of_none (h : w.entry it.page = none) :
    LoadEvent.map it.page (w.nextFrame env it) it.flags ∈ placeEvents cfg env f it w := by
  simp [placeEvents, h, addEvents]

/-- The copy made in placing an item is the one of the item. -/
theorem copy_mem_placeEvents {frame dst src len : ℕ} :
    LoadEvent.copy site v frame dst src len ∈ placeEvents cfg env f it w ↔
      (placedEntry env it w).frameCap = frame ∧ it.Copies f ∧
        ((w.entry it.page).isSome = true → env.mapScratch it.site = 0) ∧
        it.site = site ∧ it.page = v ∧ it.dst = dst ∧ it.src = src ∧ it.len = len := by
  unfold placeEvents placedEntry
  cases w.entry it.page with
  | some e =>
    simp only [mergeEvents, remapEvents, copyEvents, List.mem_append]
    split_ifs <;> simp_all <;> grind
  | none =>
    simp only [addEvents, copyEvents, List.mem_append, List.mem_cons]
    split_ifs <;> simp_all <;> grind

/-- Placing an item takes a frame when the page is new. -/
theorem allocs_placeEvents : allocs (placeEvents cfg env f it w) =
    match w.entry it.page with
    | some _ => []
    | none => [(placedEntry env it w).frameCap] := by
  unfold placeEvents placedEntry
  cases w.entry it.page with
  | some e =>
    simp only [mergeEvents, remapEvents, copyEvents, allocs]
    split_ifs <;> rfl
  | none =>
    simp only [addEvents, copyEvents, allocs]
    split_ifs <;> rfl

theorem anyWritable_concat (v : ℕ) : anyWritable (items ++ [it]) v =
    (anyWritable items v || (it.page = v && it.writable)) := by
  simp [anyWritable]

theorem anyExecutable_concat (v : ℕ) : anyExecutable (items ++ [it]) v =
    (anyExecutable items v || (it.page = v && it.executable)) := by
  simp [anyExecutable]

/-- Before an item is placed, the page of no earlier one is known to be `v`. -/
theorem Laid.any_eq_false (h : Laid env f items w) (hv : w.entry v = none) :
    anyWritable items v = false ∧ anyExecutable items v = false := by
  have hno : ∀ it ∈ items, it.page ≠ v := fun it hit he => by
    have := (h.mem v).2 ⟨it, hit, he⟩
    simp [hv] at this
  constructor <;> exact List.any_eq_false.2 fun it hit => by simp [hno it hit]

/-- The flags of the page of an item, after the item is placed. -/
theorem Laid.placedEntry_flags (h : Laid env f items w) : (placedEntry env it w).flags =
    permFlags (anyWritable (items ++ [it]) it.page) (anyExecutable (items ++ [it]) it.page) := by
  unfold placedEntry
  rw [anyWritable_concat, anyExecutable_concat]
  split <;> rename_i he
  · rw [h.flags _ _ he, it.flags_eq, mergeFlags_permFlags]
    simp
  · obtain ⟨hw, hx⟩ := h.any_eq_false he
    simp [hw, hx, it.flags_eq]

theorem MapsWithin.mono (h : MapsWithin items w) : MapsWithin (items ++ [it]) w :=
  fun v frame flags hev =>
    (h v frame flags hev).imp_left (Exists.imp fun _ => And.imp_left (List.mem_append_left _))

/-- An item maps its own page only, whether or not the load stops there. -/
theorem Laid.mapsWithin (h : Laid env f items w) {es : List LoadEvent}
    (hes : es ⊆ placeEvents cfg env f it w) (hlog : w'.log = w.log ++ es) :
    MapsWithin (items ++ [it]) w' := by
  intro v frame flags hev
  rw [hlog, List.mem_append] at hev
  rcases hev with hev | hev
  · exact h.maps.mono v frame flags hev
  · obtain ⟨rfl, rfl⟩ := map_mem_placeEvents (hes hev)
    refine ⟨⟨it, by simp, rfl⟩, ?_⟩
    rw [h.placedEntry_flags]
    exact not_writableExecutable_permFlags _ _

/-- One more item is laid. -/
theorem Laid.concat (h : Laid env f items w) (hp : Placed cfg env f it w w') :
    Laid env f (items ++ [it]) w' where
  inSync := hp.inSync h.inSync
  mem v := by
    rw [hp.entry_eq]
    by_cases hv : v = it.page
    · simp [hv]
    · simp only [hv, ↓reduceIte, h.mem v, List.mem_append, List.mem_singleton]
      constructor
      · rintro ⟨it', hit', rfl⟩
        exact ⟨it', .inl hit', rfl⟩
      · rintro ⟨it', hit' | rfl, hv'⟩
        · exact ⟨it', hit', hv'⟩
        · exact absurd hv'.symm hv
  flags v e he := by
    rw [hp.entry_eq] at he
    split_ifs at he with hv
    · obtain rfl := Option.some.inj he
      rw [hv, h.placedEntry_flags]
    · have hne : it.page ≠ v := fun h => hv h.symm
      rw [anyWritable_concat, anyExecutable_concat, h.flags v e he]
      simp [hne]
  maps := h.mapsWithin (List.Subset.refl _) hp.log_eq
  mapped it' hit' := by
    rw [hp.log_eq]
    rcases List.mem_append.1 hit' with hit' | hit'
    · obtain ⟨frame, flags, hev⟩ := h.mapped it' hit'
      exact ⟨frame, flags, List.mem_append_left _ hev⟩
    · obtain rfl := List.mem_singleton.1 hit'
      -- On a page that is there already, an earlier item was mapped.
      cases he : w.entry it'.page with
      | none => exact ⟨_, _, List.mem_append_right _ (map_mem_placeEvents_of_none he)⟩
      | some e =>
        obtain ⟨it₀, hit₀, hv⟩ := (h.mem it'.page).1 (by simp [he])
        obtain ⟨frame, flags, hev⟩ := h.mapped it₀ hit₀
        exact ⟨frame, flags, List.mem_append_left _ (hv ▸ hev)⟩
  copies site v frame dst src len := by
    rw [hp.log_eq, List.mem_append, h.copies, copy_mem_placeEvents, copyDone_concat, hp.entry_eq]
    have hdone : it.Done env f items ↔ it.Copies f ∧
        ((w.entry it.page).isSome = true → env.mapScratch it.site = 0) := by
      rw [PlaceItem.Done, h.mem]
    rcases eq_or_ne v it.page with rfl | hv
    · rw [hdone, ← and_assoc, ← and_assoc]
      cases he : w.entry it.page with
      | some e =>
        have hframe : (placedEntry env it w).frameCap = e.frameCap := by simp [placedEntry, he]
        simp only [Option.some.injEq, exists_eq_left', hframe, ↓reduceIte]
        tauto
      | none =>
        -- No earlier item is on this page, so nothing has been copied to it.
        have hno : ¬CopyDone env f items site it.page dst src len := by
          rintro ⟨before, it', after, rfl, -, -, hpage, -⟩
          have := (h.mem it.page).2 ⟨it', by simp, hpage⟩
          simp [he] at this
        simp only [hno, and_false, false_or, Option.some.injEq, exists_eq_left', ↓reduceIte]
        tauto
    · have hne : it.page ≠ v := fun h => hv h.symm
      simp [hv, hne]
  in_file site v frame dst src len hev := by
    rw [hp.log_eq, List.mem_append] at hev
    rcases hev with hev | hev
    · exact h.in_file _ _ _ _ _ _ hev
    · obtain ⟨-, hc, hs, -, -, -, rfl, rfl⟩ := copy_mem_placeEvents.1 hev
      exact hp.in_file hc hs
  nodup := by
    rw [hp.map_pages fun _ _ => rfl]
    cases he : w.entry it.page with
    | some e => simpa using h.nodup
    | none =>
      have hno : it.page ∉ w.pages.map PageEntry.vaddr := by
        rintro hmem
        obtain ⟨e, he', hv⟩ := List.mem_map.1 hmem
        exact lookup_eq_none.1 he e he' hv
      simpa [List.nodup_append, placedEntry, he, h.nodup] using hno
  allocs_eq := by
    rw [hp.map_pages fun _ _ => rfl, hp.log_eq, allocs, List.filterMap_append, ← allocs,
      h.allocs_eq, List.append_cancel_left_eq]
    exact allocs_placeEvents
  length_le := by
    have hlen := congrArg List.length (hp.map_pages (g := PageEntry.vaddr) fun _ _ => rfl)
    have := h.length_le
    cases he : w.entry it.page <;> simp [he] at hlen ⊢ <;> omega

/-! ## All items -/

/-- The items are laid one after the other. A load that stops has mapped pages of the
    items only. -/
theorem placePages_laid (hw : w.Start) :
    wp (placePages cfg env f items) (fun _ w' => Laid env f items w')
      (fun _ w' => MapsWithin items w') w := by
  refine wp_forM (fun done w' => Laid env f done w') (laid_nil hw) ?_
  rintro done it todo w₁ rfl hlaid
  refine wp_mono placePage_spec (fun _ _ hp => hlaid.concat hp) fun _ w₂ hstop => ?_
  obtain ⟨es, hpre, hlog⟩ := hstop
  intro v frame flags hev
  obtain ⟨⟨it', hit', hv⟩, hwx⟩ := hlaid.mapsWithin hpre.subset hlog v frame flags hev
  exact ⟨⟨it', by simpa using Or.imp_right Or.inl (by simpa using hit'), hv⟩, hwx⟩

/-! ## The image -/

/-- A page of an image: its flags and its bytes. -/
structure ImagePage where
  flags : ℕ
  bytes : ℕ → UInt8

/-- An image: its pages by their addresses. -/
abbrev Image := ℕ → Option ImagePage

/-- The image with the bytes of one more item laid over it. -/
def Image.place (env : Env) (f : File) (img : Image) (it : PlaceItem) : Image := fun v =>
  if v = it.page then
    match img v with
    | none => some ⟨it.flags, it.overlay f fun _ => 0⟩
    | some p => some ⟨mergeFlags p.flags it.flags,
        if env.mapScratch it.site = 0 then it.overlay f p.bytes else p.bytes⟩
  else img v

/-- The image in the frames of the table. -/
def World.image (w : World) : Image := fun v =>
  (w.entry v).map fun e => ⟨e.flags, w.frames e.frameCap⟩

/-- Every page of the table has a frame of its own. -/
def World.Distinct (w : World) : Prop :=
  ∀ v v' e e', w.entry v = some e → w.entry v' = some e' → e.frameCap = e'.frameCap → v = v'

theorem World.SameMaps.distinct (hs : w.SameMaps w') (h : w.Distinct) : w'.Distinct :=
  fun v v' e e' he he' => h v v' e e' (hs.entry_eq v ▸ he) (hs.entry_eq v' ▸ he')

/-- The context gives out every frame once. The counter does this of itself, as it
    stops at its last value. -/
def Env.FreshFrames (env : Env) : Prop :=
  ∀ alloc, env.allocFrameSlot = some alloc → Function.Injective alloc

/-- The frames of the table are those that the context gave out for the items. -/
def FromContext (env : Env) (items : List PlaceItem) (w : World) : Prop :=
  env.allocFrameSlot.elim
    (w.nextFrameSlot < 2 ^ 64 ∧ ∀ v e, w.entry v = some e → e.frameCap < w.nextFrameSlot)
    fun alloc => ∀ v e, w.entry v = some e → ∃ it ∈ items, e.frameCap = alloc it.site

/-- The table refines an image. -/
structure Refines (env : Env) (f : File) (items : List PlaceItem) (w : World) : Prop where
  fromContext : FromContext env items w
  distinct : w.Distinct
  image_eq : w.image = items.foldl (Image.place env f) fun _ => none

/-- The child has the bytes of the image. -/
theorem World.InSync.childByte_eq (h : w.InSync) (ha : (w.entry (a - a % pageSize)).isSome = true) :
    w.childByte a = (w.image (a - a % pageSize)).map fun p => p.bytes (a % pageSize) := by
  obtain ⟨e, he⟩ := Option.isSome_iff_exists.1 ha
  simp [World.childByte, World.image, he, h _ _ he]

/-- A write to the frame of a page of the table changes the bytes of the child that it is
    for, and no others. -/
theorem World.InSync.writeFrame_childByte (hsync : w.InSync) (hdist : w.Distinct) {p : PageEntry}
    {t len : ℕ} (hp : w.entry (t - t % pageSize) = some p) (hlen : t % pageSize + len ≤ pageSize)
    (b : ℕ → UInt8) (ha : (w.entry (a - a % pageSize)).isSome = true) :
    (w.writeFrame p.frameCap (t % pageSize) len b).childByte a =
      if t ≤ a ∧ a < t + len then some (b (a - t)) else w.childByte a := by
  obtain ⟨e, he⟩ := Option.isSome_iff_exists.1 ha
  have hchild : w.child (a - a % pageSize) = some ⟨e.frameCap, e.flags⟩ := hsync _ _ he
  have hold : w.childByte a = some (w.frames e.frameCap (a % pageSize)) := by
    simp [World.childByte, hchild]
  have hnew : (w.writeFrame p.frameCap (t % pageSize) len b).childByte a =
      some ((w.writeFrame p.frameCap (t % pageSize) len b).frames e.frameCap (a % pageSize)) := by
    simp [World.childByte, hchild]
  rw [hnew, hold, World.writeFrame]
  by_cases hpage : a - a % pageSize = t - t % pageSize
  · -- The address is on the page that is written.
    obtain rfl : e = p := by
      rw [hpage] at he
      exact Option.some.inj (he.symm.trans hp)
    simp only [pageSize] at hpage hlen ⊢
    by_cases hin : t ≤ a ∧ a < t + len
    · rw [if_pos hin, if_pos ⟨trivial, by omega, by omega⟩]
      congr 2
      omega
    · rw [if_neg hin, if_neg fun h => hin ⟨by omega, by omega⟩]
  · -- Another page has another frame.
    have hne : e.frameCap ≠ p.frameCap := fun h => hpage (hdist _ _ _ _ he hp h)
    have hout : ¬(t ≤ a ∧ a < t + len) := fun hin => hpage (by simp only [pageSize] at *; omega)
    rw [if_neg hout]
    exact congrArg some (if_neg fun h => hne h.1)

/-- No frame is in the table twice. -/
theorem World.Distinct.frameCaps_nodup (h : w.Distinct)
    (hn : (w.pages.map PageEntry.vaddr).Nodup) : (w.pages.map PageEntry.frameCap).Nodup := by
  refine (List.nodup_map_iff_inj_on hn.of_map).2 fun e he e' he' heq => ?_
  have hv := h _ _ _ _ (lookup_of_mem hn he) (lookup_of_mem hn he') heq
  exact List.inj_on_of_nodup_map hn he he' hv

theorem refines_nil (hw : w.Start) : Refines env f [] w where
  fromContext := by
    unfold FromContext
    cases env.allocFrameSlot with
    | none => exact ⟨hw.next_lt, fun v e he => by simp [hw.entry_eq] at he⟩
    | some alloc => exact fun v e he => by simp [hw.entry_eq] at he
  distinct v v' e e' he := by simp [hw.entry_eq] at he
  image_eq := by
    funext v
    simp [World.image, hw.entry_eq]

/-- The frame for a new page is not in the table yet. -/
theorem FromContext.fresh (h : FromContext env items w) (hfresh : env.FreshFrames)
    (hsite : ∀ it' ∈ items, it'.site ≠ it.site) (he : w.entry v = some e) :
    e.frameCap ≠ w.nextFrame env it := by
  unfold FromContext at h
  unfold World.nextFrame
  cases halloc : env.allocFrameSlot with
  | none =>
    rw [halloc] at h
    exact (h.2 v e he).ne
  | some alloc =>
    rw [halloc] at h
    obtain ⟨it', hit', hframe⟩ := h v e he
    exact fun heq => hsite it' hit' (hfresh alloc halloc (hframe.symm.trans heq))

theorem FromContext.concat (h : FromContext env items w) (hp : Placed cfg env f it w w') :
    FromContext env (items ++ [it]) w' := by
  unfold FromContext at *
  cases halloc : env.allocFrameSlot with
  | none =>
    rw [halloc] at h
    obtain ⟨hlt, hold⟩ := h
    obtain ⟨hlt', hle, -, hnew⟩ := hp.nextFrameSlot_spec halloc hlt
    refine ⟨hlt', fun v e' he' => ?_⟩
    rw [hp.entry_eq] at he'
    split_ifs at he' with hv
    · obtain rfl := Option.some.inj he'
      cases he : w.entry it.page with
      | none => exact hnew he
      | some e => simpa [placedEntry, he] using (hold _ e he).trans_le hle
    · exact (hold v e' he').trans_le hle
  | some alloc =>
    rw [halloc] at h
    intro v e' he'
    rw [hp.entry_eq] at he'
    split_ifs at he' with hv
    · obtain rfl := Option.some.inj he'
      cases he : w.entry it.page with
      | none => exact ⟨it, by simp, by simp [placedEntry, he, World.nextFrame, halloc]⟩
      | some e =>
        obtain ⟨it', hit', hframe⟩ := h it.page e he
        exact ⟨it', List.mem_append_left _ hit', by simpa [placedEntry, he] using hframe⟩
    · obtain ⟨it', hit', hframe⟩ := h v e' he'
      exact ⟨it', List.mem_append_left _ hit', hframe⟩

section

variable (h : Refines env f items w) (hfresh : env.FreshFrames)
  (hsite : ∀ it' ∈ items, it'.site ≠ it.site)

include h hfresh hsite

/-- The frame of the page of an item is in the table for this page only. -/
theorem Refines.frameCap_ne (he : w.entry v = some e) (hv : v ≠ it.page) :
    e.frameCap ≠ (placedEntry env it w).frameCap := by
  unfold placedEntry
  split <;> rename_i he₀
  · exact fun heq => hv (h.distinct _ _ _ _ he he₀ heq)
  · exact h.fromContext.fresh hfresh hsite he

/-- One more item is laid over the image. -/
theorem Refines.concat (hp : Placed cfg env f it w w') :
    Refines env f (items ++ [it]) w' where
  fromContext := h.fromContext.concat hp
  distinct v v' e e' he he' heq := by
    rw [hp.entry_eq] at he he'
    split_ifs at he he' with hv hv' hv'
    · rw [hv, hv']
    · obtain rfl := Option.some.inj he
      exact absurd heq.symm (h.frameCap_ne hfresh hsite he' hv')
    · obtain rfl := Option.some.inj he'
      exact absurd heq (h.frameCap_ne hfresh hsite he hv)
    · exact h.distinct v v' e e' he he' heq
  image_eq := by
    rw [List.foldl_append, ← h.image_eq]
    funext v
    simp only [World.image, hp.entry_eq, List.foldl_cons, List.foldl_nil, Image.place]
    rcases eq_or_ne v it.page with rfl | hv
    · simp only [↓reduceIte, Option.map_some, hp.frames_eq]
      cases he : w.entry it.page <;> simp [placedEntry, he]
    · simp only [hv, ↓reduceIte]
      cases he : w.entry v with
      | none => rfl
      | some e => simp [hp.frames_eq, h.frameCap_ne hfresh hsite he hv]

end

/-- When every frame is given out once, the items are laid over each other, and the
    child has a frame of its own for every page. -/
theorem placePages_refines (hw : w.Start) (hfresh : env.FreshFrames)
    (hsites : (items.map PlaceItem.site).Nodup) :
    wp (placePages cfg env f items) (fun _ w' => Refines env f items w') (fun _ _ => True) w := by
  refine wp_forM (fun done w' => Refines env f done w') (refines_nil hw) ?_
  rintro done it todo w₁ rfl href
  refine wp_returns placePage_spec fun _ _ hp => href.concat hfresh ?_ hp
  intro it' hit' heq
  rw [List.map_append, List.nodup_append] at hsites
  exact hsites.2.2 _ (List.mem_map_of_mem hit') _ (by simp) heq

/-- The byte `o` of the page `v` is among those that an item copies. -/
def PlaceItem.Covers (it : PlaceItem) (f : File) (v o : ℕ) : Prop :=
  it.Copies f ∧ it.page = v ∧ it.dst ≤ o ∧ o < it.dst + it.len

instance (it : PlaceItem) (f : File) (v o : ℕ) : Decidable (it.Covers f v o) :=
  inferInstanceAs (Decidable (_ ∧ _))

/-- Where an item copies the byte `o` of its page from. -/
def PlaceItem.source (it : PlaceItem) (o : ℕ) : ℕ := it.src + (o - it.dst)

theorem overlay_eq {b : ℕ → UInt8} :
    it.overlay f b o = if it.Covers f it.page o then f.byte (it.source o) else b o := by
  simp [PlaceItem.overlay, PlaceItem.Covers, PlaceItem.source]

/-- The pages of an image are those of the items. -/
theorem image_isSome : (items.foldl (Image.place env f) (fun _ => none) v).isSome = true ↔
    ∃ it ∈ items, it.page = v := by
  induction items using List.reverseRecOn with
  | nil => simp
  | append_singleton items it ih =>
    have hex : (∃ it' ∈ items ++ [it], it'.page = v) ↔
        (∃ it' ∈ items, it'.page = v) ∨ it.page = v := by
      simp [or_and_right, exists_or]
    rw [hex, ← ih, List.foldl_append, List.foldl_cons, List.foldl_nil, Image.place]
    by_cases hv : v = it.page
    · rw [if_pos hv]
      split <;> simp [hv]
    · simp [hv, Ne.symm hv]

/-- The byte `o` of the page `v` is among those that an item copies, and the copy is
    made. -/
def ByteCopied (env : Env) (f : File) (items : List PlaceItem) (v o : ℕ) : Prop :=
  ∃ before it after, items = before ++ it :: after ∧ it.Done env f before ∧ it.Covers f v o

/-- A byte is the one that the items on it copy, where they agree, and zero where no copy
    is made. -/
theorem image_bytes_copied {i : ℕ} (hall : ∀ it ∈ items, it.Covers f v o → it.source o = i)
    (hp : items.foldl (Image.place env f) (fun _ => none) v = some p) :
    (ByteCopied env f items v o → p.bytes o = f.byte i) ∧
      (¬ByteCopied env f items v o → p.bytes o = 0) := by
  induction items using List.reverseRecOn generalizing p with
  | nil => cases hp
  | append_singleton items it ih =>
    have hall' : ∀ it ∈ items, it.Covers f v o → it.source o = i :=
      fun it' hit' => hall it' (List.mem_append_left _ hit')
    have hsplit : ByteCopied env f (items ++ [it]) v o ↔
        ByteCopied env f items v o ∨ (it.Done env f items ∧ it.Covers f v o) :=
      exists_split_concat
    rw [List.foldl_append, List.foldl_cons, List.foldl_nil, Image.place] at hp
    -- What the items before this one give.
    generalize himg : items.foldl (Image.place env f) (fun _ => none) v = old at hp
    have hold := fun p (hp : old = some p) => ih hall' (himg.trans hp)
    have hmem : (∃ it' ∈ items, it'.page = v) ↔ old.isSome = true := by
      rw [← himg, image_isSome]
    rw [hsplit]
    rcases eq_or_ne v it.page with rfl | hv
    · have hlast : it.Covers f it.page o → it.source o = i := hall it (by simp)
      rw [if_pos rfl] at hp
      cases old with
      | none =>
        -- The page is new, and the copy of the item needs no scratch mapping.
        have hnew : ¬∃ it' ∈ items, it'.page = it.page := fun h => by simpa using hmem.1 h
        have hnone : ¬ByteCopied env f items it.page o := by
          rintro ⟨before, it', after, rfl, -, hcov⟩
          exact hnew ⟨it', by simp, hcov.2.1⟩
        obtain rfl := Option.some.inj hp
        simp only [overlay_eq, hnone, false_or, PlaceItem.Done, hnew, false_implies, and_true]
        refine ⟨fun h => ?_, fun h => if_neg fun hcov => h ⟨hcov.1, hcov⟩⟩
        rw [if_pos h.2, hlast h.2]
      | some q =>
        have hshared : ∃ it' ∈ items, it'.page = it.page := hmem.2 rfl
        obtain rfl := Option.some.inj hp
        simp only [PlaceItem.Done, hshared, true_implies]
        by_cases hs : env.mapScratch it.site = 0
        · simp only [hs, ↓reduceIte, overlay_eq, and_true]
          by_cases hcov : it.Covers f it.page o
          · rw [if_pos hcov, hlast hcov]
            exact ⟨fun _ => rfl, fun h => absurd (.inr ⟨hcov.1, hcov⟩) h⟩
          · simpa only [hcov, and_false, or_false, ↓reduceIte] using hold q rfl
        · -- Without the scratch mapping the page stays as it is.
          simpa only [hs, and_false, false_and, or_false, ↓reduceIte] using hold q rfl
    · have hnot : ¬it.Covers f v o := fun h => hv h.2.1.symm
      rw [if_neg hv] at hp
      simpa only [hnot, and_false, or_false] using hold p hp

/-- With every scratch mapping made, a byte is the one that the items on it copy,
    where they agree, and zero where there is none. -/
theorem image_bytes (hs : ∀ site, env.mapScratch site = 0) {i : ℕ}
    (hall : ∀ it ∈ items, it.Covers f v o → it.source o = i)
    (hp : items.foldl (Image.place env f) (fun _ => none) v = some p) :
    p.bytes o = if ∃ it ∈ items, it.Covers f v o then f.byte i else 0 := by
  obtain ⟨hcopied, hzero⟩ := image_bytes_copied hall hp
  split_ifs with hcov
  · obtain ⟨it, hit, hcov⟩ := hcov
    obtain ⟨before, after, rfl⟩ := List.append_of_mem hit
    exact hcopied ⟨before, it, after, rfl, ⟨hcov.1, fun _ => hs _⟩, hcov⟩
  · refine hzero fun h => hcov ?_
    obtain ⟨before, it, after, rfl, -, h⟩ := h
    exact ⟨it, by simp, h⟩

/-- When all calls succeed and there is room for the items, they are all placed. -/
theorem placePages_succeeds (hw : w.Start) (hs : env.Succeeds)
    (hfile : ∀ it ∈ items, it.Copies f → it.src + it.len ≤ f.size)
    (hroom : items.length ≤ cfg.capacity)
    (hcounter : env.allocFrameSlot = none →
      w.nextFrameSlot ≠ 0 ∧ w.nextFrameSlot + items.length < 2 ^ 64) :
    wp (placePages cfg env f items) (fun _ _ => True) (fun _ _ => False) w := by
  refine wp_post (wp_forM (E := fun _ _ => False) (fun done w' => Laid env f done w' ∧
    (env.allocFrameSlot = none → w'.nextFrameSlot ≠ 0 ∧
      w'.nextFrameSlot ≤ w.nextFrameSlot + done.length)) ?_ ?_) fun _ _ _ => trivial
  · exact ⟨laid_nil hw, fun h => ⟨(hcounter h).1, by simp⟩⟩
  · rintro done it todo w₁ rfl ⟨hlaid, hnext⟩
    have hlen := hlaid.length_le
    simp only [List.length_append, List.length_cons] at hroom hcounter
    refine wp_mono (wp_and placePage_spec (placePage_succeeds hs (hfile it (by simp)) (by omega)
      fun h => ?_)) (fun _ w₂ hp => ⟨hlaid.concat hp.1, fun h => ?_⟩) fun _ _ h => h.2
    · have := hnext h
      have := hcounter h
      omega
    · have := hnext h
      have := hcounter h
      have := hp.1.nextFrameSlot_spec h (by omega)
      simp only [List.length_append, List.length_singleton]
      omega

/-! ## A machine on which all calls succeed -/

/-- The result of a computation that succeeds. -/
def resultOf {ε α : Type} (x : Except ε α) (h : x.toOption.isSome = true) : α :=
  x.toOption.get h

theorem eq_ok_resultOf {α : Type} {x : Except ε α} (h : x.toOption.isSome = true) :
    x = .ok (resultOf x h) := by
  cases x with
  | error e => cases h
  | ok a => rfl

/-- A context with a counter for its frames, where every call succeeds. -/
def Env.quiet : Env where
  allocFrameSlot := none
  recordPage := none
  retype _ _ := 0
  numSlots _ := none
  mapScratch _ := 0
  unmapChild _ := 0
  mapChild _ := 0
  scratchEnd := false

/-- A machine before its first load. -/
def World.initial : World where
  frames _ _ := 0
  child _ := none
  pages := []
  nextFrameSlot := 64
  untyped := 16
  nextUtHint := 16
  log := []

theorem Env.quiet_succeeds : Env.quiet.Succeeds where
  alloc _ h := by cases h
  record _ h := by cases h
  retype _ _ := rfl
  mapScratch _ := rfl
  mapChild _ := rfl

theorem Env.quiet_freshFrames : Env.quiet.FreshFrames := fun _ h => by cases h

theorem World.initial_start : World.initial.Start := ⟨rfl, rfl, by decide⟩

end Trona
