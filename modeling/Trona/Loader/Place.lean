import Trona.Loader.Machine

/-!
# Placing a page

Both loaders place the pages of an image one after another, in the same way: the
page loop of `elf_load` and `map_pe_page_raw` are one function here, `placePage`,
with what is different in its configuration. A page that is not in the table gets a
frame, which is filled through the scratch mapping and then mapped into the child.
A page that is in the table, because it is shared with an earlier segment, has
more bytes copied to its frame, and its flags merged.
-/

namespace Trona

/-- A page of a segment to be placed: its address, the flags of the segment, and the bytes
    of the file to copy, `len` of them, from the offset `src` of the file to
    the offset `dst` of the page. -/
structure PlaceItem where
  site : Site
  page : ℕ
  flags : ℕ
  perm : IsPerm flags
  src : ℕ
  dst : ℕ
  len : ℕ
  fits : dst + len ≤ pageSize
  deriving DecidableEq

def PlaceItem.writable (it : PlaceItem) : Bool := it.flags &&& vspaceFlagWritable ≠ 0

def PlaceItem.executable (it : PlaceItem) : Bool := it.flags &&& vspaceFlagExecutable ≠ 0

theorem PlaceItem.flags_eq (it : PlaceItem) : it.flags = permFlags it.writable it.executable :=
  it.perm

/-- Where the part of `[start, fin)` on the page at `base` starts. -/
def overlapStart (base start : ℕ) : ℕ := if base > start then base else start

/-- Where the part of `[start, fin)` on the page at `base` ends. The end of the page
    may wrap. -/
def overlapEnd (base fin : ℕ) : ℕ :=
  if (base + pageSize) % 2 ^ 64 < fin then (base + pageSize) % 2 ^ 64 else fin

theorem le_overlapStart (base start : ℕ) : base ≤ overlapStart base start := by
  unfold overlapStart
  split <;> omega

theorem overlapEnd_le (base fin : ℕ) : overlapEnd base fin ≤ base + pageSize := by
  unfold overlapEnd
  split <;> omega

/-- The item for the part of `[start, fin)` that is on the page at `base`, copied from
    where `src` says its first byte is. -/
def PlaceItem.ofOverlap (site : Site) (page flags : ℕ) (perm : IsPerm flags)
    (base start fin : ℕ) (src : ℕ → ℕ) : PlaceItem where
  site := site
  page := page
  flags := flags
  perm := perm
  src := if overlapStart base start < overlapEnd base fin then src (overlapStart base start) else 0
  dst := if overlapStart base start < overlapEnd base fin then overlapStart base start - base else 0
  len := if overlapStart base start < overlapEnd base fin
    then overlapEnd base fin - overlapStart base start else 0
  fits := by
    have := le_overlapStart base start
    have := overlapEnd_le base fin
    split <;> omega

/-- How a frame is retyped: from the context's untyped capability or any other one
    (the ELF loader), or from the context's alone (the PE loader). -/
inductive Retype
  | anyUntyped
  | ownUntyped

/-- What differs between the loaders. The ELF loader records a page again when its
    flags change. -/
structure PlaceConfig (ε : Type) where
  capacity : ℕ
  retype : Retype
  recordRemap : Bool
  mapFailed : ε
  outOfMemory : ε

/-- The test before a copy. Its sum may wrap. -/
def PlaceItem.Copies (it : PlaceItem) (f : File) : Prop :=
  0 < it.len ∧ (it.src + it.len) % 2 ^ 64 ≤ f.size

instance (it : PlaceItem) (f : File) : Decidable (it.Copies f) :=
  inferInstanceAs (Decidable (_ ∧ _))

/-- Set the flags of a page of the table. -/
def World.setFlags (w : World) (e : PageEntry) (flags : ℕ) : World :=
  { w with pages := replace PageEntry.vaddr w.pages e.vaddr { e with flags := flags } }

def World.push (w : World) (e : PageEntry) : World := { w with pages := w.pages ++ [e] }

section

variable {ε : Type} (cfg : PlaceConfig ε) (env : Env) (f : File) (it : PlaceItem)

/-- Copy bytes of the file to a frame through the scratch mapping. -/
def copyFile (frame : ℕ) : LoadM ε PUnit :=
  if it.src + it.len ≤ f.size then
    modify fun w => (w.writeFrame frame it.dst it.len fun k => f.byte (it.src + k)).emit
      (.copy it.site it.page frame it.dst it.src it.len)
  else throw .fault

def retypeFrame : LoadM ε ℤ :=
  match cfg.retype with
  | .anyUntyped => tryRetypeFrameAnyUntyped env it.site
  | .ownUntyped => tryRetypeFrame env it.site

/-- Copy more bytes to a page that is in the table. When its frame cannot be mapped
    at the scratch address, the bytes are not copied. -/
def copyMore (e : PageEntry) : LoadM ε PUnit :=
  if it.Copies f then
    if env.mapScratch it.site = 0 then copyFile f it e.frameCap else pure ⟨⟩
  else pure ⟨⟩

/-- Merge the flags of a page that is in the table. -/
def remapPage (e : PageEntry) : LoadM ε PUnit := do
  let merged := mergeFlags e.flags it.flags
  if merged ≠ e.flags then
    unmapChild env it.site it.page
    let err ← mapChild env it.site e.frameCap it.page merged
    if err ≠ 0 then throw (.error cfg.mapFailed)
    modify (·.setFlags e merged)
    if cfg.recordRemap then
      let err ← recordPageMap env it.site it.page e.frameCap merged
      if err ≠ 0 then throw (.error cfg.outOfMemory)

/-- The page is in the table, as `e`. -/
def mergePage (e : PageEntry) : LoadM ε PUnit := do
  copyMore env f it e
  remapPage cfg env it e

/-- Get a frame for a new page. Where the callback has already retyped it, the
    context has no untyped capability. -/
def allocFrame : LoadM ε ℕ := do
  let frame ← nextFrameSlot env it.site
  if frame = 2 ^ 64 - 1 ∨ frame = 0 then throw (.error cfg.outOfMemory)
  modify (·.emit (.alloc frame))
  let w ← get
  if w.untyped ≠ 0 then
    let err ← retypeFrame cfg env it
    if err ≠ 0 then throw (.error cfg.outOfMemory)
  return frame

/-- Fill the frame of a new page through the scratch mapping. -/
def fillFrame (frame : ℕ) : LoadM ε PUnit := do
  if env.mapScratch it.site ≠ 0 then throw (.error cfg.mapFailed)
  modify (·.zeroFrame frame)
  if it.Copies f then
    copyFile f it frame

/-- Map a new page into the child and put it into the table. -/
def mapNewPage (frame : ℕ) : LoadM ε PUnit := do
  let err ← mapChild env it.site frame it.page it.flags
  if err ≠ 0 then throw (.error cfg.mapFailed)
  modify (·.push ⟨it.page, frame, it.flags⟩)
  let err ← recordPageMap env it.site it.page frame it.flags
  if err ≠ 0 then throw (.error cfg.outOfMemory)

/-- The page is not in the table. -/
def addPage : LoadM ε PUnit := do
  let w ← get
  if w.pages.length ≥ cfg.capacity then throw (.error cfg.outOfMemory)
  let frame ← allocFrame cfg env it
  fillFrame cfg env f it frame
  mapNewPage cfg env it frame

/-- Place one page. -/
def placePage : LoadM ε PUnit := do
  let w ← get
  match w.entry it.page with
  | some e => mergePage cfg env f it e
  | none => addPage cfg env f it

end

/-! ## What placing a page does -/

/-- The bytes of a page after the copy of an item. -/
def PlaceItem.overlay (it : PlaceItem) (f : File) (b : ℕ → UInt8) (o : ℕ) : UInt8 :=
  if it.Copies f ∧ it.dst ≤ o ∧ o < it.dst + it.len then f.byte (it.src + (o - it.dst)) else b o

section

variable {ε : Type} (cfg : PlaceConfig ε) (env : Env) (f : File) (it : PlaceItem)

/-- The event of the copy of an item to a frame, if it is made. -/
def copyEvents (frame : ℕ) : List LoadEvent :=
  if it.Copies f then [.copy it.site it.page frame it.dst it.src it.len] else []

/-- The events of merging the flags of an item into those of the page `e`. -/
def remapEvents (e : PageEntry) : List LoadEvent :=
  let merged := mergeFlags e.flags it.flags
  if merged ≠ e.flags then
    .map it.page e.frameCap merged ::
      if cfg.recordRemap ∧ env.recordPage.isSome then [.record it.page e.frameCap merged] else []
  else []

/-- The events of merging an item into the page `e`. -/
def mergeEvents (e : PageEntry) : List LoadEvent :=
  (if env.mapScratch it.site = 0 then copyEvents f it e.frameCap else []) ++
    remapEvents cfg env it e

/-- The events of adding a page with a frame. -/
def addEvents (frame : ℕ) : List LoadEvent :=
  .alloc frame :: (copyEvents f it frame ++ .map it.page frame it.flags ::
    if env.recordPage.isSome then [.record it.page frame it.flags] else [])

/-- The machine after the copy of an item to a frame. -/
def World.copied (w : World) (frame : ℕ) : World :=
  { w with
    frames := fun c => if c = frame then it.overlay f (w.frames c) else w.frames c
    log := w.log ++ copyEvents f it frame }

/-- The machine after merging the flags of an item into those of the page `e`. -/
def World.remapped (w : World) (e : PageEntry) : World :=
  let merged := mergeFlags e.flags it.flags
  { w with
    pages := if merged ≠ e.flags then
        replace PageEntry.vaddr w.pages it.page { e with flags := merged }
      else w.pages
    child := fun v => if v = it.page ∧ merged ≠ e.flags then some ⟨e.frameCap, merged⟩
      else w.child v
    log := w.log ++ remapEvents cfg env it e }

/-- The machine after merging an item into the page `e`. -/
def World.merged (w : World) (e : PageEntry) : World :=
  (if env.mapScratch it.site = 0 then w.copied f it e.frameCap else w).remapped cfg env it e

/-- The machine after adding a page with a frame. -/
def World.added (w : World) (frame : ℕ) : World :=
  { w with
    frames := fun c => if c = frame then it.overlay f (fun _ => 0) else w.frames c
    child := fun v => if v = it.page then some ⟨frame, it.flags⟩ else w.child v
    pages := w.pages ++ [⟨it.page, frame, it.flags⟩]
    nextFrameSlot := env.allocFrameSlot.elim ((w.nextFrameSlot + 1) % 2 ^ 64)
      fun _ => w.nextFrameSlot
    log := w.log ++ addEvents env f it frame }

/-- The frame that the context gives out next. -/
def World.nextFrame (w : World) : ℕ :=
  env.allocFrameSlot.elim w.nextFrameSlot fun alloc => alloc it.site

/-- The load stopped with the first of some events. -/
def StoppedWithin (events : List LoadEvent) (w w' : World) : Prop :=
  ∃ es, es <+: events ∧ w'.log = w.log ++ es

end

section

variable {ε : Type} {cfg : PlaceConfig ε} {env : Env} {f : File} {it : PlaceItem} {w : World}

/-- Without a copy nothing happens to a frame. -/
theorem copied_of_not_copies (hc : ¬it.Copies f) (frame : ℕ) : w.copied f it frame = w := by
  have hover : ∀ b, it.overlay f b = b := fun b => by
    funext o
    simp [PlaceItem.overlay, hc]
  simp [World.copied, copyEvents, hover, hc]

variable {frame : ℕ} {e : PageEntry} {site : Site} {Q : ℤ → World → Prop}

/-- A copy either is made as a whole or faults. -/
theorem copyFile_spec (hc : it.Copies f) :
    wp (ε := Stop ε) (copyFile f it frame)
      (fun _ w' => it.src + it.len ≤ f.size ∧ w' = w.copied f it frame) (fun _ w' => w' = w) w := by
  simp only [copyFile, wp_ite, wp_modify, wp_throw, implies_true, and_true]
  intro hle
  refine ⟨hle, ?_⟩
  simp only [World.writeFrame, World.emit, World.copied, copyEvents, if_pos hc, World.mk.injEq,
    and_true]
  funext c o
  by_cases hcf : c = frame <;> simp [PlaceItem.overlay, hcf, hc]

theorem copyMore_spec :
    wp (ε := Stop ε) (copyMore env f it e)
      (fun _ w' => (it.Copies f → env.mapScratch it.site = 0 → it.src + it.len ≤ f.size) ∧
        w' = if env.mapScratch it.site = 0 then w.copied f it e.frameCap else w)
      (fun _ w' => w' = w) w := by
  simp only [copyMore, wp_ite, wp_pure]
  refine ⟨fun hc => ⟨fun hs => ?_, fun hs => ?_⟩, fun hc => ?_⟩
  · exact wp_post (copyFile_spec hc) fun _ _ h => ⟨fun _ _ => h.1, by rw [h.2, if_pos hs]⟩
  · simp [hs]
  · simp [hc, copied_of_not_copies hc]

theorem recordPageMap_spec {v flags : ℕ} :
    wp (ε := Stop ε) (recordPageMap env site v frame flags)
      (fun _ w' => w' = { w with
        log := w.log ++ if env.recordPage.isSome then [.record v frame flags] else [] })
      (fun _ _ => False) w := by
  unfold recordPageMap
  split <;> rename_i h <;> simp [h, World.emit]

theorem remapPage_spec (he : w.entry it.page = some e) :
    wp (remapPage cfg env it e) (fun _ w' => w' = w.remapped cfg env it e)
      (fun _ w' => StoppedWithin (remapEvents cfg env it e) w w') w := by
  have hv : e.vaddr = it.page := key_of_lookup he
  simp only [remapPage, unmapChild, mapChild, wp_bind, wp_ite, wp_modify, wp_pure, wp_throw]
  refine ⟨fun hne => ⟨fun herr => ?_, fun hok => ?_⟩, fun heq => ?_⟩
  · -- The frame cannot be mapped again.
    refine ⟨[.map it.page e.frameCap (mergeFlags e.flags it.flags)], ?_, ?_⟩
    · simp [remapEvents, hne]
    · split_ifs <;> simp
  · -- Whether the page was unmapped does not matter once it is mapped again.
    have hworld : ∀ ev, (((if env.unmapChild it.site = 0 then w.setChild it.page none
        else w).emit ev).setChild it.page
          (some ⟨e.frameCap, mergeFlags e.flags it.flags⟩)).setFlags e
          (mergeFlags e.flags it.flags) =
        { w with
          pages := replace PageEntry.vaddr w.pages it.page
            { e with flags := mergeFlags e.flags it.flags }
          child := fun v => if v = it.page then some ⟨e.frameCap, mergeFlags e.flags it.flags⟩
            else w.child v
          log := w.log ++ [ev] } := by
      intro ev
      split_ifs <;>
        simp only [World.setFlags, World.setChild, World.emit, hv, World.mk.injEq, true_and,
          and_true]
      funext v
      split_ifs <;> rfl
    rw [if_pos (not_not.1 hok), hworld]
    refine ⟨fun hrec => ?_, fun hrec => ?_⟩
    · refine wp_mono recordPageMap_spec (fun err w' hw' => ⟨fun herr => ?_, fun herr => ?_⟩)
        fun _ _ h => h.elim
      · refine ⟨remapEvents cfg env it e, List.prefix_rfl, ?_⟩
        simp [hw', remapEvents, hne, hrec]
      · simp [hw', World.remapped, remapEvents, hne, hrec]
    · simp [World.remapped, remapEvents, hne, hrec]
  · simp [World.remapped, remapEvents, not_not.1 heq]

theorem StoppedWithin.append {es es' : List LoadEvent} {w₁ w' : World} (hlog : w₁.log = w.log ++ es)
    (h : StoppedWithin es' w₁ w') : StoppedWithin (es ++ es') w w' := by
  obtain ⟨es₁, hpre, heq⟩ := h
  exact ⟨es ++ es₁, (List.prefix_append_right_inj es).2 hpre, by rw [heq, hlog, List.append_assoc]⟩

theorem stoppedWithin_nil {es : List LoadEvent} {w' : World} (h : w'.log = w.log) :
    StoppedWithin es w w' := ⟨[], List.nil_prefix, by simp [h]⟩

theorem mergePage_spec (he : w.entry it.page = some e) :
    wp (mergePage cfg env f it e)
      (fun _ w' => (it.Copies f → env.mapScratch it.site = 0 → it.src + it.len ≤ f.size) ∧
        w' = w.merged cfg env f it e)
      (fun _ w' => StoppedWithin (mergeEvents cfg env f it e) w w') w := by
  rw [mergePage, wp_bind]
  refine wp_mono copyMore_spec (fun _ w₁ h₁ => ?_) fun _ _ h => stoppedWithin_nil (by rw [h])
  obtain ⟨hfile, hw₁⟩ := h₁
  have he₁ : w₁.entry it.page = some e := by
    rw [hw₁]
    split_ifs <;> exact he
  refine wp_mono (remapPage_spec he₁) (fun _ _ h => ⟨hfile, by rw [h, hw₁, World.merged]⟩)
    fun _ _ h => h.append ?_
  rw [hw₁]
  split_ifs <;> simp [World.copied]

/-- Retyping only changes where the next frames come from. -/
theorem retypeFrame_spec :
    wp (retypeFrame cfg env it)
      (fun _ w' => ∃ u h, w' = { w with untyped := u, nextUtHint := h }) (fun _ _ => False) w := by
  unfold retypeFrame
  split
  · simp only [tryRetypeFrameAnyUntyped, wp_bind, wp_get, wp_ite, wp_set, wp_pure]
    refine ⟨fun _ => ⟨_, _, rfl⟩, fun _ => ?_⟩
    split
    · simp only [wp_bind, wp_set, wp_pure]
      exact ⟨_, _, rfl⟩
    · exact wp_pure.2 ⟨_, _, rfl⟩
  · simp only [tryRetypeFrame, wp_bind, wp_get, wp_pure]
    exact ⟨_, _, rfl⟩

theorem nextFrameSlot_spec :
    wp (ε := Stop ε) (nextFrameSlot env it.site)
      (fun frame w' => frame = w.nextFrame env it ∧ w' = { w with
        nextFrameSlot := env.allocFrameSlot.elim ((w.nextFrameSlot + 1) % 2 ^ 64)
          fun _ => w.nextFrameSlot })
      (fun _ _ => False) w := by
  unfold nextFrameSlot
  split <;> rename_i h <;> simp [World.nextFrame, h]

theorem allocFrame_spec :
    wp (allocFrame cfg env it)
      (fun frame w' => frame = w.nextFrame env it ∧ frame ≠ 0 ∧ frame ≠ 2 ^ 64 - 1 ∧
        ∃ u h, w' = { w with
          nextFrameSlot := env.allocFrameSlot.elim ((w.nextFrameSlot + 1) % 2 ^ 64)
            fun _ => w.nextFrameSlot
          untyped := u
          nextUtHint := h
          log := w.log ++ [.alloc frame] })
      (fun _ w' => StoppedWithin [.alloc (w.nextFrame env it)] w w') w := by
  simp only [allocFrame, wp_bind, wp_ite, wp_throw, wp_pure, wp_modify, wp_get]
  refine wp_mono nextFrameSlot_spec (fun frame w₁ h₁ => ?_) fun _ _ h => h.elim
  obtain ⟨rfl, hw₁⟩ := h₁
  refine ⟨fun _ => stoppedWithin_nil (by rw [hw₁]), fun hne => ?_⟩
  rw [not_or] at hne
  refine ⟨fun _ => ?_, fun _ => ⟨rfl, hne.2, hne.1, _, _, by rw [hw₁]; rfl⟩⟩
  refine wp_mono retypeFrame_spec (fun err w₂ h₂ => ?_) fun _ _ h => h.elim
  obtain ⟨u, h, hw₂⟩ := h₂
  refine ⟨fun _ => ?_, fun _ => ?_⟩
  · exact ⟨_, List.prefix_rfl, by simp [hw₂, hw₁]⟩
  · exact ⟨rfl, hne.2, hne.1, u, h, by rw [hw₂, hw₁]; rfl⟩

theorem fillFrame_spec :
    wp (fillFrame cfg env f it frame)
      (fun _ w' => (it.Copies f → it.src + it.len ≤ f.size) ∧ w' = { w with
        frames := fun c => if c = frame then it.overlay f (fun _ => 0) else w.frames c
        log := w.log ++ copyEvents f it frame })
      (fun _ w' => w'.log = w.log) w := by
  have hzero : (w.zeroFrame frame).copied f it frame = { w with
      frames := fun c => if c = frame then it.overlay f (fun _ => 0) else w.frames c
      log := w.log ++ copyEvents f it frame } := by
    simp only [World.copied, World.zeroFrame, World.mk.injEq, and_true]
    funext c
    by_cases hc : c = frame <;> simp [hc]
  simp only [fillFrame, wp_bind, wp_ite, wp_throw, wp_pure, wp_modify]
  refine ⟨fun _ => trivial, fun _ => ⟨fun hc => ?_, fun hc => ?_⟩⟩
  · exact wp_mono (copyFile_spec hc) (fun _ _ h => ⟨fun _ => h.1, h.2.trans hzero⟩)
      fun _ _ h => by rw [h]; rfl
  · exact ⟨fun h => absurd h hc, by rw [← hzero, copied_of_not_copies hc]⟩

theorem mapNewPage_spec :
    wp (mapNewPage cfg env it frame)
      (fun _ w' => w' = { w with
        child := fun v => if v = it.page then some ⟨frame, it.flags⟩ else w.child v
        pages := w.pages ++ [⟨it.page, frame, it.flags⟩]
        log := w.log ++ .map it.page frame it.flags ::
          if env.recordPage.isSome then [.record it.page frame it.flags] else [] })
      (fun _ w' => StoppedWithin (.map it.page frame it.flags ::
        if env.recordPage.isSome then [.record it.page frame it.flags] else []) w w') w := by
  simp only [mapNewPage, mapChild, wp_bind, wp_ite, wp_throw, wp_pure, wp_modify]
  refine ⟨fun herr => ?_, fun hok => ?_⟩
  · exact ⟨[.map it.page frame it.flags], by simp, by simp [herr]⟩
  · rw [if_pos (not_not.1 hok)]
    refine wp_mono recordPageMap_spec (fun err w' hw' => ⟨fun _ => ?_, fun _ => ?_⟩)
      fun _ _ h => h.elim
    · exact ⟨_, List.prefix_rfl, by simp [hw', World.push]⟩
    · simp [hw', World.push, World.setChild, World.emit]

theorem addPage_spec :
    wp (addPage cfg env f it)
      (fun _ w' => w.pages.length < cfg.capacity ∧ w.nextFrame env it ≠ 0 ∧
        w.nextFrame env it ≠ 2 ^ 64 - 1 ∧ (it.Copies f → it.src + it.len ≤ f.size) ∧
        ∃ u h, w' = { w.added env f it (w.nextFrame env it) with untyped := u, nextUtHint := h })
      (fun _ w' => StoppedWithin (addEvents env f it (w.nextFrame env it)) w w') w := by
  simp only [addPage, wp_bind, wp_get, wp_ite, wp_throw]
  refine ⟨fun _ => stoppedWithin_nil rfl, fun hcap => ?_⟩
  refine wp_mono allocFrame_spec (fun frame w₁ h₁ => ?_) fun _ _ h => ?_
  · obtain ⟨rfl, h₀, hmax, u, h, hw₁⟩ := h₁
    have hlog₁ : w₁.log = w.log ++ [.alloc (w.nextFrame env it)] := by rw [hw₁]
    refine wp_mono fillFrame_spec (fun _ w₂ h₂ => ?_) fun _ _ h => ?_
    · obtain ⟨hfile, hw₂⟩ := h₂
      have hlog₂ : w₂.log = w.log ++ (.alloc (w.nextFrame env it) ::
          copyEvents f it (w.nextFrame env it)) := by rw [hw₂, hlog₁]; simp
      refine wp_mono mapNewPage_spec (fun _ w₃ hw₃ => ?_) fun _ _ h => h.append hlog₂
      refine ⟨not_le.1 hcap, h₀, hmax, hfile, u, h, ?_⟩
      rw [hw₃, hw₂, hw₁]
      simp [World.added, addEvents]
    · exact ⟨[.alloc _], by simp [addEvents], h.trans hlog₁⟩
  · obtain ⟨es, hpre, hlog⟩ := h
    exact ⟨es, hpre.trans (by simp [addEvents]), hlog⟩

variable (cfg env f it)

/-- The events of placing an item. -/
def placeEvents (w : World) : List LoadEvent :=
  match w.entry it.page with
  | some e => mergeEvents cfg env f it e
  | none => addEvents env f it (w.nextFrame env it)

/-- `w'` is `w` after placing an item: it was merged into the page that was there, or
    the page was added. -/
inductive Placed (w : World) : World → Prop
  | merge (e : PageEntry) (he : w.entry it.page = some e)
      (hfile : it.Copies f → env.mapScratch it.site = 0 → it.src + it.len ≤ f.size) :
      Placed w (w.merged cfg env f it e)
  | add (u h : ℕ) (hnone : w.entry it.page = none) (hcap : w.pages.length < cfg.capacity)
      (hzero : w.nextFrame env it ≠ 0) (hmax : w.nextFrame env it ≠ 2 ^ 64 - 1)
      (hfile : it.Copies f → it.src + it.len ≤ f.size) :
      Placed w { w.added env f it (w.nextFrame env it) with untyped := u, nextUtHint := h }

variable {cfg env f it}

/-- Placing an item either does all of it or stops within its events. -/
theorem placePage_spec :
    wp (placePage cfg env f it) (fun _ w' => Placed cfg env f it w w')
      (fun _ w' => StoppedWithin (placeEvents cfg env f it w) w w') w := by
  simp only [placePage, wp_bind, wp_get, placeEvents]
  split
  · rename_i e he
    exact wp_post (mergePage_spec he) fun _ _ h => h.2 ▸ .merge e he h.1
  · rename_i hnone
    refine wp_post addPage_spec fun _ w' h => ?_
    obtain ⟨hcap, h₀, hmax, hfile, u, h, rfl⟩ := h
    exact .add u h hnone hcap h₀ hmax hfile

/-! ## What a placed item changes -/

/-- Merging an item into the page `e` changes its frame, its flags and its mapping. -/
theorem World.merged_eq (e : PageEntry) : w.merged cfg env f it e = { w with
    frames := fun c => if env.mapScratch it.site = 0 ∧ c = e.frameCap then it.overlay f (w.frames c)
      else w.frames c
    pages := if mergeFlags e.flags it.flags ≠ e.flags then
        replace PageEntry.vaddr w.pages it.page { e with flags := mergeFlags e.flags it.flags }
      else w.pages
    child := fun v => if v = it.page ∧ mergeFlags e.flags it.flags ≠ e.flags then
        some ⟨e.frameCap, mergeFlags e.flags it.flags⟩ else w.child v
    log := w.log ++ mergeEvents cfg env f it e } := by
  rw [World.merged, mergeEvents]
  by_cases hs : env.mapScratch it.site = 0 <;> simp [World.remapped, World.copied, hs]

variable {w' : World}

theorem Placed.log_eq (h : Placed cfg env f it w w') :
    w'.log = w.log ++ placeEvents cfg env f it w := by
  cases h with
  | merge e he _ => simp only [World.merged_eq, placeEvents, he]
  | add u h hnone _ _ _ _ => simp only [placeEvents, hnone, World.added]

/-- The entry that a page has after an item is placed on it. -/
def placedEntry (env : Env) (it : PlaceItem) (w : World) : PageEntry :=
  match w.entry it.page with
  | some e => { e with flags := mergeFlags e.flags it.flags }
  | none => ⟨it.page, w.nextFrame env it, it.flags⟩

/-- Placing an item changes the entry of its page only. -/
theorem Placed.entry_eq (h : Placed cfg env f it w w') (v : ℕ) :
    w'.entry v = if v = it.page then some (placedEntry env it w) else w.entry v := by
  cases h with
  | merge e he _ =>
    have hv : e.vaddr = it.page := key_of_lookup he
    simp only [World.entry, World.merged_eq, placedEntry, show lookup _ _ _ = _ from he]
    by_cases hne : mergeFlags e.flags it.flags = e.flags
    · rw [if_neg (not_not.2 hne), hne]
      by_cases hvp : v = it.page
      · rw [if_pos hvp, hvp]
        exact he
      · rw [if_neg hvp]
    · rw [if_pos hne]
      exact lookup_replace he hv
  | add u h hnone _ _ _ _ =>
    simp only [placedEntry, hnone]
    exact lookup_append_singleton hnone

/-- What the entries of the table have in common, except for the flags, is extended by
    that of a new page and otherwise kept. -/
theorem Placed.map_pages {γ : Type} {g : PageEntry → γ}
    (hg : ∀ e flags, g { e with flags := flags } = g e) (h : Placed cfg env f it w w') :
    w'.pages.map g = w.pages.map g ++
      match w.entry it.page with
      | some _ => []
      | none => [g (placedEntry env it w)] := by
  cases h with
  | merge e he _ =>
    simp only [World.merged_eq, he, List.append_nil]
    split_ifs
    · exact map_replace g he (hg _ _)
    · rfl
  | add u h hnone _ _ _ _ => simp [World.added, placedEntry, hnone]

/-- What is copied is in the file. -/
theorem Placed.in_file (h : Placed cfg env f it w w') (hc : it.Copies f)
    (hs : (w.entry it.page).isSome = true → env.mapScratch it.site = 0) :
    it.src + it.len ≤ f.size := by
  cases h with
  | merge e he hfile => exact hfile hc (hs (by simp [he]))
  | add u h hnone _ _ _ hfile => exact hfile hc

/-- The frame of the page of an item is changed by what is copied, and no other. -/
theorem Placed.frames_eq (h : Placed cfg env f it w w') (c : ℕ) :
    w'.frames c = if c = (placedEntry env it w).frameCap then
      match w.entry it.page with
      | some _ => if env.mapScratch it.site = 0 then it.overlay f (w.frames c) else w.frames c
      | none => it.overlay f fun _ => 0
      else w.frames c := by
  cases h with
  | merge e he _ =>
    simp only [placedEntry, he, World.merged_eq]
    by_cases hs : env.mapScratch it.site = 0 <;> simp [hs]
  | add u h hnone _ _ _ _ => simp only [placedEntry, hnone, World.added]

/-- The counter of the context is ahead of the frames it gave out, and does not wrap:
    its last value is refused. -/
theorem Placed.nextFrameSlot_spec (h : Placed cfg env f it w w')
    (halloc : env.allocFrameSlot = none) (hlt : w.nextFrameSlot < 2 ^ 64) :
    w'.nextFrameSlot < 2 ^ 64 ∧ w.nextFrameSlot ≤ w'.nextFrameSlot ∧
      w'.nextFrameSlot ≤ w.nextFrameSlot + 1 ∧
      (w.entry it.page = none → (placedEntry env it w).frameCap < w'.nextFrameSlot) := by
  cases h with
  | merge e he _ =>
    rw [World.merged_eq]
    exact ⟨hlt, le_rfl, Nat.le_succ _, fun h => by simp [he] at h⟩
  | add u t hnone _ _ hmax _ =>
    simp only [World.nextFrame, halloc, Option.elim_none] at hmax
    have hnext : (w.nextFrameSlot + 1) % 2 ^ 64 = w.nextFrameSlot + 1 := by omega
    simp only [World.added, placedEntry, hnone, World.nextFrame, halloc, Option.elim_none, hnext]
    omega

/-- The table and the address space of the child agree. -/
def World.InSync (w : World) : Prop :=
  ∀ v e, w.entry v = some e → w.child v = some ⟨e.frameCap, e.flags⟩

/-- Placing an item changes the mapping of its page only, and keeps it in step with
    the table. -/
theorem Placed.inSync (h : Placed cfg env f it w w') (hs : w.InSync) : w'.InSync := by
  intro v e' he'
  rw [h.entry_eq] at he'
  have hchild : w'.child v = if v = it.page then
      some ⟨(placedEntry env it w).frameCap, (placedEntry env it w).flags⟩ else w.child v := by
    cases h with
    | merge e he _ =>
      have hold := hs _ _ he
      simp only [World.merged_eq, placedEntry, he]
      rcases eq_or_ne v it.page with rfl | hv
      · by_cases hne : mergeFlags e.flags it.flags = e.flags
        · simp [hne, hold]
        · simp [hne]
      · simp [hv]
    | add u h hnone _ _ _ _ => simp [placedEntry, hnone, World.added]
  rw [hchild]
  split_ifs at he' ⊢ with hv
  · rw [Option.some.inj he']
  · exact hs v e' he'

/-! ## When all calls succeed -/

/-- The calls of the kernel and of the callbacks succeed. -/
structure Env.Succeeds (env : Env) : Prop where
  alloc : ∀ alloc, env.allocFrameSlot = some alloc →
    ∀ site, alloc site ≠ 0 ∧ alloc site ≠ 2 ^ 64 - 1
  record : ∀ record, env.recordPage = some record → ∀ site, record site = 0
  retype : ∀ site ut, env.retype site ut = 0
  mapScratch : ∀ site, env.mapScratch site = 0
  mapChild : ∀ site, env.mapChild site = 0

theorem recordPageMap_succeeds (hs : env.Succeeds) {v flags : ℕ} (hQ : ∀ w, Q 0 w) :
    wp (ε := Stop ε) (recordPageMap env site v frame flags) Q (fun _ _ => False) w := by
  unfold recordPageMap
  split
  · rename_i h
    simp [hs.record _ h, hQ]
  · exact wp_pure.2 (hQ w)

theorem retypeFrame_succeeds (hs : env.Succeeds) (hQ : ∀ w, Q 0 w) :
    wp (retypeFrame cfg env it) Q (fun _ _ => False) w := by
  unfold retypeFrame
  split
  · simp [tryRetypeFrameAnyUntyped, hs.retype, hQ]
  · simp [tryRetypeFrame, hs.retype, hQ]

/-- Then an item is placed, if its bytes are in the file and there is room for it. -/
theorem placePage_succeeds (hs : env.Succeeds) (hfile : it.Copies f → it.src + it.len ≤ f.size)
    (hroom : w.pages.length < cfg.capacity)
    (hcounter : env.allocFrameSlot = none → w.nextFrameSlot ≠ 0 ∧ w.nextFrameSlot ≠ 2 ^ 64 - 1) :
    wp (placePage cfg env f it) (fun _ _ => True) (fun _ _ => False) w := by
  have hframe : ¬(w.nextFrame env it = 2 ^ 64 - 1 ∨ w.nextFrame env it = 0) := by
    unfold World.nextFrame
    cases halloc : env.allocFrameSlot with
    | none => exact not_or.2 (hcounter halloc).symm
    | some alloc => exact not_or.2 (hs.alloc alloc halloc it.site).symm
  have hcopy : ∀ frame w, it.Copies f →
      wp (ε := Stop ε) (copyFile f it frame) (fun _ _ => True) (fun _ _ => False) w :=
    fun frame w hc => by simp [copyFile, hfile hc]
  simp only [placePage, wp_bind, wp_get]
  split
  · rename_i e _
    have hmore : wp (ε := Stop ε) (copyMore env f it e) (fun _ _ => True) (fun _ _ => False) w := by
      simp only [copyMore, hs.mapScratch, ↓reduceIte, wp_ite, wp_pure, implies_true, and_true]
      exact hcopy _ w
    refine wp_bind.2 (wp_post hmore fun _ w₁ _ => ?_)
    simp only [remapPage, unmapChild, mapChild, hs.mapChild, wp_bind, wp_ite, wp_modify, wp_pure,
      wp_throw]
    refine ⟨fun _ => ⟨fun h => h rfl, fun _ => ⟨fun _ => ?_, fun _ => trivial⟩⟩, fun _ => trivial⟩
    exact recordPageMap_succeeds hs fun _ => ⟨fun h => h rfl, fun _ => trivial⟩
  · simp only [addPage, wp_bind, wp_get, wp_ite, wp_throw]
    refine ⟨fun h => absurd h (not_le.2 hroom), fun _ => ?_⟩
    have halloc : wp (allocFrame cfg env it) (fun _ _ => True) (fun _ _ => False) w := by
      simp only [allocFrame, wp_bind, wp_ite, wp_throw, wp_pure, wp_modify, wp_get]
      refine wp_post nextFrameSlot_spec fun frame w₁ hf => ?_
      refine ⟨fun h => hframe (hf.1 ▸ h), fun _ => ⟨fun _ => ?_, fun _ => trivial⟩⟩
      exact retypeFrame_succeeds hs fun _ => ⟨fun h => h rfl, fun _ => trivial⟩
    refine wp_post halloc fun frame w₁ _ => ?_
    have hfill : wp (fillFrame cfg env f it frame) (fun _ _ => True) (fun _ _ => False) w₁ := by
      simp only [fillFrame, hs.mapScratch, wp_bind, wp_ite, wp_throw, wp_pure, wp_modify]
      exact ⟨fun h => h rfl, fun _ => ⟨hcopy _ _, fun _ => trivial⟩⟩
    refine wp_post hfill fun _ w₂ _ => ?_
    simp only [mapNewPage, mapChild, hs.mapChild, wp_bind, wp_ite, wp_modify, wp_pure, wp_throw]
    refine ⟨fun h => h rfl, fun _ => ?_⟩
    exact recordPageMap_succeeds hs fun _ => ⟨fun h => h rfl, fun _ => trivial⟩

end

end Trona
