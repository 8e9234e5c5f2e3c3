import Mathlib.Data.Nat.ModEq
import Trona.Loader.Elf

/-!
# The relocations of the ELF loader

`apply_relocations` should move every pointer of a position-independent image by the
load bias. It does two other things: it adds the load address, which is the bias only
for an image that starts at the address zero, and a target that crosses the end of its
page gets the part of its word before the end alone.

* `applyRelocations_spec` says what the child has afterwards: the words of the code on
  the first page of every target, and everywhere else what it had.
* `elfLoad_relocations` compares this with the words that should be there.
-/

namespace Trona

namespace ElfPlan

variable (plan : ElfPlan) (arch : Arch) (f : File)

/-- The relocation `i` of the image is RELATIVE. -/
def Relative (i : ℕ) (rela : Elf64Rela) : Prop :=
  ∃ r, relaRange f plan.phs = .ok (some r) ∧ i < r.count ∧
    f.elf64Rela (r.entryOff i) = some rela ∧ rela.isRelative arch = true

/-- A loaded segment has the page `v`. -/
def HasPage (v : ℕ) : Prop := ∃ ph ∈ plan.phs, ph.isLoad = true ∧ v ∈ ph.segPages plan.delta

instance (v : ℕ) : Decidable (plan.HasPage v) := inferInstanceAs (Decidable (∃ ph ∈ plan.phs, _))

/-- The targets are words on the pages of loaded segments, and no two of them overlap. -/
structure TargetsApart : Prop where
  loaded : ∀ i rela, plan.Relative arch f i rela → ∀ j < 8,
    plan.HasPage (rela.target plan.delta + j - (rela.target plan.delta + j) % pageSize)
  apart : ∀ i i' rela rela', plan.Relative arch f i rela → plan.Relative arch f i' rela' →
    i ≠ i' → rela.target plan.delta + 8 ≤ rela'.target plan.delta ∨
      rela'.target plan.delta + 8 ≤ rela.target plan.delta

/-- The byte that the segments of the file give to an address. -/
def imageByte (env : Env) (a : ℕ) : Option UInt8 :=
  ((elfItems plan.phs plan.delta).foldl (Image.place env f) (fun _ => none)
    (a - a % pageSize)).map fun p => p.bytes (a % pageSize)

end ElfPlan

namespace Elf64Rela

variable (rela : Elf64Rela) (delta : ℕ)

/-- How many bytes of the target are on its first page. -/
def headLen : ℕ := min 8 (pageSize - rela.target delta % pageSize)

/-- The address is one of the target's first page. -/
def Head (a : ℕ) : Prop := rela.target delta ≤ a ∧ a < rela.target delta + rela.headLen delta

/-- The word that belongs at the target. -/
def moved : ℕ := (rela.rAddend + delta) % 2 ^ 64

theorem headLen_le : rela.headLen delta ≤ 8 := Nat.min_le_left _ _

end Elf64Rela

/-! ## One relocation -/

section

variable {arch : Arch} {env : Env} {f : File} {loadBase delta : ℕ} {w w' : World}
  {rela : Elf64Rela} {p : PageEntry}

/-- The child after a relocation. -/
theorem World.relocated_childByte (hsync : w.InSync) (hdist : w.Distinct)
    (hp : w.entry (rela.target delta - rela.target delta % pageSize) = some p) {a : ℕ}
    (ha : (w.entry (a - a % pageSize)).isSome = true) :
    (rela.Head delta a → (w.relocated loadBase delta rela p).childByte a =
        some (wordByte ((loadBase + rela.rAddend) % 2 ^ 64) (a - rela.target delta))) ∧
      (¬rela.Head delta a → (w.relocated loadBase delta rela p).childByte a = w.childByte a) := by
  have hfits : rela.target delta % pageSize + rela.headLen delta ≤ pageSize := by
    have := Nat.mod_lt (rela.target delta) (show 0 < pageSize by decide)
    unfold Elf64Rela.headLen
    omega
  have hbyte := hsync.writeFrame_childByte hdist hp hfits
    (wordByte ((loadBase + rela.rAddend) % 2 ^ 64)) ha
  exact ⟨fun hhead => hbyte.trans (if_pos hhead), fun hhead => hbyte.trans (if_neg hhead)⟩

/-- A relocation leaves the bytes that are not at its target. -/
theorem Relocated.childByte_eq {r : RelaRange} {i : ℕ}
    (h : Relocated arch f loadBase delta r i w w') (hsync : w.InSync) (hdist : w.Distinct) {a : ℕ}
    (ha : (w.entry (a - a % pageSize)).isSome = true)
    (hnot : ∀ rela, f.elf64Rela (r.entryOff i) = some rela → rela.isRelative arch = true →
      ¬rela.Head delta a) : w'.childByte a = w.childByte a := by
  cases h with
  | skip => rfl
  | write rela p hrela hrel hp =>
    exact (World.relocated_childByte hsync hdist hp ha).2 (hnot rela hrela hrel)

end

/-! ## All relocations -/

/-- `w'` is `w` with the relocations in `done` applied. -/
structure AllRelocated (arch : Arch) (f : File) (loadBase : ℕ) (plan : ElfPlan) (done : List ℕ)
    (w w' : World) : Prop where
  pages_eq : w'.pages = w.pages
  child_eq : w'.child = w.child
  written : ∀ i ∈ done, ∀ rela, plan.Relative arch f i rela → ∀ a, rela.Head plan.delta a →
    w'.childByte a =
      some (wordByte ((loadBase + rela.rAddend) % 2 ^ 64) (a - rela.target plan.delta))
  kept : ∀ a, (w.entry (a - a % pageSize)).isSome = true →
    (∀ i ∈ done, ∀ rela, plan.Relative arch f i rela → ¬rela.Head plan.delta a) →
    w'.childByte a = w.childByte a

/-- `w'` is `w` with the code's words on the first pages of the targets. -/
structure WordsWritten (arch : Arch) (f : File) (loadBase : ℕ) (plan : ElfPlan) (w w' : World) :
    Prop where
  written : ∀ i rela, plan.Relative arch f i rela → ∀ a, rela.Head plan.delta a →
    w'.childByte a =
      some (wordByte ((loadBase + rela.rAddend) % 2 ^ 64) (a - rela.target plan.delta))
  kept : ∀ a, plan.HasPage (a - a % pageSize) →
    (∀ i rela, plan.Relative arch f i rela → ¬rela.Head plan.delta a) →
    w'.childByte a = w.childByte a

section

variable {arch : Arch} {env : Env} {f : File} {loadBase : ℕ} {plan : ElfPlan} {done : List ℕ}
  {r : RelaRange} {i : ℕ} {w w₁ w' : World}

theorem ElfPlan.Relative.eq {rela rela' : Elf64Rela} (h : plan.Relative arch f i rela)
    (h' : plan.Relative arch f i rela') : rela' = rela := by
  obtain ⟨r, hr, -, hrela, -⟩ := h
  obtain ⟨r', hr', -, hrela', -⟩ := h'
  obtain rfl : r' = r := by simpa [hr] using hr'.symm
  exact Option.some.inj (hrela'.symm.trans hrela)

namespace ElfPlan.TargetsApart

variable {rela rela' : Elf64Rela} {i' a : ℕ}

variable (h : plan.TargetsApart arch f) (hrel : plan.Relative arch f i rela)

include h hrel

theorem hasPage (hlo : rela.target plan.delta ≤ a) (hhi : a < rela.target plan.delta + 8) :
    plan.HasPage (a - a % pageSize) := by
  have hpage := h.loaded i rela hrel (a - rela.target plan.delta) (by omega)
  rwa [Nat.add_sub_cancel' hlo] at hpage

theorem not_head (hrel' : plan.Relative arch f i' rela') (hne : i ≠ i')
    (hlo : rela.target plan.delta ≤ a) (hhi : a < rela.target plan.delta + 8) :
    ¬rela'.Head plan.delta a := by
  rintro ⟨hlo', hhi'⟩
  have hlen := rela'.headLen_le plan.delta
  rcases h.apart i i' rela rela' hrel hrel' hne with hle | hle
  · omega
  · omega

end ElfPlan.TargetsApart

/-- One more relocation is applied. -/
theorem AllRelocated.concat (h : AllRelocated arch f loadBase plan done w w₁) (hsync : w.InSync)
    (hdist : w.Distinct) (htargets : plan.TargetsApart arch f)
    (hpages : ∀ v, plan.HasPage v → (w.entry v).isSome = true)
    (hrange : relaRange f plan.phs = .ok (some r)) (hi : i < r.count) (hnew : i ∉ done)
    (hstep : Relocated arch f loadBase plan.delta r i w₁ w') :
    AllRelocated arch f loadBase plan (done ++ [i]) w w' := by
  have hentry : ∀ v, w₁.entry v = w.entry v := fun v => by rw [World.entry, h.pages_eq, World.entry]
  have hsync₁ : w₁.InSync := fun v e he => by
    rw [h.child_eq]
    exact hsync v e (hentry v ▸ he)
  have hdist₁ : w₁.Distinct := fun v v' e e' he he' =>
    hdist v v' e e' (hentry v ▸ he) (hentry v' ▸ he')
  refine ⟨hstep.sameMaps.pages_eq.trans h.pages_eq, hstep.sameMaps.child_eq.trans h.child_eq,
    ?_, ?_⟩
  · intro i' hi' rela' hrel' a ha
    have hhi : a < rela'.target plan.delta + 8 := by
      have := rela'.headLen_le plan.delta
      have := ha.2
      omega
    have hmem : (w₁.entry (a - a % pageSize)).isSome = true := by
      rw [hentry]
      exact hpages _ (htargets.hasPage hrel' ha.1 hhi)
    rcases List.mem_append.1 hi' with hdone | hlast
    · -- An earlier relocation keeps its word, because the targets are apart.
      have hne : i' ≠ i := fun heq => hnew (heq ▸ hdone)
      rw [← h.written i' hdone rela' hrel' a ha]
      refine hstep.childByte_eq hsync₁ hdist₁ hmem fun rela hrela hrel => ?_
      exact htargets.not_head hrel' ⟨r, hrange, hi, hrela, hrel⟩ hne ha.1 hhi
    · obtain rfl := List.mem_singleton.1 hlast
      cases hstep with
      | skip rela hrela hrel =>
        obtain ⟨r', hr', -, hrela', hrel'⟩ := hrel'
        obtain rfl : r' = r := by simpa [hrange] using hr'.symm
        obtain rfl := Option.some.inj (hrela'.symm.trans hrela)
        exact absurd hrel' (by simp [hrel])
      | write rela p hrela hrel hp =>
        obtain rfl := ElfPlan.Relative.eq ⟨r, hrange, hi, hrela, hrel⟩ hrel'
        exact (World.relocated_childByte hsync₁ hdist₁ hp hmem).1 ha
  · intro a hmem hnot
    rw [← h.kept a hmem fun i' hi' => hnot i' (List.mem_append_left _ hi')]
    refine hstep.childByte_eq hsync₁ hdist₁ (by rwa [hentry]) fun rela hrela hrel => ?_
    exact hnot i (by simp) rela ⟨r, hrange, hi, hrela, hrel⟩

/-- The relocations are applied one after the other. -/
theorem applyRelocations_spec (hsync : w.InSync) (hdist : w.Distinct)
    (htargets : plan.TargetsApart arch f)
    (hpages : ∀ v, plan.HasPage v → (w.entry v).isSome = true) :
    wp (applyRelocations arch env f loadBase plan)
      (fun _ w' => WordsWritten arch f loadBase plan w w') (fun _ _ => True) w := by
  unfold applyRelocations
  split
  · exact wp_throw.2 trivial
  · rename_i hnone
    refine wp_pure.2 ⟨fun i rela hrel => ?_, fun a _ _ => rfl⟩
    obtain ⟨r, hr, -⟩ := hrel
    simp [hnone] at hr
  · rename_i r hrange
    have hloop : wp ((List.range r.count).forM (relocate arch env f loadBase plan.delta r))
        (fun _ w' => AllRelocated arch f loadBase plan (List.range r.count) w w')
        (fun _ _ => True) w := by
      refine wp_forM (σ := World) (fun done w' => AllRelocated arch f loadBase plan done w w')
        ⟨rfl, rfl, by simp, fun _ _ _ => rfl⟩ fun done i todo w₁ hl h => ?_
      have hi : i < r.count := List.mem_range.1 (hl ▸ by simp)
      have hnew : i ∉ done := by
        have hnodup : (List.range r.count).Nodup := List.nodup_range
        rw [hl, List.nodup_append] at hnodup
        exact fun hmem => hnodup.2.2 i hmem i (by simp) rfl
      exact wp_returns relocate_spec fun _ _ hstep =>
        h.concat hsync hdist htargets hpages hrange hi hnew hstep
    refine wp_post hloop fun _ w' h => ⟨fun i rela hrel => ?_, fun a ha hnot => ?_⟩
    · obtain ⟨r', hr', hi, hrela⟩ := hrel
      obtain rfl : r' = r := by simpa [hrange] using hr'.symm
      exact h.written i (List.mem_range.2 hi) rela ⟨r', hr', hi, hrela⟩
    · exact h.kept a (hpages _ ha) fun i _ => hnot i

/-- Whether or not the targets are apart, a byte that no target has on its first page
    stays as it is. -/
theorem applyRelocations_kept (hsync : w.InSync) (hdist : w.Distinct) {a : ℕ}
    (ha : (w.entry (a - a % pageSize)).isSome = true)
    (hnot : ∀ i rela, plan.Relative arch f i rela → ¬rela.Head plan.delta a) :
    wp (applyRelocations arch env f loadBase plan) (fun _ w' => w'.childByte a = w.childByte a)
      (fun _ _ => True) w := by
  unfold applyRelocations
  split
  · exact wp_throw.2 trivial
  · exact wp_pure.2 rfl
  · rename_i r hrange
    have hloop : wp ((List.range r.count).forM (relocate arch env f loadBase plan.delta r))
        (fun _ w' => w.SameMaps w' ∧ w'.childByte a = w.childByte a) (fun _ _ => True) w := by
      refine wp_forM (σ := World) (fun _ w' => w.SameMaps w' ∧ w'.childByte a = w.childByte a)
        ⟨.refl w, rfl⟩ fun done i todo w₁ hl h => ?_
      have hi : i < r.count := List.mem_range.1 (hl ▸ by simp)
      obtain ⟨hmaps, hbyte⟩ := h
      refine wp_returns relocate_spec fun _ w₂ hstep => ⟨hmaps.trans hstep.sameMaps, ?_⟩
      rw [← hbyte]
      refine hstep.childByte_eq (hmaps.inSync hsync) (hmaps.distinct hdist) ?_
        fun rela hrela hrel => hnot i rela ⟨r, hrange, hi, hrela, hrel⟩
      rwa [hmaps.entry_eq]
    exact wp_post hloop fun _ _ h => h.2

/-! ## The words at the targets -/

/-- Of the word that the code writes, the first `k` bytes are right when the image starts
    at a multiple of `256 ^ k`. -/
theorem Elf64Rela.written_eq_moved_iff (rela : Elf64Rela) (loadBase : ℕ) {lo k : ℕ}
    (hlo : lo < 2 ^ 64) (hk : k ≤ 8) :
    (∀ j < k, wordByte ((loadBase + rela.rAddend) % 2 ^ 64) j =
      wordByte (rela.moved (wsub loadBase lo)) j) ↔ lo % 256 ^ k = 0 := by
  have hdvd : 256 ^ k ∣ 2 ^ 64 := pow_dvd_pow 256 hk
  have hsum : (loadBase + rela.rAddend) % 2 ^ 64 =
      (rela.moved (wsub loadBase lo) + lo) % 2 ^ 64 := by
    unfold Elf64Rela.moved wsub
    omega
  rw [wordByte_eq_iff, hsum, Nat.mod_mod_of_dvd _ hdvd]
  generalize rela.moved (wsub loadBase lo) = m
  constructor
  · intro h
    have hcancel : m + lo ≡ m + 0 [MOD 256 ^ k] := h
    simpa [Nat.ModEq] using Nat.ModEq.add_left_cancel' m hcancel
  · intro h
    rw [Nat.add_mod, h, Nat.add_zero, Nat.mod_mod]

theorem Laid.entry_isSome (h : Laid env f (elfItems plan.phs plan.delta) w) {v : ℕ}
    (hv : plan.HasPage v) : (w.entry v).isSome = true := by
  obtain ⟨ph, hph, hl, hv⟩ := hv
  obtain ⟨i, hi⟩ := exists_mem_loads hph hl
  exact (h.mem v).2 ⟨_, mem_elfItems.2 ⟨ph, i, v, hi, hv, rfl⟩, rfl⟩

/-- After the segment loop the child has the image of the plan. -/
theorem Refines.childByte_eq (href : Refines env f (elfItems plan.phs plan.delta) w)
    (hlaid : Laid env f (elfItems plan.phs plan.delta) w) {a : ℕ}
    (ha : plan.HasPage (a - a % pageSize)) : w.childByte a = plan.imageByte f env a := by
  rw [hlaid.inSync.childByte_eq (hlaid.entry_isSome ha), href.image_eq]
  rfl

/-- After a load the child has the bytes of the image where no relocation has its target,
    whether or not the targets are apart. -/
theorem elfLoad_kept {res : ElfLoadResult} (hw : w.Start) (hfresh : env.FreshFrames)
    (hplan : elfPlan arch f loadBase = .ok plan)
    (hload : (elfLoad arch env f loadBase).run w = .ok res w') {a : ℕ}
    (ha : plan.HasPage (a - a % pageSize))
    (hout : ∀ i rela, plan.Relative arch f i rela →
      ¬(rela.target plan.delta ≤ a ∧ a < rela.target plan.delta + 8)) :
    w'.childByte a = plan.imageByte f env a := by
  have hnot : ∀ i rela, plan.Relative arch f i rela → ¬rela.Head plan.delta a := by
    intro i rela hrel hhead
    have hlen := rela.headLen_le plan.delta
    have hhi := hhead.2
    exact hout i rela hrel ⟨hhead.1, by omega⟩
  have hend : wp (elfLoad arch env f loadBase)
      (fun _ w' => w'.childByte a = plan.imageByte f env a) (fun _ _ => True) w := by
    rw [elfLoad, wp_bind, wp_elfLoadSegments, hplan]
    refine wp_returns (wp_and (placePages_laid hw.reset) (placePages_refines hw.reset hfresh
      (elfItems_inOrder plan.phs plan.delta).sites_nodup)) fun _ w₁ h => ?_
    obtain ⟨hlaid, href⟩ := h
    rw [← href.childByte_eq hlaid ha]
    simp only [wp_bind, wp_ite, wp_pure]
    exact ⟨fun _ => applyRelocations_kept hlaid.inSync href.distinct (hlaid.entry_isSome ha) hnot,
      fun _ => trivial⟩
  exact wp_ok (Q := fun _ w' => w'.childByte a = plan.imageByte f env a) hend hload

section

variable {res : ElfLoadResult} {w₂ : World} (hw : w.Start) (hfresh : env.FreshFrames)
  (hsegs : (elfLoadSegments arch env f loadBase).run w = .ok plan w₁)
  (hload : (elfLoad arch env f loadBase).run w = .ok res w₂) (hdyn : plan.ehdr.eType = etDyn)
  (htargets : plan.TargetsApart arch f)

include hw hfresh hsegs hload hdyn htargets

/-- The child after a load: on the first page of a target there is the word of the code,
    and everywhere else what the segment loop left. -/
theorem elfLoad_childByte :
    (∀ i rela, plan.Relative arch f i rela → ∀ j < 8,
      w₂.childByte (rela.target plan.delta + j) =
        if j < rela.headLen plan.delta then
          some (wordByte ((loadBase + rela.rAddend) % 2 ^ 64) j)
        else plan.imageByte f env (rela.target plan.delta + j)) ∧
    ∀ a, plan.HasPage (a - a % pageSize) →
      (∀ i rela, plan.Relative arch f i rela →
        ¬(rela.target plan.delta ≤ a ∧ a < rela.target plan.delta + 8)) →
      w₂.childByte a = w₁.childByte a := by
  obtain ⟨-, hlaid⟩ := elfLoadSegments_laid hw hsegs
  have href := elfLoadSegments_refines hw hfresh hsegs
  have hend : wp (elfLoad arch env f loadBase)
      (fun _ w₂ => WordsWritten arch f loadBase plan w₁ w₂) (fun _ _ => True) w := by
    rw [elfLoad, wp_bind, wp_iff_of_ok hsegs]
    simp only [wp_bind, wp_ite, wp_pure]
    refine ⟨fun _ => ?_, fun h => absurd hdyn h⟩
    exact applyRelocations_spec hlaid.inSync href.distinct htargets fun v hv =>
      hlaid.entry_isSome hv
  obtain ⟨hwritten, hkept⟩ := wp_ok hend hload
  refine ⟨fun i rela hrel j hj => ?_, fun a ha hout => hkept a ha fun i rela hrel hhead => ?_⟩
  · split_ifs with hlt
    · have hbyte := hwritten i rela hrel (rela.target plan.delta + j) ⟨by omega, by omega⟩
      rwa [Nat.add_sub_cancel_left] at hbyte
    · -- The rest of the target is on a page where no other relocation writes to it.
      have hpage := htargets.hasPage hrel (Nat.le_add_right _ j) (by omega)
      rw [hkept _ hpage, href.childByte_eq hlaid hpage]
      intro i' rela' hrel'
      rcases eq_or_ne i i' with rfl | hi
      · obtain rfl := hrel.eq hrel'
        exact fun hhead => hlt (by have := hhead.2; omega)
      · exact htargets.not_head hrel hrel' hi (by omega) (by omega)
  · have hlen := rela.headLen_le plan.delta
    have hhi := hhead.2
    exact hout i rela hrel ⟨hhead.1, by omega⟩

/-- For every position-independent image that is loaded and whose targets are apart: every
    target gets its word, and every other byte stays as the segment loop left it, if and
    only if for every target

    * the image starts at a multiple of `256 ^ k`, for the `k` bytes of the target that are
      on its first page, which means at zero when the target does not cross a page, and
    * the file has the right bytes already for the part that is on the next page. -/
theorem elfLoad_relocations :
    plan.delta = wsub loadBase (minVaddr plan.phs) ∧
    (((∀ i rela, plan.Relative arch f i rela → ∀ j < 8,
        w₂.childByte (rela.target plan.delta + j) = some (wordByte (rela.moved plan.delta) j)) ∧
      ∀ a, plan.HasPage (a - a % pageSize) →
        (∀ i rela, plan.Relative arch f i rela →
          ¬(rela.target plan.delta ≤ a ∧ a < rela.target plan.delta + 8)) →
        w₂.childByte a = w₁.childByte a) ↔
    ∀ i rela, plan.Relative arch f i rela →
      minVaddr plan.phs % 256 ^ rela.headLen plan.delta = 0 ∧
      ∀ j, rela.headLen plan.delta ≤ j → j < 8 →
        plan.imageByte f env (rela.target plan.delta + j) =
          some (wordByte (rela.moved plan.delta) j)) := by
  obtain ⟨hplan, -⟩ := elfLoadSegments_laid hw hsegs
  have hdelta : plan.delta = wsub loadBase (minVaddr plan.phs) := by
    rw [(elfPlan_ok hplan).2.2.2.1, if_pos hdyn]
  obtain ⟨hbytes, hkept⟩ := elfLoad_childByte hw hfresh hsegs hload hdyn htargets
  have hhead : ∀ rela : Elf64Rela,
      (∀ j < rela.headLen plan.delta, wordByte ((loadBase + rela.rAddend) % 2 ^ 64) j =
        wordByte (rela.moved plan.delta) j) ↔
      minVaddr plan.phs % 256 ^ rela.headLen plan.delta = 0 := by
    intro rela
    have h := rela.written_eq_moved_iff loadBase (minVaddr_lt plan.phs)
      (rela.headLen_le plan.delta)
    rwa [← hdelta] at h
  refine ⟨hdelta, ⟨fun h i rela hrel => ⟨(hhead rela).1 fun j hj => ?_, fun j hlo hj => ?_⟩,
    fun h => ⟨fun i rela hrel j hj => ?_, hkept⟩⟩⟩
  · have hlen := rela.headLen_le plan.delta
    have hbyte := h.1 i rela hrel j (by omega)
    rw [hbytes i rela hrel j (by omega), if_pos hj] at hbyte
    exact Option.some.inj hbyte
  · rw [← h.1 i rela hrel j hj, hbytes i rela hrel j hj, if_neg (by omega)]
  · rw [hbytes i rela hrel j hj]
    split_ifs with hlt
    · rw [(hhead rela).2 (h i rela hrel).1 j hlt]
    · exact (h i rela hrel).2 j (by omega) hj

end

/-- The targets of an image with one relocation are apart. -/
theorem ElfPlan.targetsApart_of_one {rela : Elf64Rela}
    (hrange : relaRange f plan.phs = .ok (some r)) (hcount : r.count = 1)
    (hrela : f.elf64Rela (r.entryOff 0) = some rela)
    (hpages : ∀ j < 8,
      plan.HasPage (rela.target plan.delta + j - (rela.target plan.delta + j) % pageSize)) :
    plan.TargetsApart arch f := by
  have hone : ∀ i rela', plan.Relative arch f i rela' → i = 0 ∧ rela' = rela := by
    rintro i rela' ⟨r', hr', hi, hrela', -⟩
    obtain rfl : r' = r := by simpa [hrange] using hr'.symm
    obtain rfl : i = 0 := by omega
    exact ⟨rfl, Option.some.inj (hrela'.symm.trans hrela)⟩
  refine ⟨fun i rela' hrel => ?_, fun i i' rela₁ rela₂ h₁ h₂ hne => ?_⟩
  · rw [(hone i rela' hrel).2]
    exact hpages
  · exact absurd ((hone i rela₁ h₁).1.trans (hone i' rela₂ h₂).1.symm) hne

end

/-! ## An image with one relocation -/

/-- A position-independent file with one segment at `vaddr`. Its last word is a pointer to
    the offset 64 of the image. -/
def relaImage (vaddr : ℕ) : File where
  bytes := ehdrBytes etDyn 2 ++ phdrBytes ptLoad 6 0 vaddr 272 272 ++
    phdrBytes ptDynamic 6 176 (vaddr + 176) 64 64 ++
    wordBytes 8 dtRela ++ wordBytes 8 (vaddr + 240) ++ wordBytes 8 dtRelasz ++ wordBytes 8 24 ++
    wordBytes 8 dtRelaent ++ wordBytes 8 24 ++ wordBytes 8 dtNull ++ wordBytes 8 0 ++
    wordBytes 8 (vaddr + 264) ++ wordBytes 8 8 ++ wordBytes 8 (vaddr + 64) ++ wordBytes 8 0
  length_lt := by simp [ehdrBytes, phdrBytes, wordBytes]

/-- The plan for the image at zero. -/
def relaImagePlan : ElfPlan :=
  resultOf (elfPlan .x86_64 (relaImage 0) 0x400000) (by decide +kernel)

/-- The plan for the image at the second page. -/
def shiftedPlan : ElfPlan :=
  resultOf (elfPlan .x86_64 (relaImage 0x1000) 0x400000) (by decide +kernel)

/-- The image has its relocation at the offset 240. -/
theorem relaImage_range : relaRange (relaImage 0) relaImagePlan.phs = .ok (some ⟨240, 1, 24⟩) ∧
    relaRange (relaImage 0x1000) shiftedPlan.phs = .ok (some ⟨240, 1, 24⟩) := by
  decide +kernel

theorem elfLoad_relocations_relaImage :
    ∃ w₁ res w₂,
      (elfLoadSegments .x86_64 Env.quiet (relaImage 0) 0x400000).run World.initial =
        .ok relaImagePlan w₁ ∧
      (elfLoad .x86_64 Env.quiet (relaImage 0) 0x400000).run World.initial = .ok res w₂ ∧
      ∀ i rela, relaImagePlan.Relative .x86_64 (relaImage 0) i rela → ∀ j < 8,
        w₂.childByte (rela.target relaImagePlan.delta + j) =
          some (wordByte (rela.moved relaImagePlan.delta) j) := by
  have hplan : elfPlan .x86_64 (relaImage 0) 0x400000 = .ok relaImagePlan := eq_ok_resultOf _
  have hwp : wp (elfLoadSegments .x86_64 Env.quiet (relaImage 0) 0x400000) (fun _ _ => True)
      (fun _ _ => False) World.initial := by decide +kernel
  have hwp' : wp (elfLoad .x86_64 Env.quiet (relaImage 0) 0x400000) (fun _ _ => True)
      (fun _ _ => False) World.initial := by decide +kernel
  obtain ⟨plan, w₁, hsegs, -⟩ := wp_exists_ok hwp
  obtain ⟨res, w₂, hload, -⟩ := wp_exists_ok hwp'
  have heq : plan = relaImagePlan := Except.ok.inj
    ((elfLoadSegments_laid World.initial_start hsegs).1.symm.trans hplan)
  rw [heq] at hsegs
  have hsome : ((relaImage 0).elf64Rela 240).isSome = true := by decide +kernel
  obtain ⟨rela, hrela⟩ := Option.isSome_iff_exists.1 hsome
  have htarget : ((relaImage 0).elf64Rela 240).map (fun rela => rela.target relaImagePlan.delta) =
      some 0x400108 := by decide +kernel
  rw [hrela, Option.map_some, Option.some.injEq] at htarget
  have htargets : relaImagePlan.TargetsApart .x86_64 (relaImage 0) := by
    refine ElfPlan.targetsApart_of_one relaImage_range.1 rfl hrela ?_
    rw [htarget]
    decide +kernel
  have hmin : minVaddr relaImagePlan.phs = 0 := by decide +kernel
  refine ⟨w₁, res, w₂, hsegs, hload, ?_⟩
  refine ((elfLoad_relocations World.initial_start Env.quiet_freshFrames hsegs hload
    (by decide +kernel) htargets).2.2 fun i rela' hrel => ⟨by rw [hmin, Nat.zero_mod], ?_⟩).1
  obtain ⟨r, hr, hi, hrela', -⟩ := hrel
  obtain rfl : r = ⟨240, 1, 24⟩ := by simpa [relaImage_range.1] using hr.symm
  obtain rfl : i = 0 := Nat.lt_one_iff.1 hi
  obtain rfl := Option.some.inj (hrela'.symm.trans hrela)
  intro j hj hj'
  simp only [Elf64Rela.headLen, htarget, pageSize] at hj
  omega

/-- The image at the second page is loaded, but its pointer is a page too high. -/
theorem elfLoad_relocations_shifted :
    ∃ w₁ res w₂ rela,
      (elfLoadSegments .x86_64 Env.quiet (relaImage 0x1000) 0x400000).run World.initial =
        .ok shiftedPlan w₁ ∧
      (elfLoad .x86_64 Env.quiet (relaImage 0x1000) 0x400000).run World.initial = .ok res w₂ ∧
      shiftedPlan.ehdr.eType = etDyn ∧ shiftedPlan.TargetsApart .x86_64 (relaImage 0x1000) ∧
      shiftedPlan.Relative .x86_64 (relaImage 0x1000) 0 rela ∧
      rela.moved shiftedPlan.delta = 0x400040 ∧
      w₂.childByte (rela.target shiftedPlan.delta + 1) = some (wordByte 0x401040 1) ∧
      w₂.childByte (rela.target shiftedPlan.delta + 1) ≠
        some (wordByte (rela.moved shiftedPlan.delta) 1) := by
  have hplan : elfPlan .x86_64 (relaImage 0x1000) 0x400000 = .ok shiftedPlan := eq_ok_resultOf _
  have hwp : wp (elfLoadSegments .x86_64 Env.quiet (relaImage 0x1000) 0x400000) (fun _ _ => True)
      (fun _ _ => False) World.initial := by decide +kernel
  have hwp' : wp (elfLoad .x86_64 Env.quiet (relaImage 0x1000) 0x400000)
      (fun _ w₂ => w₂.childByte 0x400109 = some (wordByte 0x401040 1)) (fun _ _ => False)
      World.initial := by decide +kernel
  obtain ⟨plan, w₁, hsegs, -⟩ := wp_exists_ok hwp
  obtain ⟨res, w₂, hload, hbyte⟩ := wp_exists_ok hwp'
  have heq : plan = shiftedPlan := Except.ok.inj
    ((elfLoadSegments_laid World.initial_start hsegs).1.symm.trans hplan)
  rw [heq] at hsegs
  have hsome : ((relaImage 0x1000).elf64Rela 240).isSome = true := by decide +kernel
  obtain ⟨rela, hrela⟩ := Option.isSome_iff_exists.1 hsome
  have hfields : ((relaImage 0x1000).elf64Rela 240).map (fun rela =>
      (rela.target shiftedPlan.delta, rela.moved shiftedPlan.delta, rela.isRelative .x86_64)) =
        some (0x400108, 0x400040, true) := by decide +kernel
  rw [hrela, Option.map_some, Option.some.injEq, Prod.mk.injEq, Prod.mk.injEq] at hfields
  obtain ⟨htarget, hmoved, hrel⟩ := hfields
  refine ⟨w₁, res, w₂, rela, hsegs, hload, by decide +kernel, ?_,
    ⟨_, relaImage_range.2, by decide, hrela, hrel⟩, hmoved, ?_, ?_⟩
  · refine ElfPlan.targetsApart_of_one relaImage_range.2 rfl hrela ?_
    rw [htarget]
    decide +kernel
  · rw [htarget]
    exact hbyte
  · rw [htarget, hmoved]
    exact fun h => absurd (hbyte.symm.trans h) (by decide +kernel)

end Trona
