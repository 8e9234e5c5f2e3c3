import Mathlib.Data.List.Pairwise
import Trona.Loader.Pe

/-!
# The relocations of the PE loader

`pe_relocate` should add the load bias to every 64-bit word that the relocation directory
names. The words are written through the frame of one page: of a word that crosses the end
of its page, the part on the next page stays as it is.

* The relocations of a file follow from the file alone (`peRelocSites`), and the loader goes
  through them in their order (`peRelocate_of_sites`).
* `peRelocate_spec` says what the child has afterwards: the sums on the first page of every
  target, and everywhere else what it had.
* `peLoad_relocations_iff` compares this with the words that should be there.
-/

namespace Trona

/-! ## The relocations of a file -/

/-- Where a relocation is in the file, and the address that its block is for. -/
structure RelocSite where
  off : ℕ
  blockRva : ℕ
  deriving DecidableEq

/-- The relocations of a block at the offset `pos`, as many as its size says. -/
def BaseRelocation.sites (block : BaseRelocation) (pos : ℕ) : List RelocSite :=
  (List.range ((block.sizeOfBlock - 8) / 2)).map fun i =>
    ⟨pos + 8 + 2 * i, block.virtualAddress⟩

/-- The blocks from `pos` on, with their offsets, up to the first one that ends the walk. -/
def relocBlocks (f : File) (relocEnd : ℕ) : (fuel pos : ℕ) → List (ℕ × BaseRelocation)
  | 0, _ => []
  | fuel + 1, pos =>
    if pos + 8 ≤ relocEnd then
      match f.baseRelocation pos with
      | none => []
      | some block =>
        if block.sizeOfBlock < 8 then []
        else (pos, block) :: relocBlocks f relocEnd fuel (alignUp 4 (pos + block.sizeOfBlock))
    else []

/-- The relocations of these blocks. -/
def relocSites (f : File) (relocEnd fuel pos : ℕ) : List RelocSite :=
  (relocBlocks f relocEnd fuel pos).flatMap fun b => b.2.sites b.1

/-- Where the relocation directory is in the file, if there is one. -/
def relocDirectory (f : File) (info : PeInfo) : Option (ℕ × ℕ) :=
  let dir := readDataDir f info imageDirectoryEntryBasereloc
  if dir.virtualAddress = 0 ∨ dir.size = 0 then none
  else
    match rvaToFileOffset f info dir.virtualAddress with
    | none => none
    | some off => if off + dir.size > f.size then none else some (off, off + dir.size)

/-- The relocations of a file. -/
def peRelocSites (f : File) (info : PeInfo) : List RelocSite :=
  match relocDirectory f info with
  | none => []
  | some (start, fin) => relocSites f fin (f.size + 1) start

namespace RelocSite

variable (s : RelocSite) (f : File) (loadBase : ℕ)

/-- The type and the offset in the page. -/
def entry : ℕ := f.le s.off 2

def isDir64 : Bool := s.entry f / 2 ^ 12 = imageRelBasedDir64

def targetRva : ℕ := s.blockRva + s.entry f % 2 ^ 12

/-- The address that is relocated. -/
def target : ℕ := (loadBase + s.targetRva f) % 2 ^ 64

/-- How many bytes of the target are on its first page. -/
def headLen : ℕ := min 8 (pageSize - s.target f loadBase % pageSize)

/-- The address is one of the target's first page. -/
def Head (a : ℕ) : Prop :=
  s.target f loadBase ≤ a ∧ a < s.target f loadBase + s.headLen f loadBase

theorem headLen_le : s.headLen f loadBase ≤ 8 := Nat.min_le_left _ _

theorem headLen_fits : s.target f loadBase % pageSize + s.headLen f loadBase ≤ pageSize := by
  have := Nat.mod_lt (s.target f loadBase) (show 0 < pageSize by decide)
  unfold headLen
  omega

end RelocSite

/-- The word of the child at an address. -/
def World.childWord (w : World) (a : ℕ) : ℕ :=
  leNat ((List.range 8).map fun j => (w.childByte (a + j)).getD 0)

/-! ## The walk -/

section

variable {env : Env} {f : File} {info : PeInfo} {loadBase delta relocEnd fuel pos : ℕ}
  {s : RelocSite} {w w' : World}

/-- A walk does what its relocations do, one after the other, unless it stops with an
    error. -/
theorem relocateBlocks_of_sites {Q : PUnit → World → Prop}
    (h : wp ((relocSites f relocEnd fuel pos).forM fun s =>
      relocateEntry env f loadBase delta s.blockRva s.off) Q (fun _ _ => True) w) :
    wp (relocateBlocks env f loadBase delta relocEnd fuel pos) Q (fun _ _ => True) w := by
  induction fuel generalizing pos w with
  | zero => exact h
  | succ fuel ih =>
    rw [relocSites, relocBlocks] at h
    rw [relocateBlocks]
    split at h
    · rename_i hpos
      rw [if_pos hpos]
      cases hblock : f.baseRelocation pos with
      | none => exact wp_throw.2 trivial
      | some block =>
        simp only [hblock] at h ⊢
        by_cases hsmall : block.sizeOfBlock < 8
        · rw [if_pos hsmall] at h
          simp only [wp_ite, hsmall]
          exact ⟨fun _ => h, fun _ => ⟨fun _ => wp_throw.2 trivial, fun h => absurd trivial h⟩⟩
        · rw [if_neg hsmall, List.flatMap_cons, wp_forM_append, BaseRelocation.sites,
            wp_forM_map] at h
          rw [if_neg (by omega), if_neg hsmall, wp_bind]
          exact wp_post h fun _ _ hrest => ih hrest
    · rename_i hpos
      rw [if_neg hpos]
      exact h

/-- The relocation pass does what the relocations of the file do, unless it stops with an
    error. -/
theorem peRelocate_of_sites {Q : PUnit → World → Prop}
    (h : wp ((peRelocSites f info).forM fun s =>
      relocateEntry env f loadBase delta s.blockRva s.off) Q (fun _ _ => True) w) :
    wp (peRelocate env f info delta loadBase) Q (fun _ _ => True) w := by
  rw [peRelocSites, relocDirectory] at h
  rw [peRelocate]
  by_cases hdir : (readDataDir f info imageDirectoryEntryBasereloc).virtualAddress = 0 ∨
      (readDataDir f info imageDirectoryEntryBasereloc).size = 0
  · simp only [hdir] at h ⊢
    exact h
  · simp only [hdir] at h ⊢
    cases hoff : rvaToFileOffset f info
        (readDataDir f info imageDirectoryEntryBasereloc).virtualAddress with
    | none => exact wp_throw.2 trivial
    | some off =>
      simp only [hoff] at h ⊢
      by_cases hend : off + (readDataDir f info imageDirectoryEntryBasereloc).size > f.size
      · simp only [hend]
        exact wp_throw.2 trivial
      · simp only [hend] at h ⊢
        exact relocateBlocks_of_sites h

/-! ## One relocation -/

/-- The first bytes of a word. -/
theorem childWord_mod {k a : ℕ} (hk : k ≤ 8) : w.childWord a % 256 ^ k =
    leNat ((List.range k).map fun j => (w.childByte (a + j)).getD 0) := by
  rw [World.childWord, leNat_mod, ← List.map_take, List.take_range, Nat.min_eq_left hk]

theorem childWord_head_congr {k a : ℕ} (hk : k ≤ 8)
    (h : ∀ j < k, w'.childByte (a + j) = w.childByte (a + j)) :
    w'.childWord a % 256 ^ k = w.childWord a % 256 ^ k := by
  rw [childWord_mod hk, childWord_mod hk]
  congr 1
  exact List.map_congr_left fun j hj => by rw [h j (List.mem_range.1 hj)]

/-- The bytes of the child at an address are those of its word. -/
theorem childByte_eq_wordByte {a j : ℕ} (hj : j < 8) (h : (w.childByte (a + j)).isSome = true) :
    w.childByte (a + j) = some (wordByte (w.childWord a) j) := by
  obtain ⟨b, hb⟩ := Option.isSome_iff_exists.1 h
  rw [World.childWord, wordByte_leNat (by simpa using hj), List.getElem_map, List.getElem_range, hb,
    Option.getD_some]

/-- `w'` is `w` after a relocation: the sum is on the first page of the target, which is in
    the table, and nothing else has changed. -/
structure PeRelocated (f : File) (loadBase delta : ℕ) (s : RelocSite) (w w' : World) : Prop where
  sameMaps : w.SameMaps w'
  placed : s.isDir64 f = true →
    (w.entry (s.target f loadBase - s.target f loadBase % pageSize)).isSome = true
  written : s.isDir64 f = true → ∀ a, s.Head f loadBase a → w'.childByte a =
    some (wordByte (w.childWord (s.target f loadBase) + delta) (a - s.target f loadBase))
  kept : ∀ a, (w.entry (a - a % pageSize)).isSome = true →
    (s.isDir64 f = true → ¬s.Head f loadBase a) → w'.childByte a = w.childByte a

/-- The sum that is written to the frame of the target's page. -/
theorem headSum_eq (hsync : w.InSync) {p : PageEntry}
    (hp : w.entry (s.target f loadBase - s.target f loadBase % pageSize) = some p) {j : ℕ}
    (hj : j < s.headLen f loadBase) :
    wordByte (leNat ((List.range (s.headLen f loadBase)).map fun k =>
      w.frames p.frameCap (s.target f loadBase % pageSize + k)) + delta) j =
    wordByte (w.childWord (s.target f loadBase) + delta) j := by
  have hfits := s.headLen_fits f loadBase
  have hbyte : ∀ k < s.headLen f loadBase, w.frames p.frameCap
      (s.target f loadBase % pageSize + k) =
        (w.childByte (s.target f loadBase + k)).getD 0 := by
    intro k hk
    have hpage : s.target f loadBase + k - (s.target f loadBase + k) % pageSize =
        s.target f loadBase - s.target f loadBase % pageSize := by
      simp only [pageSize] at hfits ⊢
      omega
    have hoff : (s.target f loadBase + k) % pageSize = s.target f loadBase % pageSize + k := by
      simp only [pageSize] at hfits ⊢
      omega
    rw [World.childByte, hpage, hoff, hsync _ _ hp, Option.map_some, Option.getD_some]
  have hhead : leNat ((List.range (s.headLen f loadBase)).map fun k =>
      w.frames p.frameCap (s.target f loadBase % pageSize + k)) =
        w.childWord (s.target f loadBase) % 256 ^ s.headLen f loadBase := by
    rw [childWord_mod (s.headLen_le f loadBase)]
    congr 1
    exact List.map_congr_left fun k hk => hbyte k (List.mem_range.1 hk)
  rw [hhead]
  refine (wordByte_eq_iff _ _ (s.headLen f loadBase)).2 ?_ j hj
  rw [Nat.mod_add_mod]

/-- A relocation is applied, if the loader does not stop at it. -/
theorem relocateEntry_spec (hsync : w.InSync) (hdist : w.Distinct) :
    wp (relocateEntry env f loadBase delta s.blockRva s.off)
      (fun _ w' => PeRelocated f loadBase delta s w w') (fun _ _ => True) w := by
  have htarget : (loadBase + (s.blockRva + f.le s.off 2 % 2 ^ 12)) % 2 ^ 64 =
      s.target f loadBase := rfl
  have hpage : pageAlignDown (s.target f loadBase) =
      s.target f loadBase - s.target f loadBase % pageSize :=
    pageAlignDown_eq (Nat.mod_lt _ (by decide))
  have hoff : s.target f loadBase - (s.target f loadBase - s.target f loadBase % pageSize) =
      s.target f loadBase % pageSize := Nat.sub_sub_self (Nat.mod_le _ _)
  have hlen : min 8 (pageSize - s.target f loadBase % pageSize) = s.headLen f loadBase := rfl
  simp only [relocateEntry, applyRelocation, htarget, hpage, wp_bind, wp_ite, wp_throw, wp_pure,
    wp_get]
  refine ⟨fun _ => trivial, fun _ => ⟨fun hdir => ?_, fun hdir => ?_⟩⟩
  · split
    · exact wp_throw.2 trivial
    · rename_i p hp
      simp only [writeU64ToPage, updateWord, hoff, hlen, wp_bind, wp_ite, wp_pure, wp_throw,
        wp_modify]
      refine ⟨fun hmap => ⟨fun _ => trivial, fun h => absurd hmap h⟩,
        fun _ => ⟨fun _ => ⟨fun h => absurd rfl h, fun _ => ?_⟩, fun _ => trivial⟩⟩
      have hbyte := fun b a ha => hsync.writeFrame_childByte hdist hp (s.headLen_fits f loadBase) b
        (a := a) ha
      refine ⟨⟨rfl, rfl, rfl⟩, fun _ => Option.isSome_of_eq_some hp, fun _ a hhead => ?_,
        fun a ha hnot => ?_⟩
      · -- The target's page is in the table.
        have ha : (w.entry (a - a % pageSize)).isSome = true := by
          have hfits := s.headLen_fits f loadBase
          have hsame : a - a % pageSize =
              s.target f loadBase - s.target f loadBase % pageSize := by
            obtain ⟨hlo, hhi⟩ := hhead
            simp only [pageSize] at hfits ⊢
            omega
          rw [hsame, hp]
          rfl
        obtain ⟨hlo, hhi⟩ := hhead
        rw [hbyte _ a ha, if_pos ⟨hlo, hhi⟩]
        exact congrArg some (headSum_eq hsync hp (by omega))
      · rw [hbyte _ a ha]
        exact if_neg (hnot (decide_eq_true hdir))
  · refine ⟨.refl w, fun h => ?_, fun h => ?_, fun _ _ _ => rfl⟩
    · exact absurd (of_decide_eq_true h) hdir
    · exact absurd (of_decide_eq_true h) hdir

end

/-! ## All relocations -/

/-- A page is loaded for the image. -/
def PeHasPage (f : File) (info : PeInfo) (loadBase v : ℕ) : Prop :=
  ∃ it ∈ peItems f info loadBase, it.page = v

instance (f : File) (info : PeInfo) (loadBase v : ℕ) : Decidable (PeHasPage f info loadBase v) :=
  inferInstanceAs (Decidable (∃ it ∈ peItems f info loadBase, _))

/-- The targets of two relocations do not overlap. -/
def RelocSite.Apart (f : File) (loadBase : ℕ) (s s' : RelocSite) : Prop :=
  s.isDir64 f = true → s'.isDir64 f = true →
    s.target f loadBase + 8 ≤ s'.target f loadBase ∨ s'.target f loadBase + 8 ≤ s.target f loadBase

instance (f : File) (loadBase : ℕ) (s s' : RelocSite) : Decidable (s.Apart f loadBase s') :=
  inferInstanceAs (Decidable (_ → _ → _))

/-- The 64-bit relocations have their targets on loaded pages, and no two targets overlap. -/
structure PeTargetsApart (f : File) (info : PeInfo) (loadBase : ℕ) : Prop where
  loaded : ∀ s ∈ peRelocSites f info, s.isDir64 f = true → ∀ j < 8, PeHasPage f info loadBase
    (s.target f loadBase + j - (s.target f loadBase + j) % pageSize)
  apart : (peRelocSites f info).Pairwise (RelocSite.Apart f loadBase)

/-- `w'` is `w` with the relocations in `done` applied. -/
structure PeAllRelocated (f : File) (loadBase delta : ℕ) (done : List RelocSite) (w w' : World) :
    Prop where
  sameMaps : w.SameMaps w'
  written : ∀ s ∈ done, s.isDir64 f = true → ∀ a, s.Head f loadBase a → w'.childByte a =
    some (wordByte (w.childWord (s.target f loadBase) + delta) (a - s.target f loadBase))
  kept : ∀ a, (w.entry (a - a % pageSize)).isSome = true →
    (∀ s ∈ done, s.isDir64 f = true → ¬s.Head f loadBase a) → w'.childByte a = w.childByte a

section

variable {arch : Arch} {env : Env} {f : File} {info : PeInfo} {loadBase delta : ℕ}
  {done : List RelocSite} {s s' : RelocSite} {a : ℕ} {w w₁ w₂ : World}

theorem RelocSite.Head.lt (h : s.Head f loadBase a) : a < s.target f loadBase + 8 := by
  have hlen := s.headLen_le f loadBase
  have hhi := h.2
  omega

/-- An address of one target is not one of another. -/
theorem RelocSite.Apart.not_head (h : s.Apart f loadBase s') (hs : s.isDir64 f = true)
    (hs' : s'.isDir64 f = true) (hlo : s'.target f loadBase ≤ a)
    (hhi : a < s'.target f loadBase + 8) : ¬s.Head f loadBase a := by
  intro hhead
  have hlt := hhead.lt
  have hge := hhead.1
  rcases h hs hs' with hle | hle
  · omega
  · omega

theorem RelocSite.Apart.symm (h : s.Apart f loadBase s') : s'.Apart f loadBase s :=
  fun hs' hs => (h hs hs').symm

theorem PeTargetsApart.hasPage (h : PeTargetsApart f info loadBase) (hs : s ∈ peRelocSites f info)
    (hdir : s.isDir64 f = true) (hlo : s.target f loadBase ≤ a)
    (hhi : a < s.target f loadBase + 8) : PeHasPage f info loadBase (a - a % pageSize) := by
  have hpage := h.loaded s hs hdir (a - s.target f loadBase) (by omega)
  rwa [Nat.add_sub_cancel' hlo] at hpage

/-- One more relocation is applied. -/
theorem PeAllRelocated.concat (h : PeAllRelocated f loadBase delta done w w₁)
    (hpages : ∀ s' ∈ done ++ [s], s'.isDir64 f = true → ∀ a, s'.Head f loadBase a →
      (w.entry (a - a % pageSize)).isSome = true)
    (hapart : ∀ s' ∈ done, s'.Apart f loadBase s)
    (hstep : PeRelocated f loadBase delta s w₁ w₂) :
    PeAllRelocated f loadBase delta (done ++ [s]) w w₂ := by
  have hentry : ∀ v, w₁.entry v = w.entry v := h.sameMaps.entry_eq
  refine ⟨h.sameMaps.trans hstep.sameMaps, fun s' hs' hdir' a ha => ?_, fun a ha hnot => ?_⟩
  · rcases List.mem_append.1 hs' with hdone | hlast
    · -- An earlier relocation keeps its sum, because the targets are apart.
      rw [← h.written s' hdone hdir' a ha]
      refine hstep.kept a ?_ fun hdir => (hapart s' hdone).symm.not_head hdir hdir' ha.1 ha.lt
      rw [hentry]
      exact hpages s' hs' hdir' a ha
    · obtain rfl := List.mem_singleton.1 hlast
      -- The first page of the target has not been changed before.
      have hsame : ∀ j < s'.headLen f loadBase,
          w₁.childByte (s'.target f loadBase + j) = w.childByte (s'.target f loadBase + j) := by
        intro j hj
        have hhead : s'.Head f loadBase (s'.target f loadBase + j) := ⟨by omega, by omega⟩
        exact h.kept _ (hpages s' hs' hdir' _ hhead) fun s'' hs'' hdir'' =>
          (hapart s'' hs'').not_head hdir'' hdir' hhead.1 hhead.lt
      have hword := childWord_head_congr (s'.headLen_le f loadBase) hsame
      rw [hstep.written hdir' a ha]
      refine congrArg some ((wordByte_eq_iff _ _ (s'.headLen f loadBase)).2 ?_ _ ?_)
      · rw [← Nat.mod_add_mod, hword, Nat.mod_add_mod]
      · have := ha.1
        have := ha.2
        omega
  · rw [← h.kept a ha fun s' hs' => hnot s' (List.mem_append_left _ hs')]
    refine hstep.kept a ?_ (hnot s (by simp))
    rwa [hentry]

theorem Laid.peEntry_isSome (h : Laid env f (peItems f info loadBase) w) {v : ℕ}
    (hv : PeHasPage f info loadBase v) : (w.entry v).isSome = true := (h.mem v).2 hv

/-- The relocations are applied one after the other. -/
theorem peRelocate_spec (hlaid : Laid env f (peItems f info loadBase) w) (hdist : w.Distinct)
    (htargets : PeTargetsApart f info loadBase) :
    wp (peRelocate env f info delta loadBase)
      (fun _ w' => PeAllRelocated f loadBase delta (peRelocSites f info) w w')
      (fun _ _ => True) w := by
  refine peRelocate_of_sites ?_
  refine wp_forM (fun done w' => PeAllRelocated f loadBase delta done w w')
    ⟨.refl w, by simp, fun _ _ _ => rfl⟩ fun done s todo w₁ hl h => ?_
  have hsites := htargets.apart
  rw [hl, List.pairwise_append] at hsites
  have hpages : ∀ s' ∈ done ++ [s], s'.isDir64 f = true → ∀ a, s'.Head f loadBase a →
      (w.entry (a - a % pageSize)).isSome = true := by
    intro s' hs' hdir a ha
    have hmem : s' ∈ peRelocSites f info := by
      rw [hl]
      rcases List.mem_append.1 hs' with hs' | hs'
      · exact List.mem_append_left _ hs'
      · exact List.mem_append_right _ (by simp_all)
    exact hlaid.peEntry_isSome (htargets.hasPage hmem hdir ha.1 ha.lt)
  exact wp_post (relocateEntry_spec (h.sameMaps.inSync hlaid.inSync) (h.sameMaps.distinct hdist))
    fun _ _ hstep => h.concat hpages (fun s' hs' => hsites.2.2 s' hs' s (by simp)) hstep

/-- What the loops over headers and sections have done when they end. -/
theorem peLoadSections_laid (hw : w.Start) (hfresh : env.FreshFrames)
    (hsecs : (peLoadSections arch env f loadBase).run w = .ok info w₁) :
    pePlan arch f = .ok info ∧ Laid env f (peItems f info loadBase) w₁ ∧ w₁.Distinct := by
  have hend : wp (peLoadSections arch env f loadBase) (fun info w' => pePlan arch f = .ok info ∧
      Laid env f (peItems f info loadBase) w' ∧ w'.Distinct) (fun _ _ => True) w := by
    rw [wp_peLoadSections]
    split
    · trivial
    · rename_i hplan
      exact wp_returns (wp_and (placePages_laid hw.reset) (placePages_refines hw.reset hfresh
        (peItems_inOrder _ _ _).sites_nodup)) fun _ _ h => ⟨hplan, h.1, h.2.distinct⟩
  exact wp_ok (Q := fun info w' => pePlan arch f = .ok info ∧
    Laid env f (peItems f info loadBase) w' ∧ w'.Distinct) hend hsecs

section

variable {res : PeLoadResult} (hw : w.Start) (hfresh : env.FreshFrames)
  (hsecs : (peLoadSections arch env f loadBase).run w = .ok info w₁)
  (hload : (peLoad arch env f loadBase).run w = .ok res w₂)
  (htargets : PeTargetsApart f info loadBase)

include hw hfresh hsecs hload htargets

/-- The child after a load: on the first page of a target there is the sum, and everywhere
    else what the loops over headers and sections left. -/
theorem peLoad_childByte :
    (∀ s ∈ peRelocSites f info, s.isDir64 f = true → ∀ j < 8,
      w₂.childByte (s.target f loadBase + j) = some
        (if j < s.headLen f loadBase then
          wordByte (w₁.childWord (s.target f loadBase) + wsub loadBase info.imageBase) j
        else wordByte (w₁.childWord (s.target f loadBase)) j)) ∧
    ∀ a, PeHasPage f info loadBase (a - a % pageSize) →
      (∀ s ∈ peRelocSites f info, s.isDir64 f = true →
        ¬(s.target f loadBase ≤ a ∧ a < s.target f loadBase + 8)) →
      w₂.childByte a = w₁.childByte a := by
  obtain ⟨-, hlaid, hdist⟩ := peLoadSections_laid hw hfresh hsecs
  have hbyte : ∀ s ∈ peRelocSites f info, s.isDir64 f = true → ∀ j < 8,
      w₁.childByte (s.target f loadBase + j) =
        some (wordByte (w₁.childWord (s.target f loadBase)) j) := by
    intro s hs hdir j hj
    refine childByte_eq_wordByte hj ?_
    obtain ⟨e, he⟩ := Option.isSome_iff_exists.1
      (hlaid.peEntry_isSome (htargets.loaded s hs hdir j hj))
    rw [World.childByte, hlaid.inSync _ _ he]
    rfl
  have hend : wp (peLoad arch env f loadBase) (fun _ w₂ => PeAllRelocated f loadBase
      (wsub loadBase info.imageBase) (peRelocSites f info) w₁ w₂) (fun _ _ => True) w := by
    rw [peLoad, wp_bind, wp_iff_of_ok hsecs]
    simp only [wp_bind, wp_ite, wp_pure]
    refine ⟨fun _ => peRelocate_spec hlaid hdist htargets, fun hzero => ?_⟩
    -- An image at its preferred address is left as it is.
    rw [not_not.1 hzero]
    refine ⟨.refl w₁, fun s hs hdir a ha => ?_, fun _ _ _ => rfl⟩
    have hlo := ha.1
    have hlt := ha.lt
    have ha' := hbyte s hs hdir (a - s.target f loadBase) (by omega)
    rw [Nat.add_sub_cancel' hlo] at ha'
    rw [Nat.add_zero, ha']
  have hall := wp_ok (Q := fun _ w₂ => PeAllRelocated f loadBase (wsub loadBase info.imageBase)
    (peRelocSites f info) w₁ w₂) hend hload
  refine ⟨fun s hs hdir j hj => ?_, fun a ha hout => ?_⟩
  · split_ifs with hlt
    · have hsum := hall.written s hs hdir (s.target f loadBase + j) ⟨by omega, by omega⟩
      rwa [Nat.add_sub_cancel_left] at hsum
    · -- The rest of the target is on a page where no other relocation writes to it.
      have hpage := htargets.hasPage (a := s.target f loadBase + j) hs hdir (by omega) (by omega)
      rw [← hbyte s hs hdir j hj]
      refine hall.kept _ (hlaid.peEntry_isSome hpage) fun s' hs' hdir' => ?_
      rcases eq_or_ne s' s with rfl | heq
      · exact fun hhead => hlt (by have := hhead.2; omega)
      · have hsymm : Std.Symm (RelocSite.Apart f loadBase) := ⟨fun _ _ h => h.symm⟩
        exact (htargets.apart.forall hs' hs heq).not_head hdir' hdir (by omega) (by omega)
  · refine hall.kept a (hlaid.peEntry_isSome ha) fun s hs hdir hhead => ?_
    exact hout s hs hdir ⟨hhead.1, hhead.lt⟩

/-- For every image that is loaded and whose 64-bit targets are apart: the child has at every
    target the word of before plus the load bias, and every other byte as it was, if and only
    if for every target that crosses the end of its page the bytes on the next page are the
    same in the word and in the sum. -/
theorem peLoad_relocations_iff :
    ((∀ s ∈ peRelocSites f info, s.isDir64 f = true → ∀ j < 8,
        w₂.childByte (s.target f loadBase + j) = some (wordByte
          ((w₁.childWord (s.target f loadBase) + wsub loadBase info.imageBase) % 2 ^ 64) j)) ∧
      ∀ a, PeHasPage f info loadBase (a - a % pageSize) →
        (∀ s ∈ peRelocSites f info, s.isDir64 f = true →
          ¬(s.target f loadBase ≤ a ∧ a < s.target f loadBase + 8)) →
        w₂.childByte a = w₁.childByte a) ↔
    ∀ s ∈ peRelocSites f info, s.isDir64 f = true → ∀ j, s.headLen f loadBase ≤ j → j < 8 →
      wordByte ((w₁.childWord (s.target f loadBase) + wsub loadBase info.imageBase) % 2 ^ 64) j =
        wordByte (w₁.childWord (s.target f loadBase)) j := by
  obtain ⟨hbytes, hkept⟩ := peLoad_childByte hw hfresh hsecs hload htargets
  have hmod : ∀ v, ∀ j < 8, wordByte (v % 2 ^ 64) j = wordByte v j := fun v =>
    (wordByte_eq_iff _ _ 8).2 (Nat.mod_mod _ _)
  refine ⟨fun h s hs hdir j hge hj => ?_, fun h => ⟨fun s hs hdir j hj => ?_, hkept⟩⟩
  · have hbyte := h.1 s hs hdir j hj
    rw [hbytes s hs hdir j hj, if_neg (by omega), Option.some.injEq] at hbyte
    exact hbyte.symm
  · rw [hbytes s hs hdir j hj]
    split_ifs with hlt
    · rw [hmod _ j hj]
    · rw [h s hs hdir j (by omega) hj]

end

end

/-! ## A file with one relocation -/

/-- A PE file with one section of two pages, which has the relocation directory at its start.
    Its relocation is for the word at the offset `offset` of the section. -/
def oneReloc (offset : ℕ) : File where
  bytes := peRelocHeaderBytes 1 0x400000 0x3000 288 0x1000 12 ++
    sectionBytes 0x2000 0x1000 12 288 0xC0000000 ++
    wordBytes 4 0x1000 ++ wordBytes 4 12 ++ wordBytes 2 (0xA000 + offset) ++ wordBytes 2 0
  length_lt := by simp [sectionBytes]

/-- What the checks read from the file with a target inside of a page. -/
def oneRelocInfo : PeInfo := resultOf (pePlan .x86_64 (oneReloc 0x100)) (by decide +kernel)

/-- What the checks read from the file with a target on two pages. -/
def crossingInfo : PeInfo := resultOf (pePlan .x86_64 (oneReloc 0xFFE)) (by decide +kernel)

/-- A context where every call succeeds, with memory after the scratch page. -/
def Env.longScratch : Env := { Env.quiet with scratchEnd := true }

theorem peLoad_relocations_iff_oneReloc :
    ∃ w₁ res w₂, (peLoadSections .x86_64 Env.quiet (oneReloc 0x100) 0x500000).run World.initial =
        .ok oneRelocInfo w₁ ∧
      (peLoad .x86_64 Env.quiet (oneReloc 0x100) 0x500000).run World.initial = .ok res w₂ ∧
      ∀ s ∈ peRelocSites (oneReloc 0x100) oneRelocInfo, s.isDir64 (oneReloc 0x100) = true →
        ∀ j < 8, w₂.childByte (s.target (oneReloc 0x100) 0x500000 + j) = some (wordByte
          ((w₁.childWord (s.target (oneReloc 0x100) 0x500000) +
            wsub 0x500000 oneRelocInfo.imageBase) % 2 ^ 64) j) := by
  have hplan : pePlan .x86_64 (oneReloc 0x100) = .ok oneRelocInfo := eq_ok_resultOf _
  have hwp : wp (peLoadSections .x86_64 Env.quiet (oneReloc 0x100) 0x500000) (fun _ _ => True)
      (fun _ _ => False) World.initial := by decide +kernel
  have hwp' : wp (peLoad .x86_64 Env.quiet (oneReloc 0x100) 0x500000) (fun _ _ => True)
      (fun _ _ => False) World.initial := by decide +kernel
  obtain ⟨info, w₁, hsecs, -⟩ := wp_exists_ok hwp
  obtain ⟨res, w₂, hload, -⟩ := wp_exists_ok hwp'
  have heq : info = oneRelocInfo := Except.ok.inj
    ((peLoadSections_laid World.initial_start Env.quiet_freshFrames hsecs).1.symm.trans hplan)
  rw [heq] at hsecs
  refine ⟨w₁, res, w₂, hsecs, hload, ?_⟩
  refine ((peLoad_relocations_iff World.initial_start Env.quiet_freshFrames hsecs hload
    ⟨by decide +kernel, by decide +kernel⟩).2 fun s hs hdir j hge hj => ?_).1
  have hhead : ∀ s ∈ peRelocSites (oneReloc 0x100) oneRelocInfo,
      s.headLen (oneReloc 0x100) 0x500000 = 8 := by decide +kernel
  rw [hhead s hs] at hge
  omega

/-- The load bias is 0x100000, and the word that the relocation is for is zero. Of the sum,
    the third byte is on the second page of the section, where it is not written. -/
theorem peLoad_relocations_crossing :
    ∃ w₁ res w₂ s,
      (peLoadSections .x86_64 Env.longScratch (oneReloc 0xFFE) 0x500000).run World.initial =
        .ok crossingInfo w₁ ∧
      (peLoad .x86_64 Env.longScratch (oneReloc 0xFFE) 0x500000).run World.initial = .ok res w₂ ∧
      PeTargetsApart (oneReloc 0xFFE) crossingInfo 0x500000 ∧
      s ∈ peRelocSites (oneReloc 0xFFE) crossingInfo ∧ s.isDir64 (oneReloc 0xFFE) = true ∧
      s.target (oneReloc 0xFFE) 0x500000 = 0x501FFE ∧ wsub 0x500000 crossingInfo.imageBase =
        0x100000 ∧ w₁.childWord 0x501FFE = 0 ∧ w₂.childByte 0x502000 = some 0 ∧
      w₂.childByte (0x501FFE + 2) ≠ some (wordByte ((0 + 0x100000) % 2 ^ 64) 2) := by
  have hplan : pePlan .x86_64 (oneReloc 0xFFE) = .ok crossingInfo := eq_ok_resultOf _
  have hwp : wp (peLoadSections .x86_64 Env.longScratch (oneReloc 0xFFE) 0x500000)
      (fun _ w₁ => w₁.childWord 0x501FFE = 0) (fun _ _ => False) World.initial := by
    decide +kernel
  have hwp' : wp (peLoad .x86_64 Env.longScratch (oneReloc 0xFFE) 0x500000)
      (fun _ w₂ => w₂.childByte 0x502000 = some 0) (fun _ _ => False) World.initial := by
    decide +kernel
  obtain ⟨info, w₁, hsecs, hword⟩ := wp_exists_ok hwp
  obtain ⟨res, w₂, hload, hbyte⟩ := wp_exists_ok hwp'
  have heq : info = crossingInfo := Except.ok.inj
    ((peLoadSections_laid World.initial_start (fun _ h => by cases h) hsecs).1.symm.trans hplan)
  rw [heq] at hsecs
  have hsite : (⟨296, 0x1000⟩ : RelocSite) ∈ peRelocSites (oneReloc 0xFFE) crossingInfo := by
    decide +kernel
  refine ⟨w₁, res, w₂, ⟨296, 0x1000⟩, hsecs, hload, ⟨by decide +kernel, by decide +kernel⟩, hsite,
    by decide +kernel, by decide +kernel, by decide +kernel, hword, hbyte, fun h => ?_⟩
  exact absurd (hbyte.symm.trans h) (by decide +kernel)

end Trona
