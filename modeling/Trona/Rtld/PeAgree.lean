import Trona.Loader.PeBounds
import Trona.Rtld.PeReloc

/-!
# The two PE relocators

`pe_relocate` of the loader works from the file and writes to the frames of the child,
`apply_base_relocations` of the linker works on the image in memory. They differ in

* where the next block is: the loader rounds the end of a block up to a multiple of four,
* targets outside of the image, which the linker leaves out, and targets on two pages, of
  which the loader writes the part on the first one,
* what they read: the linker reads the directory from the image that it is changing.

Each of them adds to the numbers on a list, one after the other. They agree if and only if the
two lists have the same addresses and lead to the same sums (`SameRelocs`). The lists are even
the same for files without the relocations above (`PlainRelocs`); a target may then be in the
directory, where it is not read any more.
-/

namespace Trona

/-- The image of a file is in memory at `base`: the headers with six data directories, and
    every byte that has a place in the file. -/
structure PeInMemory (f : File) (info : PeInfo) (base : ℕ) (m : Memory) : Prop where
  directories_in_file : imageDirectoryEntryBasereloc < info.numberOfRvaAndSizes →
    info.dataDirOffset + 48 ≤ f.size
  headers : ∀ k < info.dataDirOffset + 48, k < f.size → m ((base + k) % 2 ^ 64) = some (f.byte k)
  contents : ∀ rva off, rvaToFileOffset f info rva = some off → off < f.size →
    m ((base + rva) % 2 ^ 64) = some (f.byte off)

section

variable (env : Env) (f : File) (info : PeInfo) (loadBase imageSize delta : ℕ) (w w' : World)
  (m : Memory) (t : PeRtld.RelocState)

/-- `apply_base_relocations` for the image of a file at `loadBase`: the headers are where the
    file has them. -/
def linkerRelocations : PeRtld.RelocM PUnit :=
  PeRtld.applyBaseRelocations loadBase imageSize (loadBase + (info.dataDirOffset - 112))
    (loadBase + info.sectionHeadersOffset) info.numberOfSections delta

/-! ## The two lists -/

/-- The memory after `delta` is added to some numbers, one after the other, each with its address
    and its length. -/
def addSums (parts : List (ℕ × ℕ)) : Memory :=
  parts.foldl (fun m p => m.writeLe p.1 p.2 ((m.le p.1 p.2).getD 0 + delta)) m

/-- The addresses that a list of relocations is for. -/
def relocTargets (sites : List RelocSite) : List ℕ :=
  (sites.filter (·.isDir64 f)).map (·.target f loadBase)

/-- What the loader adds to: of every target the part on its first page. -/
def relocHeads (sites : List RelocSite) : List (ℕ × ℕ) :=
  (sites.filter (·.isDir64 f)).map fun s => (s.target f loadBase, s.headLen f loadBase)

/-- What the linker leaves. -/
def linkerResult : PeRtld.RelocState :=
  PeRtld.relocResult loadBase imageSize delta (loadBase + (info.dataDirOffset - 112))
    (loadBase + info.sectionHeadersOffset) info.numberOfSections m

/-- The addresses of the words that the linker adds to, as its walk comes to them. -/
def linkerTargets : List ℕ :=
  (linkerResult info loadBase imageSize delta m).patches

/-- The page of an address is one that the loader has placed. -/
def World.Placed (a : ℕ) : Prop := (w.entry (a - a % pageSize)).isSome = true

/-- The lists of the relocators have the same addresses. At each of them the loader has placed
    all eight bytes, and the sums along the two lists are the same. -/
structure SameRelocs : Prop where
  targets : ∀ a, a ∈ linkerTargets info loadBase imageSize delta m ↔
    a ∈ relocTargets f loadBase (peRelocSites f info)
  placed : ∀ a ∈ linkerTargets info loadBase imageSize delta m, ∀ j < 8, w.Placed ((a + j) % 2 ^ 64)
  sums : ∀ a ∈ linkerTargets info loadBase imageSize delta m, ∀ j < 8,
    addSums delta m ((linkerTargets info loadBase imageSize delta m).map (·, 8))
        ((a + j) % 2 ^ 64) =
      addSums delta m (relocHeads f loadBase (peRelocSites f info)) ((a + j) % 2 ^ 64)

/-- Both relocators report success: the loader for a child `w`, which has the pages of its table and
    no others, and the linker for a memory `m` in which these pages are the same. The image is not
    at its preferred address. -/
structure BothSucceed : Prop where
  delta_ne : delta ≠ 0
  inSync : w.InSync
  distinct : w.Distinct
  pages : ∀ a < 2 ^ 64, w.Placed a → m a = w.childByte a
  only : ∀ v, w.entry v = none → w.child v = none
  loader : (peRelocate env f info delta loadBase).run w = .ok ⟨⟩ w'
  linker : (linkerRelocations info loadBase imageSize delta).run ⟨m, []⟩ = .ok ⟨⟩ t

/-- The relocators have relocated the same words to the same values. -/
structure SameWords : Prop where
  targets : ∀ a, a ∈ t.patches ↔ a ∈ relocTargets f loadBase (peRelocSites f info)
  bytes : ∀ a ∈ t.patches, ∀ j < 8, t.mem ((a + j) % 2 ^ 64) = w'.childByte ((a + j) % 2 ^ 64)

end

/-! ## Plain relocations -/

/-- The address of the relocation directory, relative to the image. -/
def relocRva (f : File) (info : PeInfo) : ℕ :=
  (readDataDir f info imageDirectoryEntryBasereloc).virtualAddress

/-- Where the part of the directory that is read ends: behind the last block, or behind a block
    header that ends the walk. -/
def relocReadEnd (f : File) (relocEnd : ℕ) : (fuel pos : ℕ) → ℕ
  | 0, _ => 0
  | fuel + 1, pos =>
    if pos + 8 ≤ relocEnd then
      match f.baseRelocation pos with
      | none => 0
      | some block =>
        if block.sizeOfBlock < 8 then pos + 8
        else
          max (pos + block.sizeOfBlock / 2 * 2)
            (relocReadEnd f relocEnd fuel (alignUp 4 (pos + block.sizeOfBlock)))
    else 0

/-- The target is not in a part of the image. -/
def RelocSite.Avoids (s : RelocSite) (f : File) (lo hi : ℕ) : Prop :=
  s.targetRva f + 8 ≤ lo ∨ hi ≤ s.targetRva f

instance (s : RelocSite) (f : File) (lo hi : ℕ) : Decidable (s.Avoids f lo hi) :=
  inferInstanceAs (Decidable (_ ∨ _))

/-- A relocation of the block at the offset `p` of the directory, of which `hi` bytes are read. Its
    target is in the image and on one page, and not in a part of the directory that is still to be
    read then: the header of the block, which is read again, and what is behind the entry. -/
@[mk_iff]
structure RelocSite.Plain (s : RelocSite) (f : File) (loadBase imageSize rva start p hi : ℕ) :
    Prop where
  rva_lt : s.targetRva f < 2 ^ 32
  in_image : s.targetRva f + 8 ≤ imageSize
  one_page : s.headLen f loadBase = 8
  header : s.Avoids f (rva + p) (rva + p + 8)
  rest : s.Avoids f (rva + (s.off + 2 - start)) (rva + hi)

instance (s : RelocSite) (f : File) (loadBase imageSize rva start p hi : ℕ) :
    Decidable (s.Plain f loadBase imageSize rva start p hi) := decidable_of_iff' _ (s.plain_iff ..)

/-- The relocations that the two relocators read in the same way, from a directory between the
    offsets `start` and `fin`: what is read is in the directory and in one piece, every block ends
    at a multiple of four if another one may follow, and each relocation is plain. -/
structure PlainRelocs (f : File) (info : PeInfo) (loadBase imageSize start fin : ℕ) : Prop where
  in_place : ∀ i, start + i < relocReadEnd f fin (f.size + 1) start →
    rvaToFileOffset f info (relocRva f info + i) = some (start + i)
  fits : relocReadEnd f fin (f.size + 1) start ≤ fin
  aligned : ∀ b ∈ relocBlocks f fin (f.size + 1) start,
    (b.1 + b.2.sizeOfBlock) % 4 = 0 ∨ fin < b.1 + b.2.sizeOfBlock + 8
  plain : ∀ b ∈ relocBlocks f fin (f.size + 1) start, ∀ s ∈ b.2.sites b.1, s.isDir64 f = true →
    s.Plain f loadBase imageSize (relocRva f info) start (b.1 - start)
      (relocReadEnd f fin (f.size + 1) start - start)

/-! ## The sums -/

section

variable {env : Env} {f : File} {info : PeInfo} {loadBase imageSize delta : ℕ} {m : Memory}
  {w w' : World}

theorem addSums_concat (parts : List (ℕ × ℕ)) (a n : ℕ) :
    addSums delta m (parts ++ [(a, n)]) = (addSums delta m parts).writeLe a n
      (((addSums delta m parts).le a n).getD 0 + delta) := by
  rw [addSums, List.foldl_append]
  rfl

/-- The numbers that are added to can be read afterwards. -/
theorem addSums_isSome {parts : List (ℕ × ℕ)} {p : ℕ × ℕ} (hp : p ∈ parts) {j : ℕ} (hj : j < p.2)
    (hlen : p.2 ≤ 2 ^ 64) : (addSums delta m parts ((p.1 + j) % 2 ^ 64)).isSome = true := by
  induction parts using List.reverseRecOn with
  | nil => exact absurd hp List.not_mem_nil
  | append_singleton parts q ih =>
    rw [addSums_concat]
    rcases List.mem_append.1 hp with hp | hp
    · rw [Memory.writeLe]
      split_ifs
      · rfl
      · exact ih hp
    · obtain rfl := List.mem_singleton.1 hp
      rw [Memory.writeLe_inside hj hlen]
      rfl

theorem relocTargets_dir64 {s : RelocSite} (h : s.isDir64 f = true) :
    relocTargets f loadBase [s] = [s.target f loadBase] := by
  simp [relocTargets, h]

theorem relocTargets_other {s : RelocSite} (h : s.isDir64 f = false) :
    relocTargets f loadBase [s] = [] := by
  simp [relocTargets, h]

theorem relocTargets_append (sites sites' : List RelocSite) :
    relocTargets f loadBase (sites ++ sites') =
      relocTargets f loadBase sites ++ relocTargets f loadBase sites' := by
  simp [relocTargets]

namespace PeRtld

variable {s : RelocState} {block relocEnd fuel relocData : ℕ}

/-- The memory is the one at the start with the sums at the addresses noted so far. -/
def RelocState.Sums (s : RelocState) (delta : ℕ) (m : Memory) : Prop :=
  s.mem = addSums delta m (s.patches.map (·, 8))

theorem RelocState.Sums.setWord (h : s.Sums delta m) (target : ℕ) :
    (s.setWord target ((s.mem.le target 8).getD 0 + delta)).Sums delta m := by
  have hle : s.mem.le (target % 2 ^ 64) 8 = s.mem.le target 8 := by
    rw [Memory.le, Memory.read_mod, Memory.le]
  rw [RelocState.Sums] at h ⊢
  simp only [RelocState.setWord, List.map_append, List.map_cons, List.map_nil, addSums_concat, ← h,
    hle]
  funext b
  rw [Memory.writeLe, Memory.writeLe, Nat.mod_mod]

theorem RelocState.Sums.relocEntry (h : s.Sums delta m) (i : ℕ) :
    (relocEntry loadBase imageSize delta block s i).Sums delta m := by
  simp only [PeRtld.relocEntry]
  split_ifs
  · exact h.setWord _
  · exact h

theorem RelocState.Sums.relocBlock (h : s.Sums delta m) (n : ℕ) :
    (relocBlock loadBase imageSize delta block n s).Sums delta m := by
  induction n with
  | zero => exact h
  | succ n ih =>
    rw [relocBlock_succ]
    exact ih.relocEntry n

theorem RelocState.Sums.relocWalk (h : s.Sums delta m) :
    (relocWalk loadBase imageSize delta relocEnd fuel relocData s).2.Sums delta m := by
  induction fuel generalizing relocData s with
  | zero => exact h
  | succ fuel ih =>
    simp only [PeRtld.relocWalk]
    split_ifs
    · exact h
    · exact ih (h.relocBlock _)
    · exact h

/-- What the linker leaves is the sums along its list. -/
theorem sums_relocResult {opt sections numSections : ℕ} :
    (relocResult loadBase imageSize delta opt sections numSections m).Sums delta m := by
  rw [relocResult]
  split
  · exact RelocState.Sums.relocWalk rfl
  · rfl

end PeRtld

/-- The child is `m` with the sums of the relocations gone through, on the pages of the table. -/
structure LoaderSums (f : File) (loadBase delta : ℕ) (w : World) (m : Memory)
    (done : List RelocSite) (w' : World) : Prop where
  sameMaps : w.SameMaps w'
  placed : ∀ s ∈ done, s.isDir64 f = true → w.Placed (s.target f loadBase)
  bytes : ∀ a < 2 ^ 64, w.Placed a → w'.childByte a = addSums delta m (relocHeads f loadBase done) a

/-- One more relocation of the loader. -/
theorem LoaderSums.concat {done : List RelocSite} {s : RelocSite} {w₁ w₂ : World} (hsync : w.InSync)
    (h : LoaderSums f loadBase delta w m done w₁) (hstep : PeRelocated f loadBase delta s w₁ w₂) :
    LoaderSums f loadBase delta w m (done ++ [s]) w₂ := by
  have hentry : ∀ v, w₁.entry v = w.entry v := h.sameMaps.entry_eq
  refine ⟨h.sameMaps.trans hstep.sameMaps, fun s' hs' hdir => ?_, fun a ha hplaced => ?_⟩
  · rcases List.mem_append.1 hs' with hs' | hs'
    · exact h.placed s' hs' hdir
    · obtain rfl := List.mem_singleton.1 hs'
      have := hstep.placed hdir
      rwa [hentry] at this
  · have hplaced₁ : (w₁.entry (a - a % pageSize)).isSome = true := by rwa [hentry]
    by_cases hdir : s.isDir64 f = true
    · have hheads : relocHeads f loadBase (done ++ [s]) =
          relocHeads f loadBase done ++ [(s.target f loadBase, s.headLen f loadBase)] := by
        simp [relocHeads, hdir]
      have hfits := s.headLen_fits f loadBase
      have htarget : s.target f loadBase = (loadBase + s.targetRva f) % 2 ^ 64 := rfl
      obtain ⟨e, he⟩ := Option.isSome_iff_exists.1 (hstep.placed hdir)
      simp only [pageSize] at hfits he
      -- The part on the first page is read as the loader reads it.
      have hle : (addSums delta m (relocHeads f loadBase done)).le (s.target f loadBase)
          (s.headLen f loadBase) =
            some (w₁.childWord (s.target f loadBase) % 256 ^ s.headLen f loadBase) := by
        rw [childWord_mod (s.headLen_le f loadBase)]
        refine Memory.le_eq_some fun j hj => ?_
        have hpage : s.target f loadBase + j - (s.target f loadBase + j) % 4096 =
            s.target f loadBase - s.target f loadBase % 4096 := by omega
        have hbyte := h.bytes (s.target f loadBase + j) (by omega)
          (by rw [World.Placed, pageSize, hpage, ← hentry, he]; rfl)
        rw [Nat.mod_eq_of_lt (by omega), ← hbyte, World.childByte, pageSize, hpage,
          (h.sameMaps.inSync hsync) _ _ he]
        rfl
      rw [hheads, addSums_concat, hle, Option.getD_some]
      by_cases hhead : s.Head f loadBase a
      · obtain ⟨hlo, hhi⟩ := hhead
        rw [hstep.written hdir a ⟨hlo, hhi⟩]
        obtain ⟨j, rfl⟩ := Nat.exists_eq_add_of_le hlo
        have hwrite := Memory.writeLe_inside (m := addSums delta m (relocHeads f loadBase done))
          (a := s.target f loadBase) (n := s.headLen f loadBase)
          (v := w₁.childWord (s.target f loadBase) % 256 ^ s.headLen f loadBase + delta) (j := j)
          (by omega) (by omega)
        rw [Nat.mod_eq_of_lt ha] at hwrite
        rw [hwrite, Nat.add_sub_cancel_left]
        exact congrArg some ((wordByte_eq_iff _ _ (s.headLen f loadBase)).2
          (Nat.mod_add_mod _ _ _).symm j (by omega))
      · rw [hstep.kept a hplaced₁ fun _ => hhead, h.bytes a ha hplaced]
        refine (Memory.writeLe_outside ha fun j hj heq => hhead ⟨?_, ?_⟩).symm
        · omega
        · omega
    · have hheads : relocHeads f loadBase (done ++ [s]) = relocHeads f loadBase done := by
        simp [relocHeads, hdir]
      rw [hheads, hstep.kept a hplaced₁ fun h => absurd h hdir, h.bytes a ha hplaced]

namespace BothSucceed

variable {t : PeRtld.RelocState} (h : BothSucceed env f info loadBase imageSize delta w w' m t)

include h

/-- What the loader leaves is the sums along its list. -/
theorem loaderSums : LoaderSums f loadBase delta w m (peRelocSites f info) w' := by
  have hinit : LoaderSums f loadBase delta w m [] w :=
    ⟨.refl w, fun _ hs => absurd hs List.not_mem_nil, fun a ha hplaced =>
      (h.pages a ha hplaced).symm⟩
  refine wp_ok (Q := fun _ w' => LoaderSums f loadBase delta w m (peRelocSites f info) w')
    (peRelocate_of_sites ?_) h.loader
  refine wp_forM (fun done w' => LoaderSums f loadBase delta w m done w') hinit
    fun done s todo w₁ _ hdone => ?_
  exact wp_post (relocateEntry_spec (hdone.sameMaps.inSync h.inSync)
    (hdone.sameMaps.distinct h.distinct)) fun _ _ hstep => hdone.concat h.inSync hstep

theorem eq_linkerResult : t = linkerResult info loadBase imageSize delta m :=
  wp_ok (Q := fun _ t => t = linkerResult info loadBase imageSize delta m)
    (PeRtld.applyBaseRelocations_result h.delta_ne) h.linker

/-- What the relocators leave is the same when the sums are. -/
theorem sameWords_iff :
    SameWords f info loadBase w' t ↔ SameRelocs f info loadBase imageSize delta w m := by
  have hresult := h.eq_linkerResult
  have hpatches : t.patches = linkerTargets info loadBase imageSize delta m := by
    rw [hresult, linkerTargets]
  have hmem : t.mem = addSums delta m (t.patches.map (·, 8)) := by
    rw [hresult]
    exact PeRtld.sums_relocResult
  have hsums := h.loaderSums
  rw [hpatches] at hmem
  constructor
  · rintro ⟨htargets, hbytes⟩
    rw [hmem, hpatches] at hbytes
    rw [hpatches] at htargets
    have hplaced : ∀ a ∈ linkerTargets info loadBase imageSize delta m, ∀ j < 8,
        w.Placed ((a + j) % 2 ^ 64) := by
      intro a ha j hj
      by_contra hnot
      -- The child has nothing there, but the linker has written to it.
      have hnone : w'.childByte ((a + j) % 2 ^ 64) = none := by
        rw [World.childByte, hsums.sameMaps.child_eq,
          h.only _ (Option.not_isSome_iff_eq_none.1 hnot)]
        rfl
      have hsome : (addSums delta m ((linkerTargets info loadBase imageSize delta m).map (·, 8))
          ((a + j) % 2 ^ 64)).isSome = true :=
        addSums_isSome (List.mem_map_of_mem (f := (·, 8)) ha) hj (show 8 ≤ 2 ^ 64 by decide)
      rw [hbytes a ha j hj, hnone] at hsome
      cases hsome
    refine ⟨htargets, hplaced, fun a ha j hj => ?_⟩
    rw [hbytes a ha j hj, hsums.bytes _ (Nat.mod_lt _ (by decide)) (hplaced a ha j hj)]
  · intro hsame
    refine ⟨hpatches ▸ hsame.targets, fun a ha j hj => ?_⟩
    rw [hpatches] at ha
    rw [hmem, hsame.sums a ha j hj,
      hsums.bytes _ (Nat.mod_lt _ (by decide)) (hsame.placed a ha j hj)]

end BothSucceed

/-! ## The same list -/

section

variable {t : PeRtld.RelocState} {start len rva p hi lo fuel fuel' : ℕ} {block : BaseRelocation}

/-- Between two offsets, the directory in memory is as in the file. -/
def DirAsInFile (f : File) (dirAddr start lo hi : ℕ) (m : Memory) : Prop :=
  ∀ k, lo ≤ k → k < hi → m ((dirAddr + k) % 2 ^ 64) = some (f.byte (start + k))

theorem DirAsInFile.mono {dirAddr lo' : ℕ} (h : DirAsInFile f dirAddr start lo hi m)
    (hle : lo ≤ lo') : DirAsInFile f dirAddr start lo' hi m := fun k hk => h k (hle.trans hk)

theorem DirAsInFile.le {dirAddr k n : ℕ} (h : DirAsInFile f dirAddr start lo hi m)
    (hfile : start + hi ≤ f.size) (hlo : lo ≤ k) (hhi : k + n ≤ hi) :
    m.le (dirAddr + k) n = some (f.le (start + k) n) := by
  refine Memory.le_file (fun i hi' => ?_) (by omega)
  rw [Nat.add_assoc, Nat.add_assoc]
  exact h (k + i) (by omega) (by omega)

/-- A target elsewhere leaves the directory as it is. -/
theorem DirAsInFile.writeLe {s : RelocSite} {v : ℕ}
    (h : DirAsInFile f (loadBase + rva) start lo hi m) (hrva : rva < 2 ^ 32) (hhi : hi ≤ 2 ^ 32)
    (htarget : s.targetRva f < 2 ^ 32) (havoids : s.Avoids f (rva + lo) (rva + hi)) :
    DirAsInFile f (loadBase + rva) start lo hi (m.writeLe (loadBase + s.targetRva f) 8 v) := by
  intro k hlo hk
  rw [← h k hlo hk]
  unfold RelocSite.Avoids at havoids
  exact Memory.writeLe_outside (Nat.mod_lt _ (by decide)) fun j hj => by omega

/-- After the first `n` entries of the block at `p`, its header and the rest of the directory are
    as in the file, and the targets of these entries are noted. -/
structure BlockDone (f : File) (loadBase rva start p hi n : ℕ) (block : BaseRelocation)
    (t t' : PeRtld.RelocState) : Prop where
  header : DirAsInFile f (loadBase + rva) start p (p + 8) t'.mem
  rest : DirAsInFile f (loadBase + rva) start (p + 8 + 2 * n) hi t'.mem
  patches : t'.patches = t.patches ++ relocTargets f loadBase ((List.range n).map fun i =>
    ⟨start + p + 8 + 2 * i, block.virtualAddress⟩)

theorem baseRelocation_fields {pos : ℕ} (h : f.baseRelocation pos = some block) :
    f.le pos 4 = block.virtualAddress ∧ f.le (pos + 4) 4 = block.sizeOfBlock := by
  rw [File.baseRelocation] at h
  split_ifs at h
  obtain rfl := Option.some.inj h
  exact ⟨rfl, rfl⟩

theorem relocSites_end {relocEnd pos : ℕ} (h : relocEnd < pos + 8) :
    relocSites f relocEnd fuel pos = [] := by
  cases fuel with
  | zero => rfl
  | succ fuel => rw [relocSites, relocBlocks, if_neg (not_le.2 h), List.flatMap_nil]

theorem relocWalk_end {relocEnd addr : ℕ} (h : relocEnd < addr + 8) :
    PeRtld.relocWalk loadBase imageSize delta relocEnd fuel addr t = ([], t) := by
  cases fuel with
  | zero => rfl
  | succ fuel => exact if_neg (not_le.2 h)

variable (hfile : start + hi ≤ f.size) (hrva : rva < 2 ^ 32) (hhi : hi ≤ 2 ^ 32)

include hfile hrva hhi

/-- The linker applies the entries of a block as the loader does. -/
theorem relocBlock_plain (hblock : f.baseRelocation (start + p) = some block)
    (hin : p + block.sizeOfBlock / 2 * 2 ≤ hi) {n : ℕ} (hn : n ≤ (block.sizeOfBlock - 8) / 2)
    (hp : p + 8 ≤ hi) (hplain : ∀ s ∈ block.sites (start + p), s.isDir64 f = true →
      s.Plain f loadBase imageSize rva start p hi)
    (h : DirAsInFile f (loadBase + rva) start p hi t.mem) :
    BlockDone f loadBase rva start p hi n block t
      (PeRtld.relocBlock loadBase imageSize delta (loadBase + rva + p) n t) := by
  induction n with
  | zero =>
    exact ⟨fun k hk hk' => h k hk (by omega), h.mono (by omega),
      by simp [relocTargets, PeRtld.relocBlock]⟩
  | succ n ih =>
    obtain ⟨hheader, hrest, hpatches⟩ := ih (by omega)
    have hva := hheader.le (k := p) (n := 4) (by omega) le_rfl (by omega)
    have hentry := hrest.le (k := p + 8 + 2 * n) (n := 2) hfile le_rfl (by omega)
    rw [(baseRelocation_fields hblock).1] at hva
    rw [show loadBase + rva + (p + 8 + 2 * n) = loadBase + rva + p + 8 + 2 * n by omega,
      show start + (p + 8 + 2 * n) = start + p + 8 + 2 * n by omega] at hentry
    rw [PeRtld.relocBlock_succ, PeRtld.relocEntry, hva, hentry]
    simp only [Option.getD_some]
    have hsite := hplain ⟨start + p + 8 + 2 * n, block.virtualAddress⟩
      (List.mem_map.2 ⟨n, List.mem_range.2 (by omega), rfl⟩)
    have hsites : relocTargets f loadBase ((List.range (n + 1)).map fun i =>
        ⟨start + p + 8 + 2 * i, block.virtualAddress⟩) =
        relocTargets f loadBase ((List.range n).map fun i =>
          ⟨start + p + 8 + 2 * i, block.virtualAddress⟩) ++
          relocTargets f loadBase [⟨start + p + 8 + 2 * n, block.virtualAddress⟩] := by
      rw [List.range_succ, List.map_append, relocTargets_append]
      rfl
    cases hdir64 : RelocSite.isDir64 ⟨start + p + 8 + 2 * n, block.virtualAddress⟩ f with
    | true =>
      have hs := hsite hdir64
      have hdir : f.le (start + p + 8 + 2 * n) 2 / 2 ^ 12 = imageRelBasedDir64 :=
        of_decide_eq_true hdir64
      have hsum : (block.virtualAddress + f.le (start + p + 8 + 2 * n) 2 % 2 ^ 12) % 2 ^ 32 =
          RelocSite.targetRva ⟨start + p + 8 + 2 * n, block.virtualAddress⟩ f :=
        Nat.mod_eq_of_lt hs.rva_lt
      rw [hsum, if_pos ⟨hdir, hs.in_image⟩]
      have hbehind := hs.rest
      rw [show start + p + 8 + 2 * n + 2 - start = p + 8 + 2 * (n + 1) by omega] at hbehind
      refine ⟨hheader.writeLe hrva (by omega) hs.rva_lt (by rw [← Nat.add_assoc]; exact hs.header),
        (hrest.mono (by omega)).writeLe hrva hhi hs.rva_lt hbehind, ?_⟩
      rw [hsites, ← List.append_assoc, ← hpatches, relocTargets_dir64 hdir64]
      rfl
    | false =>
      rw [if_neg fun h => of_decide_eq_false hdir64 h.1]
      refine ⟨hheader, hrest.mono (by omega), ?_⟩
      rw [hsites, ← List.append_assoc, ← hpatches, relocTargets_other hdir64,
        List.append_nil]

omit hrva hhi in
theorem sizeOfBlock_plain {lo : ℕ} (hblock : f.baseRelocation (start + p) = some block)
    (hp : p + 8 ≤ hi) (hlo : lo ≤ p + 4) (h : DirAsInFile f (loadBase + rva) start lo hi t.mem) :
    t.sizeOfBlock (loadBase + rva + p) = block.sizeOfBlock := by
  have hsize := h.le (k := p + 4) (n := 4) hfile hlo (by omega)
  rw [← Nat.add_assoc, ← Nat.add_assoc, (baseRelocation_fields hblock).2] at hsize
  rw [PeRtld.RelocState.sizeOfBlock, hsize, Option.getD_some]

/-- The linker goes through the blocks as the loader does. -/
theorem relocWalk_plain (hend : start + len ≤ f.size) (hfuel : len < p + fuel)
    (hfuel' : len < p + fuel')
    (hread : relocReadEnd f (start + len) fuel (start + p) ≤ start + hi)
    (haligned : ∀ b ∈ relocBlocks f (start + len) fuel (start + p),
      (b.1 + b.2.sizeOfBlock) % 4 = 0 ∨ start + len < b.1 + b.2.sizeOfBlock + 8)
    (hplain : ∀ b ∈ relocBlocks f (start + len) fuel (start + p), ∀ s ∈ b.2.sites b.1,
      s.isDir64 f = true → s.Plain f loadBase imageSize rva start (b.1 - start) hi)
    (h : DirAsInFile f (loadBase + rva) start p hi t.mem) :
    (PeRtld.relocWalk loadBase imageSize delta (loadBase + rva + len) fuel'
      (loadBase + rva + p) t).2.patches =
        t.patches ++ relocTargets f loadBase (relocSites f (start + len) fuel (start + p)) := by
  have hsize := f.size_lt
  -- Where no block header fits any more, both walks are over.
  have hover : ∀ {fuel fuel' pos addr : ℕ} {t : PeRtld.RelocState}, start + len < pos + 8 →
      loadBase + rva + len < addr + 8 →
      (PeRtld.relocWalk loadBase imageSize delta (loadBase + rva + len) fuel' addr t).2.patches =
        t.patches ++ relocTargets f loadBase (relocSites f (start + len) fuel pos) := by
    intro fuel fuel' pos addr t hpos haddr
    rw [relocSites_end hpos, relocWalk_end haddr]
    simp [relocTargets]
  induction fuel generalizing p fuel' t with
  | zero => exact hover (by omega) (by omega)
  | succ fuel ih =>
    by_cases hin : p + 8 ≤ len
    · obtain ⟨fuel', rfl⟩ : ∃ n, fuel' = n + 1 := ⟨fuel' - 1, by omega⟩
      obtain ⟨block, hblock⟩ : ∃ block, f.baseRelocation (start + p) = some block := by
        rw [File.baseRelocation, if_pos (by omega)]
        exact ⟨_, rfl⟩
      have hlt := File.baseRelocation_size_lt hblock
      rw [relocBlocks, if_pos (by omega), hblock] at haligned hplain
      rw [relocReadEnd, if_pos (by omega), hblock] at hread
      rw [relocSites, relocBlocks, if_pos (by omega), hblock, PeRtld.relocWalk, if_pos (by omega)]
      by_cases hsmall : block.sizeOfBlock < 8
      · simp only [if_pos hsmall] at hread
        rw [sizeOfBlock_plain hfile hblock (by omega) (by omega) h]
        simp [hsmall, relocTargets]
      · simp only [if_neg hsmall, List.forall_mem_cons] at hread haligned hplain
        obtain ⟨hhere, hread⟩ := Nat.max_le.1 hread
        have hhead : p + block.sizeOfBlock / 2 * 2 ≤ hi := by omega
        rw [sizeOfBlock_plain hfile hblock (by omega) (by omega) h]
        simp only [if_neg hsmall, List.flatMap_cons]
        have hdone : BlockDone f loadBase rva start p hi _ block t
            (PeRtld.relocBlock loadBase imageSize delta (loadBase + rva + p) _ t) :=
          relocBlock_plain hfile hrva hhi hblock hhead le_rfl (by omega) (by simpa using hplain.1) h
        rw [sizeOfBlock_plain (by omega) hblock le_rfl (by omega) hdone.header,
          relocTargets_append, ← List.append_assoc, BaseRelocation.sites, ← hdone.patches]
        -- The next block is at the same place for both, or there is none.
        rcases haligned.1 with hnext | hnext
        · rw [alignUp_four_eq hnext (by omega), Nat.add_assoc start] at hread haligned hplain ⊢
          rw [Nat.add_assoc (loadBase + rva)]
          exact ih (by omega) (by omega) hread haligned.2 hplain.2
            (hdone.rest.mono (by omega))
        · have hle := le_alignUp_four (v := start + p + block.sizeOfBlock) (by omega)
          exact hover (by omega) (by omega)
    · exact hover (by omega) (by omega)

end

/-! ## The directory -/

/-- If the loader succeeds without a relocation directory, the file does not name one. -/
theorem peRelocate_of_none (h : relocDirectory f info = none)
    (hrun : (peRelocate env f info delta loadBase).run w = .ok ⟨⟩ w') :
    (readDataDir f info imageDirectoryEntryBasereloc).virtualAddress = 0 ∨
      (readDataDir f info imageDirectoryEntryBasereloc).size = 0 := by
  by_contra hdir
  have hwp : wp (peRelocate env f info delta loadBase) (fun _ _ => False) (fun _ _ => True) w := by
    rw [peRelocate]
    simp only [hdir, if_false]
    split
    · exact wp_throw.2 trivial
    · rename_i off hoff
      refine wp_ite.2 ⟨fun _ => wp_throw.2 trivial, fun hend => ?_⟩
      have hsome := relocDirectory_eq_some.2 ⟨hdir, hoff, rfl, not_lt.1 hend⟩
      rw [h] at hsome
      cases hsome
  exact wp_ok hwp hrun

namespace PeInMemory

variable (hmem : PeInMemory f info loadBase m) (hchk : PeChecked f info)

include hmem hchk

/-- A number of the headers, counted from the optional header. -/
theorem le {k : ℕ} (hk : k + 4 ≤ 160) (hin : info.dataDirOffset - 112 + k + 4 ≤ f.size) :
    m.le (loadBase + (info.dataDirOffset - 112) + k) 4 =
      some (f.le (info.dataDirOffset - 112 + k) 4) := by
  have hge := hchk.le_dataDir
  refine Memory.le_file (fun i hi => ?_) hin
  rw [Nat.add_assoc, Nat.add_assoc, ← Nat.add_assoc (info.dataDirOffset - 112)]
  exact hmem.headers _ (by omega) (by omega)

/-- The linker finds the directory that the loader finds. -/
theorem relocDir_eq {found : Option DataDirectory}
    (h : PeRtld.relocDir m (loadBase + (info.dataDirOffset - 112))
      (loadBase + info.sectionHeadersOffset) info.numberOfSections = .ok found) :
    found = if (readDataDir f info imageDirectoryEntryBasereloc).virtualAddress = 0 ∨
        (readDataDir f info imageDirectoryEntryBasereloc).size = 0 then none
      else some (readDataDir f info imageDirectoryEntryBasereloc) := by
  have hge := hchk.le_dataDir
  have hle := hchk.dataDir_le
  have hcount := hmem.le hchk (k := 108) (by decide) (by omega)
  rw [show info.dataDirOffset - 112 + 108 = info.dataDirOffset - 4 by omega,
    ← hchk.numberOfRvaAndSizes_eq] at hcount
  simp only [PeRtld.relocDir, PeRtld.load_bind_eq_ok, hcount, Option.some.injEq,
    exists_eq_left'] at h
  rw [readDataDir]
  by_cases hmany : info.numberOfRvaAndSizes ≤ imageDirectoryEntryBasereloc
  · rw [if_pos hmany] at h
    simpa [hmany] using (Except.ok.inj h).symm
  · have hin := hmem.directories_in_file (not_le.1 hmany)
    have hva := hmem.le hchk (k := 112 + imageDirectoryEntryBasereloc * 8) (by decide)
      (by simp only [imageDirectoryEntryBasereloc]; omega)
    have hsize := hmem.le hchk (k := 112 + imageDirectoryEntryBasereloc * 8 + 4) (by decide)
      (by simp only [imageDirectoryEntryBasereloc]; omega)
    have hend : info.dataDirOffset + imageDirectoryEntryBasereloc * 8 + 8 ≤ f.size := by
      simp only [imageDirectoryEntryBasereloc]
      omega
    rw [if_neg hmany, File.dataDirectory, if_pos hend]
    rw [if_neg hmany] at h
    simp only [← Nat.add_assoc, Nat.sub_add_cancel hge] at hva hsize
    simp only [PeRtld.load_bind_eq_ok, hva, Option.some.injEq, exists_eq_left'] at h
    simp only [Option.getD_some]
    split_ifs at h with hzero
    · simpa [hzero] using (Except.ok.inj h).symm
    · simp only [PeRtld.load_bind_eq_ok, hsize, Option.some.injEq, exists_eq_left'] at h
      split_ifs at h with hempty
      · simpa [hempty] using (Except.ok.inj h).symm
      · simp only [PeRtld.load_bind_eq_ok, PeRtld.failIf_bind_eq_ok] at h
        obtain ⟨_, -, -, h⟩ := h
        simpa [hzero, hempty] using (Except.ok.inj h).symm

end PeInMemory

namespace BothSucceed

variable {t : PeRtld.RelocState} (hchk : PeChecked f info) (hmem : PeInMemory f info loadBase m)
  (h : BothSucceed env f info loadBase imageSize delta w w' m t)
  (hplain : ∀ start fin, relocDirectory f info = some (start, fin) →
    PlainRelocs f info loadBase imageSize start fin)

include hchk hmem h hplain

/-- The list of the linker is the one of the loader for plain relocations. -/
theorem linkerTargets_eq : linkerTargets info loadBase imageSize delta m =
    relocTargets f loadBase (peRelocSites f info) := by
  rw [linkerTargets, linkerResult, PeRtld.relocResult]
  cases hfound : PeRtld.relocDir m (loadBase + (info.dataDirOffset - 112))
      (loadBase + info.sectionHeadersOffset) info.numberOfSections with
  | error stop =>
    -- Then the linker has an error too.
    have hwp : wp (linkerRelocations info loadBase imageSize delta) (fun _ _ => False)
        (fun _ _ => True) ⟨m, []⟩ := by
      rw [linkerRelocations, PeRtld.applyBaseRelocations, if_neg h.delta_ne, wp_bind, wp_get,
        hfound]
      exact wp_throw.2 trivial
    exact (wp_ok hwp h.linker).elim
  | ok found =>
    have hfound := hmem.relocDir_eq hchk hfound
    cases hdir : relocDirectory f info with
    | none =>
      rw [if_pos (peRelocate_of_none hdir h.loader)] at hfound
      rw [hfound, peRelocSites, hdir]
      rfl
    | some dir =>
      obtain ⟨start, fin⟩ := dir
      have hplain := hplain start fin hdir
      obtain ⟨hsome, hoff, hfin, hend⟩ := relocDirectory_eq_some.1 hdir
      obtain ⟨hrva, hdirSize⟩ := readDataDir_lt f info imageDirectoryEntryBasereloc
      have hfits := hplain.fits
      rw [if_neg hsome] at hfound
      rw [hfound, peRelocSites, hdir]
      have hread : start + (relocReadEnd f fin (f.size + 1) start - start) ≤ f.size := by omega
      subst hfin
      refine relocWalk_plain (p := 0) hread hrva (by omega) hend (by omega) (by omega)
        (Nat.sub_le_iff_le_add'.1 le_rfl) hplain.aligned hplain.plain fun k _ hk => ?_
      rw [Nat.add_assoc]
      exact hmem.contents _ _ (hplain.in_place k (by omega)) (by omega)

theorem sameRelocs : SameRelocs f info loadBase imageSize delta w m := by
  have hlist := h.linkerTargets_eq hchk hmem hplain
  have hpage : ∀ s ∈ peRelocSites f info, s.isDir64 f = true → s.headLen f loadBase = 8 := by
    intro s hs hdir
    rw [peRelocSites] at hs
    split at hs
    · exact absurd hs List.not_mem_nil
    · rename_i start fin hdirectory
      obtain ⟨b, hb, hsb⟩ := List.mem_flatMap.1 hs
      exact ((hplain start fin hdirectory).plain b hb s hsb hdir).one_page
  have hheads : relocHeads f loadBase (peRelocSites f info) =
      (relocTargets f loadBase (peRelocSites f info)).map (·, 8) := by
    rw [relocHeads, relocTargets, List.map_map]
    refine List.map_congr_left fun s hs => ?_
    obtain ⟨hs, hdir⟩ := List.mem_filter.1 hs
    rw [hpage s hs hdir]
    rfl
  refine ⟨fun a => by rw [hlist], fun a ha j hj => ?_, fun a ha j hj => by rw [hheads, hlist]⟩
  -- The target is on one page, which the loader has placed.
  rw [hlist] at ha
  obtain ⟨s, hs, rfl⟩ := List.mem_map.1 ha
  obtain ⟨hs, hdir⟩ := List.mem_filter.1 hs
  have hfits := s.headLen_fits f loadBase
  have htarget : s.target f loadBase = (loadBase + s.targetRva f) % 2 ^ 64 := rfl
  have hplaced := h.loaderSums.placed s hs hdir
  rw [hpage s hs hdir] at hfits
  simp only [World.Placed, pageSize] at hfits hplaced ⊢
  rwa [Nat.mod_eq_of_lt (by omega),
    show s.target f loadBase + j - (s.target f loadBase + j) % 4096 =
      s.target f loadBase - s.target f loadBase % 4096 by omega]

end BothSucceed

end

/-! ## Images with one section -/

/-- A child with the pages of the headers and of a section with `n` bytes of raw data, which
    are at the offset 288 of the file. -/
def World.twoPages (f : File) (n : ℕ) : World :=
  { World.initial with
    frames := fun c o => if c = 64 then f.byte o else if o < n then f.byte (288 + o) else 0
    child := fun v =>
      if v = 0x500000 then some ⟨64, 2⟩ else if v = 0x501000 then some ⟨65, 2⟩ else none
    pages := [⟨0x500000, 64, 2⟩, ⟨0x501000, 65, 2⟩] }

section

variable {f : File} {info : PeInfo} {n : ℕ}

theorem World.twoPages_entry {v : ℕ} {e : PageEntry} (h : (World.twoPages f n).entry v = some e) :
    (v = 0x500000 ∧ e = ⟨0x500000, 64, 2⟩) ∨ (v = 0x501000 ∧ e = ⟨0x501000, 65, 2⟩) := by
  have hkey : e.vaddr = v := key_of_lookup h
  have hmem : e ∈ [(⟨0x500000, 64, 2⟩ : PageEntry), ⟨0x501000, 65, 2⟩] := mem_of_lookup h
  rcases List.mem_cons.1 hmem with rfl | hmem
  · exact .inl ⟨hkey.symm, rfl⟩
  · obtain rfl := List.mem_singleton.1 hmem
    exact .inr ⟨hkey.symm, rfl⟩

theorem World.twoPages_inSync : (World.twoPages f n).InSync := by
  intro v e h
  rcases World.twoPages_entry h with ⟨rfl, rfl⟩ | ⟨rfl, rfl⟩
  · rfl
  · rfl

theorem World.twoPages_distinct : (World.twoPages f n).Distinct := by
  intro v v' e e' h h' hne
  rcases World.twoPages_entry h with ⟨rfl, rfl⟩ | ⟨rfl, rfl⟩ <;>
    rcases World.twoPages_entry h' with ⟨rfl, rfl⟩ | ⟨rfl, rfl⟩ <;> simp_all

theorem World.twoPages_only (v : ℕ) (h : (World.twoPages f n).entry v = none) :
    (World.twoPages f n).child v = none := by
  simp only [World.twoPages]
  split_ifs with hfirst hsecond
  · rw [hfirst] at h
    cases h
  · rw [hsecond] at h
    cases h
  · rfl

theorem World.twoPages_byte {v k : ℕ} (hv : v % 4096 = 0) (hk : k < 4096) :
    (World.twoPages f n).childByte (v + k) =
      ((World.twoPages f n).child v).map fun m => (World.twoPages f n).frames m.frame k := by
  have hoff : (v + k) % pageSize = k := by rw [pageSize]; omega
  rw [World.childByte, hoff, Nat.add_sub_cancel]

/-- The child has the image of a file with headers of 288 bytes and one section. -/
theorem World.twoPages_inMemory (sec : SectionHeader) (hheaders : info.sizeOfHeaders = 288)
    (hdir : info.dataDirOffset + 48 ≤ 288) (hsecs : peSections f info = [sec])
    (hva : sec.virtualAddress = 0x1000) (hptr : sec.pointerToRawData = 288)
    (hraw : sec.sizeOfRawData = n) (hn : n ≤ 4096) (hsize : 288 + n ≤ f.size) :
    PeInMemory f info 0x500000 (World.twoPages f n).childByte := by
  refine ⟨fun _ => by omega, fun k hk _ => ?_, fun rva off hoff _ => ?_⟩
  · rw [Nat.mod_eq_of_lt (by omega)]
    exact World.twoPages_byte rfl (by omega)
  · rw [rvaToFileOffset, hsecs, hheaders] at hoff
    split_ifs at hoff with hrva
    · obtain rfl := Option.some.inj hoff
      rw [Nat.mod_eq_of_lt (by omega)]
      exact World.twoPages_byte rfl (by omega)
    · split at hoff
      · cases hoff
      · rename_i sec' hfound
        obtain rfl : sec' = sec := by simpa using List.mem_of_find?_eq_some hfound
        have hin := List.find?_some hfound
        simp only [Bool.and_eq_true, decide_eq_true_eq] at hin
        simp only [hva, hptr, hraw] at hoff hin
        split_ifs at hoff with hlt
        obtain rfl := Option.some.inj hoff
        obtain ⟨k, rfl⟩ := Nat.exists_eq_add_of_le hin.1
        rw [Nat.add_sub_cancel_left] at hlt ⊢
        rw [Nat.mod_eq_of_lt (by omega), ← Nat.add_assoc]
        exact (World.twoPages_byte rfl (by omega)).trans (congrArg some (if_pos hlt.1))

end

/-- The header of a section of two pages, with `n` bytes of raw data. -/
def oneSection (n : ℕ) (hn : n < 2 ^ 32) : SectionHeader where
  virtualSize := 0x2000
  virtualAddress := 0x1000
  sizeOfRawData := n
  pointerToRawData := 288
  characteristics := 0xC0000000
  virtualSize_lt := by decide
  virtualAddress_lt := by decide
  sizeOfRawData_lt := hn
  pointerToRawData_lt := by decide

/-- A PE file whose relocation directory has a block with a relocation, a header that ends the
    walk, and four bytes that are not read. These are the first ones of the target. -/
def tailReloc : File where
  bytes := peRelocHeaderBytes 1 0x400000 0x3000 288 0x1000 24 ++
    sectionBytes 0x2000 0x1000 24 288 0xC0000000 ++
    (wordBytes 4 0x1000 ++ wordBytes 4 12 ++ wordBytes 2 0xA014 ++ wordBytes 2 0) ++ wordBytes 12 0
  length_lt := by simp [sectionBytes]

/-- What the checks read from the file. -/
def tailRelocInfo : PeInfo := resultOf (peValidate .x86_64 tailReloc) (by decide +kernel)

/-- A PE file whose relocation directory has a block of ten bytes at its start. Where a block
    starts directly behind it, it has a relocation for the word at 0x1100 of the image. -/
def oddBlock : File where
  bytes := peRelocHeaderBytes 1 0x400000 0x3000 288 0x1000 22 ++
    sectionBytes 0x2000 0x1000 22 288 0xC0000000 ++
    (wordBytes 4 0x1000 ++ wordBytes 4 10 ++ wordBytes 2 0 ++
      (wordBytes 4 0x1000 ++ wordBytes 4 12 ++ wordBytes 2 0 ++ wordBytes 2 0xA100))
  length_lt := by simp [sectionBytes]

/-- What the checks read from the file. -/
def oddBlockInfo : PeInfo := resultOf (peValidate .x86_64 oddBlock) (by decide +kernel)

end Trona
