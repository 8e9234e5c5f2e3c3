import Trona.Rtld.Pe

/-!
# The base relocations of the PE linker

`apply_base_relocations` (`rtld/pe/rtld_pe_main.c`): an image that is not at its preferred
address is relocated in memory. The relocation directory is part of the image, and is read
while the words of the image are changed.

The state has, next to the memory, the addresses of the words that were relocated. What the walk
through the blocks does to it is a function (`relocWalk`), which also says where the blocks were
that it has come to (`applyBlocks_walk`).

The import lookup table may be one of the things that are relocated. An entry is then taken back
to what it was, which is inferred from its value (`peNormalizeImportLookupEntry_iff`).
-/

namespace Trona

namespace PeRtld

/-- The memory during the relocations, and the addresses of the words relocated so far. -/
structure RelocState where
  mem : Memory
  patches : List ℕ

/-- Relocate the word at an address. -/
def RelocState.setWord (s : RelocState) (target v : ℕ) : RelocState where
  mem := s.mem.writeLe target 8 v
  patches := s.patches ++ [target % 2 ^ 64]

abbrev RelocM := EStateM (Stop ℤ) RelocState

/-- Read a number from memory. -/
def readLe (a n : ℕ) : RelocM ℕ := do
  let s ← get
  match s.mem.le a n with
  | none => throw .fault
  | some v => return v

/-- `rva_to_offset`, from the section `i` on. Its sums are those of 32-bit numbers. -/
def rvaToOffset (m : Memory) (sections rva : ℕ) : (todo i : ℕ) → Option ℕ
  | 0, _ => some 0
  | todo + 1, i => do
    let secRva ← m.le (sections + i * 40 + 12) 4
    let secSize ← m.le (sections + i * 40 + 8) 4
    if secRva ≤ rva ∧ rva < (secRva + secSize) % 2 ^ 32 then
      let pointerToRawData ← m.le (sections + i * 40 + 20) 4
      return (pointerToRawData + (rva - secRva)) % 2 ^ 32
    else rvaToOffset m sections rva todo (i + 1)

/-- The relocation directory, if there is one. `opt` and `sections` are the addresses of the
    optional header and of the section table. -/
def relocDir (m : Memory) (opt sections numSections : ℕ) :
    Except (Stop ℤ) (Option DataDirectory) := do
  let numberOfRvaAndSizes ← load (m.le (opt + 108) 4)
  if numberOfRvaAndSizes ≤ imageDirectoryEntryBasereloc then return none
  else
    let virtualAddress ← load (m.le (opt + 112 + imageDirectoryEntryBasereloc * 8) 4)
    if virtualAddress = 0 then return none
    else
      let size ← load (m.le (opt + 112 + imageDirectoryEntryBasereloc * 8 + 4) 4)
      if size = 0 then return none
      else
        let relocOffset ← load (rvaToOffset m sections virtualAddress numSections 0)
        failIf (relocOffset = 0) (-1)
        return some ⟨virtualAddress, size⟩

/-- Apply the entry at an address, of the block at another one. A target outside of the image
    is skipped. -/
def applyEntry (imageBase imageSize delta block entry : ℕ) : RelocM PUnit := do
  let e ← readLe entry 2
  if e / 2 ^ 12 = imageRelBasedDir64 then
    let virtualAddress ← readLe block 4
    let targetRva := (virtualAddress + e % 2 ^ 12) % 2 ^ 32
    if targetRva + 8 ≤ imageSize then
      let old ← readLe (imageBase + targetRva) 8
      modify (·.setWord (imageBase + targetRva) (old + delta))

/-- The blocks of relocations from an address on. The size of a block is read once for the
    number of its entries, and again for the address of the next block. The fuel is enough: the
    next block is at a higher address, or its size has become zero and it is the last one. -/
def applyBlocks (imageBase imageSize delta relocEnd : ℕ) : (fuel relocData : ℕ) → RelocM PUnit
  | 0, _ => return ⟨⟩
  | fuel + 1, relocData =>
    if relocData + 8 ≤ relocEnd then do
      let sizeOfBlock ← readLe (relocData + 4) 4
      if sizeOfBlock < 8 then return ⟨⟩
      else
        (List.range ((sizeOfBlock - 8) / 2)).forM fun i =>
          applyEntry imageBase imageSize delta relocData (relocData + 8 + 2 * i)
        let sizeOfBlock ← readLe (relocData + 4) 4
        applyBlocks imageBase imageSize delta relocEnd fuel (relocData + sizeOfBlock)
    else return ⟨⟩

/-- Relocate an image. -/
def applyBaseRelocations (imageBase imageSize opt sections numSections delta : ℕ) : RelocM PUnit :=
  if delta = 0 then return ⟨⟩
  else do
    let s ← get
    match relocDir s.mem opt sections numSections with
    | .error stop => throw stop
    | .ok none => return ⟨⟩
    | .ok (some dir) =>
      applyBlocks imageBase imageSize delta (imageBase + dir.virtualAddress + dir.size)
        (dir.size + 1) (imageBase + dir.virtualAddress)

/-! ## The walk as a function -/

section

variable (imageBase imageSize delta : ℕ)

/-- The state after the entry with the number `i` of the block at an address. Here and in the
    rest of the walk, what cannot be read counts as zero. -/
def relocEntry (block : ℕ) (s : RelocState) (i : ℕ) : RelocState :=
  let e := (s.mem.le (block + 8 + 2 * i) 2).getD 0
  let targetRva := ((s.mem.le block 4).getD 0 + e % 2 ^ 12) % 2 ^ 32
  if e / 2 ^ 12 = imageRelBasedDir64 ∧ targetRva + 8 ≤ imageSize then
    s.setWord (imageBase + targetRva) ((s.mem.le (imageBase + targetRva) 8).getD 0 + delta)
  else s

/-- The state after the entries of a block. -/
def relocBlock (block n : ℕ) (s : RelocState) : RelocState :=
  (List.range n).foldl (relocEntry imageBase imageSize delta block) s

/-- The size of the block at an address. -/
def RelocState.sizeOfBlock (s : RelocState) (block : ℕ) : ℕ := (s.mem.le (block + 4) 4).getD 0

/-- The blocks that the walk comes to, with their sizes then, and the state at its end. -/
def relocWalk (relocEnd : ℕ) : (fuel relocData : ℕ) → RelocState → List (ℕ × ℕ) × RelocState
  | 0, _, s => ([], s)
  | fuel + 1, relocData, s =>
    if relocData + 8 ≤ relocEnd then
      let sizeOfBlock := s.sizeOfBlock relocData
      if sizeOfBlock < 8 then ([(relocData, sizeOfBlock)], s)
      else
        let s' := relocBlock imageBase imageSize delta relocData ((sizeOfBlock - 8) / 2) s
        let rest := relocWalk relocEnd fuel (relocData + s'.sizeOfBlock relocData) s'
        ((relocData, sizeOfBlock) :: rest.1, rest.2)
    else ([], s)

/-- The walk through a directory of an image in memory. -/
def dirWalk (m : Memory) (dir : DataDirectory) : List (ℕ × ℕ) × RelocState :=
  relocWalk imageBase imageSize delta (imageBase + dir.virtualAddress + dir.size) (dir.size + 1)
    (imageBase + dir.virtualAddress) ⟨m, []⟩

/-- The state after the relocations of an image that is not at its preferred address. -/
def relocResult (opt sections numSections : ℕ) (m : Memory) : RelocState :=
  match relocDir m opt sections numSections with
  | .ok (some dir) => (dirWalk imageBase imageSize delta m dir).2
  | _ => ⟨m, []⟩

end

section

variable {imageBase imageSize delta block n relocEnd fuel relocData a v : ℕ} {s : RelocState}
  {E : Stop ℤ → RelocState → Prop}

theorem relocBlock_succ :
    relocBlock imageBase imageSize delta block (n + 1) s =
      relocEntry imageBase imageSize delta block
        (relocBlock imageBase imageSize delta block n s) n := by
  rw [relocBlock, List.range_succ, List.foldl_append]
  rfl

theorem wp_readLe {Q : ℕ → RelocState → Prop} (h : s.mem.le a n = some v) :
    wp (readLe a n) Q E s ↔ Q v s := by
  rw [readLe, wp_bind, wp_get, h]
  exact wp_pure

theorem wp_readLe_none {Q : ℕ → RelocState → Prop} (h : s.mem.le a n = none) :
    wp (readLe a n) Q E s ↔ E .fault s := by
  rw [readLe, wp_bind, wp_get, h]
  exact wp_throw

/-- Reading a number changes nothing. -/
theorem wp_readLe_of {Q : ℕ → RelocState → Prop}
    (h : ∀ v, s.mem.le a n = some v → Q v s) : wp (readLe a n) Q (fun _ _ => True) s := by
  cases hv : s.mem.le a n with
  | none => exact (wp_readLe_none hv).2 trivial
  | some v => exact (wp_readLe hv).2 (h v hv)

/-- An entry that is applied is applied as the function says. -/
theorem applyEntry_walk (i : ℕ) :
    wp (applyEntry imageBase imageSize delta block (block + 8 + 2 * i))
      (fun _ t => t = relocEntry imageBase imageSize delta block s i) (fun _ _ => True) s := by
  rw [applyEntry, wp_bind]
  refine wp_readLe_of fun e he => ?_
  simp only [wp_ite, wp_bind, wp_pure]
  rw [relocEntry, he, Option.getD_some]
  refine ⟨fun htype => wp_readLe_of fun va hva => ?_, fun htype => (if_neg fun h => htype h.1).symm⟩
  rw [hva, Option.getD_some]
  refine ⟨fun hin => wp_readLe_of fun v hv => wp_modify.2 ?_, fun hin => ?_⟩
  · rw [if_pos ⟨htype, hin⟩, hv, Option.getD_some]
  · exact (if_neg fun h => hin h.2).symm

/-- A walk that ends has done what the function says. -/
theorem applyBlocks_walk :
    wp (applyBlocks imageBase imageSize delta relocEnd fuel relocData)
      (fun _ t => t = (relocWalk imageBase imageSize delta relocEnd fuel relocData s).2)
      (fun _ _ => True) s := by
  induction fuel generalizing relocData s with
  | zero => exact wp_pure.2 rfl
  | succ fuel ih =>
    rw [applyBlocks, relocWalk]
    split_ifs with hin
    · rw [wp_bind]
      refine wp_readLe_of fun size hsize => ?_
      simp only [RelocState.sizeOfBlock, hsize, Option.getD_some]
      split_ifs with hsmall
      · exact wp_pure.2 rfl
      · rw [wp_bind]
        refine wp_post (wp_forM (fun done t => t = done.foldl
          (relocEntry imageBase imageSize delta relocData) s) rfl fun done i todo t _ ht => ?_)
          fun _ t ht => ?_
        · rw [List.foldl_append, ht]
          exact applyEntry_walk i
        · rw [wp_bind]
          refine wp_readLe_of fun size' hsize' => ?_
          rw [← relocBlock] at ht
          rw [ht] at hsize' ⊢
          simp only [hsize', Option.getD_some]
          exact ih
    · exact wp_pure.2 rfl

theorem applyBaseRelocations_result {opt sections numSections : ℕ} {m : Memory}
    (hdelta : delta ≠ 0) :
    wp (applyBaseRelocations imageBase imageSize opt sections numSections delta)
      (fun _ t => t = relocResult imageBase imageSize delta opt sections numSections m)
      (fun _ _ => True) ⟨m, []⟩ := by
  rw [applyBaseRelocations, if_neg hdelta, wp_bind, wp_get, relocResult]
  cases relocDir m opt sections numSections with
  | error stop => exact wp_throw.2 trivial
  | ok found =>
    cases found with
    | none => exact wp_pure.2 rfl
    | some dir => exact applyBlocks_walk

end

/-! ## Import lookup entries -/

/-- An entry is an ordinal, the address of a name in the image, or the end of the table. -/
def peIsValidImportLookupEntry (entry imageSize : BitVec 64) : Bool :=
  if entry = 0 then true
  else if entry &&& 1 <<< 63 ≠ 0 then entry &&& 0x7FFFffffFFFF0000 = 0
  else entry + 2 ≤ imageSize

/-- An entry of a table that is the import address table too may have been relocated. -/
def peNormalizeImportLookupEntry (entry delta imageSize : BitVec 64) (iltAliasesIat : Bool) :
    BitVec 64 :=
  if !iltAliasesIat || peIsValidImportLookupEntry entry imageSize then entry
  else
    let recovered := entry - delta
    if peIsValidImportLookupEntry recovered imageSize then recovered else entry

/-- A valid entry is what both it and its relocated form are taken for, exactly when the relocated
    form is not a valid entry too. -/
theorem peNormalizeImportLookupEntry_iff {entry delta imageSize : BitVec 64}
    (hvalid : peIsValidImportLookupEntry entry imageSize = true) :
    (peNormalizeImportLookupEntry entry delta imageSize true = entry ∧
        peNormalizeImportLookupEntry (entry + delta) delta imageSize true = entry) ↔
      delta = 0 ∨ peIsValidImportLookupEntry (entry + delta) imageSize = false := by
  have hraw : peNormalizeImportLookupEntry entry delta imageSize true = entry := by
    simp [peNormalizeImportLookupEntry, hvalid]
  rw [and_iff_right hraw, peNormalizeImportLookupEntry]
  cases hshifted : peIsValidImportLookupEntry (entry + delta) imageSize with
  | true => simp
  | false =>
    simp only [BitVec.add_sub_cancel, hvalid, if_true]
    simp

theorem peNormalizeImportLookupEntry_iff_far :
    peNormalizeImportLookupEntry 0x20000 0x70000000 0x40000 true = 0x20000 ∧
      peNormalizeImportLookupEntry 0x70020000 0x70000000 0x40000 true = 0x20000 :=
  (@peNormalizeImportLookupEntry_iff 0x20000 0x70000000 0x40000 (by decide)).2 (.inr (by decide))

/-- An image that is moved by less than its size: the relocated entry is taken for another one. -/
theorem peNormalizeImportLookupEntry_near :
    peIsValidImportLookupEntry 0x20000 0x40000 = true ∧
      peNormalizeImportLookupEntry (0x20000 + 0x10000) 0x10000 0x40000 true ≠ 0x20000 := by
  decide

end PeRtld

end Trona
