import Trona.Loader.PeReloc

/-!
# What the PE parser reads

The parsing functions of `loader/pe_loader.rs` again, with every access to the file as a
step of its own, which is a fault when a byte of it is outside. The tests of the source
stand before the accesses, with sums of words that wrap.

* The headers, the data directories and the section table are only read inside of the file,
  and what is read is what the loader uses (`PeAccess.peValidate_eq`,
  `PeAccess.readDataDir_eq`, `PeAccess.rvaToFileOffset_eq`). The names of imported libraries
  are inside of it too (`PeAccess.peGetImports_ok`).
* The relocation pass trusts the size that a block states: `pe_reads_inside_iff` says for
  which files its entries are inside of the relocation directory.
-/

namespace Trona

namespace PeAccess

/-- `MAX_PE_IMPORTS`. -/
def maxPeImports : ℕ := 16

/-- `MAX_PE_IMPORT_NAME`. -/
def maxPeImportName : ℕ := 32

def peValidate (arch : Arch) (f : File) : Except (ReadStop PeError) PeInfo :=
  if f.size < 64 then .error (.error .tooSmall)
  else do
    let dos ← access (f.dosHeader 0)
    let peOffset := dos.eLfanew
    if dos.eMagic ≠ peDosMagic then .error (.error .notPe)
    else if (peOffset + 4 + 20) % 2 ^ 64 > f.size then .error (.error .tooSmall)
    else do
      let peSig ← access (f.number? peOffset 4)
      if peSig ≠ peSignature then .error (.error .notPe)
      else do
        let coffOffset := peOffset + 4
        let coff ← access (f.coffHeader coffOffset)
        let optOffset := coffOffset + 20
        if coff.machine ≠ arch.peMachine then .error (.error .badArch)
        else if coff.numberOfSections = 0 then .error (.error .noSections)
        else if (optOffset + 112) % 2 ^ 64 > f.size then .error (.error .tooSmall)
        else do
          let opt ← access (f.optionalHeader64 optOffset)
          let sectionHeadersOffset := optOffset + coff.sizeOfOptionalHeader
          let sectionHeadersEnd := sectionHeadersOffset + coff.numberOfSections * 40
          if opt.magic ≠ peOptMagicPe32plus then .error (.error .not64Bit)
          else if sectionHeadersEnd % 2 ^ 64 > f.size then .error (.error .tooSmall)
          else
            .ok (.ofHeaders coffOffset coff opt)

def readDataDir (f : File) (info : PeInfo) (index : ℕ) : Except (ReadStop PeError) DataDirectory :=
  if index ≥ info.numberOfRvaAndSizes then .ok ⟨0, 0⟩
  else
    let entryOffset := (info.dataDirOffset + index * 8) % 2 ^ 64
    if (entryOffset + 8) % 2 ^ 64 > f.size then .ok ⟨0, 0⟩
    else access (f.dataDirectory entryOffset)

/-- The section of an address relative to the image, from number `i` on. -/
def findSection (f : File) (info : PeInfo) (rva : ℕ) :
    (todo i : ℕ) → Except (ReadStop PeError) (Option SectionHeader)
  | 0, _ => .ok none
  | todo + 1, i =>
    let offset := (info.sectionHeadersOffset + i * 40) % 2 ^ 64
    if (offset + 40) % 2 ^ 64 > f.size then .ok none
    else do
      let sec ← access (f.sectionHeader offset)
      if sec.virtualAddress ≤ rva ∧ rva < (sec.virtualAddress + sec.vsize) % 2 ^ 32 then
        .ok (some sec)
      else findSection f info rva todo (i + 1)

def rvaToFileOffset (f : File) (info : PeInfo) (rva : ℕ) : Except (ReadStop PeError) (Option ℕ) :=
  if rva < info.sizeOfHeaders then .ok (some rva)
  else do
    let found ← findSection f info rva info.numberOfSections 0
    return found.bind fun sec =>
      let fileOff := sec.pointerToRawData + (rva - sec.virtualAddress)
      if rva - sec.virtualAddress < sec.sizeOfRawData ∧ fileOff < f.size then some fileOff
      else none

/-- The length of the name at an offset, up to a zero byte, the longest name or the end of
    the file. The byte is read before its number is compared with the longest name. -/
def nameLen (f : File) (nameOff : ℕ) : (fuel len : ℕ) → Except (ReadStop PeError) ℕ
  | 0, len => .ok len
  | fuel + 1, len =>
    if (nameOff + len) % 2 ^ 64 < f.size then do
      let b ← access (f.number? ((nameOff + len) % 2 ^ 64) 1)
      if b ≠ 0 ∧ len < maxPeImportName then nameLen f nameOff fuel (len + 1)
      else .ok len
    else .ok len

/-- The import descriptors from `pos` on, with the names found so far. -/
def importsFrom (f : File) (info : PeInfo) :
    (fuel pos : ℕ) → List (List UInt8) → Except (ReadStop PeError) (List (List UInt8))
  | 0, _, names => .ok names
  | fuel + 1, pos, names =>
    if (pos + 20) % 2 ^ 64 > f.size then .ok names
    else do
      let desc ← access (f.importDescriptor pos)
      if desc.isNull ∨ names.length ≥ maxPeImports then .ok names
      else do
        let next := (pos + 20) % 2 ^ 64
        match ← rvaToFileOffset f info desc.nameRva with
        | none => importsFrom f info fuel next names
        | some nameOff =>
          let len ← nameLen f nameOff (maxPeImportName + 1) 0
          if len > 0 then do
            let name ← access (f.slice? nameOff len)
            importsFrom f info fuel next (names ++ [name])
          else importsFrom f info fuel next names

/-- The names of the libraries that a file imports. The fuel is enough for every descriptor
    in the file. -/
def peGetImports (f : File) (info : PeInfo) : Except (ReadStop PeError) (List (List UInt8)) := do
  let importDir ← readDataDir f info imageDirectoryEntryImport
  if importDir.virtualAddress = 0 ∨ importDir.size = 0 then .ok []
  else
    match ← rvaToFileOffset f info importDir.virtualAddress with
    | none => .ok []
    | some importFileOff => importsFrom f info (f.size + 1) importFileOff []

/-- A relocation of a directory that ends at the offset `relocEnd`. -/
def relocateEntry (env : Env) (f : File) (loadBase delta relocEnd blockRva off : ℕ) :
    LoadM (ReadStop PeError) PUnit := do
  if off + 2 > relocEnd then throw (.error .outside)
  applyRelocation env (.error .relocFailed) loadBase delta blockRva off (f.le off 2)

/-- The blocks of a directory that ends at the offset `relocEnd`, from `pos` on. -/
def relocateBlocks (env : Env) (f : File) (loadBase delta relocEnd : ℕ) :
    (fuel pos : ℕ) → LoadM (ReadStop PeError) PUnit
  | 0, _ => return ⟨⟩
  | fuel + 1, pos =>
    if (pos + 8) % 2 ^ 64 ≤ relocEnd then
      match f.baseRelocation pos with
      | none => throw (.error .outside)
      | some block =>
        if block.sizeOfBlock = 0 then return ⟨⟩
        else if block.sizeOfBlock < 8 then throw (.error (.error .relocFailed))
        else do
          (List.range ((block.sizeOfBlock - 8) / 2)).forM fun i =>
            relocateEntry env f loadBase delta relocEnd block.virtualAddress
              ((pos + 8 + 2 * i) % 2 ^ 64)
          relocateBlocks env f loadBase delta relocEnd fuel
            (alignUp 4 ((pos + block.sizeOfBlock) % 2 ^ 64))
    else return ⟨⟩

def peRelocate (env : Env) (f : File) (info : PeInfo) (delta loadBase : ℕ) :
    LoadM (ReadStop PeError) PUnit :=
  match readDataDir f info imageDirectoryEntryBasereloc with
  | .error stop => throw (.error stop)
  | .ok relocDir =>
    if relocDir.virtualAddress = 0 ∨ relocDir.size = 0 then return ⟨⟩
    else
      match rvaToFileOffset f info relocDir.virtualAddress with
      | .error stop => throw (.error stop)
      | .ok none => throw (.error (.error .relocFailed))
      | .ok (some relocFileOff) =>
        let relocEnd := (relocFileOff + relocDir.size) % 2 ^ 64
        if relocEnd > f.size then throw (.error (.error .relocFailed))
        else relocateBlocks env f loadBase delta relocEnd (f.size + 1) relocFileOff

end PeAccess

/-! ## The headers -/

section Headers

variable {arch : Arch} {f : File} {info : PeInfo}

/-- The two numbers of a data directory are 32-bit numbers. -/
theorem readDataDir_lt (f : File) (info : PeInfo) (index : ℕ) :
    (readDataDir f info index).virtualAddress < 2 ^ 32 ∧
      (readDataDir f info index).size < 2 ^ 32 := by
  rw [readDataDir]
  split_ifs
  · decide
  · rw [File.dataDirectory]
    split_ifs
    · exact ⟨f.le_four_lt _, f.le_four_lt _⟩
    · decide

/-- A place in the file that is found for an address is in the lower half of the words. -/
theorem rvaToFileOffset_lt {rva off : ℕ} (h : rvaToFileOffset f info rva = some off) :
    off < 2 ^ 63 := by
  have hsize := f.size_lt
  have hheaders := info.sizeOfHeaders_lt
  rw [rvaToFileOffset] at h
  split_ifs at h with hrva
  · obtain rfl := Option.some.inj h
    omega
  · split at h
    · cases h
    · simp only at h
      split_ifs at h with hin
      obtain rfl := Option.some.inj h
      exact hin.2.trans hsize

namespace PeAccess

/-- The checks of the source are enough for the headers that are read after them. -/
theorem peValidate_eq (arch : Arch) (f : File) :
    peValidate arch f = (Trona.peValidate arch f).mapError .error := by
  have hpe := f.le_four_lt 60
  by_cases hdos : f.size < 64
  · rw [peValidate, if_pos hdos, Trona.peValidate, File.dosHeader, if_neg (by omega)]
    rfl
  rw [peValidate, if_neg hdos, Trona.peValidate, File.dosHeader, if_pos (by omega)]
  simp only [access, bind, Except.bind, Nat.zero_add]
  generalize f.le 60 4 = pe at hpe
  by_cases hmagic : f.le 0 2 ≠ peDosMagic
  · rw [if_pos hmagic, if_pos hmagic]
    rfl
  rw [if_neg hmagic, if_neg hmagic, Nat.mod_eq_of_lt (a := pe + 4 + 20) (by omega)]
  by_cases hcoff : pe + 4 + 20 > f.size
  · rw [if_pos hcoff, File.coffHeader, if_neg (by omega)]
    rfl
  have hopt := f.le_two_lt (pe + 4 + 16)
  have hsecs := f.le_two_lt (pe + 4 + 2)
  rw [if_neg hcoff, File.number?, if_pos (by omega), File.coffHeader, if_pos (by omega)]
  simp only
  by_cases hsig : f.le pe 4 ≠ peSignature
  · rw [if_pos hsig, if_pos hsig]
    rfl
  by_cases hmach : f.le (pe + 4) 2 ≠ arch.peMachine
  · simp only [if_neg hsig, if_pos hmach]
    rfl
  by_cases hnone : f.le (pe + 4 + 2) 2 = 0
  · simp only [if_neg hsig, if_neg hmach, if_pos hnone]
    rfl
  simp only [if_neg hsig, if_neg hmach, if_neg hnone]
  rw [Nat.mod_eq_of_lt (a := pe + 4 + 20 + 112) (by omega)]
  by_cases hsmall : pe + 4 + 20 + 112 > f.size
  · rw [if_pos hsmall, File.optionalHeader64, if_neg (by omega)]
    rfl
  rw [if_neg hsmall, File.optionalHeader64, if_pos (by omega)]
  simp only
  rw [Nat.mod_eq_of_lt (by omega)]
  split_ifs <;> rfl

theorem readDataDir_eq (h : PeChecked f info) (index : ℕ) :
    readDataDir f info index = .ok (Trona.readDataDir f info index) := by
  have hsize := f.size_lt
  have hdir := h.dataDir_le
  have hcount := h.numberOfRvaAndSizes_lt
  rw [readDataDir, Trona.readDataDir]
  split
  · rfl
  · rw [Nat.mod_eq_of_lt (a := info.dataDirOffset + index * 8) (by omega)]
    simp only [Nat.mod_eq_of_lt (a := info.dataDirOffset + index * 8 + 8) (b := 2 ^ 64) (by omega),
      File.dataDirectory]
    split_ifs with hout hin hin
    · omega
    · rfl
    · rfl
    · omega

/-- The section that is found is the one of the loader. -/
theorem findSection_eq {rva todo i : ℕ}
    (h : info.sectionHeadersOffset + (i + todo) * 40 ≤ f.size) :
    findSection f info rva todo i = .ok ((sectionsFrom f info todo i).find? fun sec =>
      sec.virtualAddress ≤ rva && rva < (sec.virtualAddress + sec.vsize) % 2 ^ 32) := by
  have hsize := f.size_lt
  induction todo generalizing i with
  | zero => rfl
  | succ todo ih =>
    have hsome : (f.sectionHeader (info.sectionHeadersOffset + i * 40)).isSome = true := by
      rw [File.sectionHeader, if_pos (by omega)]
      rfl
    obtain ⟨sec, hsec⟩ := Option.isSome_iff_exists.1 hsome
    rw [findSection, sectionsFrom,
      Nat.mod_eq_of_lt (a := info.sectionHeadersOffset + i * 40) (by omega),
      Nat.mod_eq_of_lt (by omega), if_neg (by omega), hsec]
    simp only [access, bind, Except.bind, List.find?_cons, ← Bool.decide_and]
    by_cases hfound : sec.virtualAddress ≤ rva ∧ rva < (sec.virtualAddress + sec.vsize) % 2 ^ 32
    · rw [if_pos hfound, decide_eq_true hfound]
    · rw [if_neg hfound, decide_eq_false hfound, ih (by omega)]
      simp only [← Bool.decide_and]

theorem rvaToFileOffset_eq (h : PeChecked f info) (rva : ℕ) :
    rvaToFileOffset f info rva = .ok (Trona.rvaToFileOffset f info rva) := by
  have hsecs := h.sections_le
  rw [rvaToFileOffset, Trona.rvaToFileOffset,
    findSection_eq (by rwa [Nat.zero_add]), ← peSections]
  split
  · rfl
  · simp only [bind, Except.bind]
    cases (peSections f info).find? fun sec => sec.virtualAddress ≤ rva &&
        rva < (sec.virtualAddress + sec.vsize) % 2 ^ 32 with
    | none => rfl
    | some sec => rfl

/-! ## Imports -/

/-- The length of a name is found without leaving the file, and the name is inside of it. -/
theorem nameLen_ok {nameOff fuel len : ℕ} (hoff : nameOff < 2 ^ 63)
    (hlen : len + fuel < 2 ^ 63) (hin : len = 0 ∨ nameOff + len ≤ f.size) :
    ∃ len', nameLen f nameOff fuel len = .ok len' ∧
      (len' = 0 ∨ nameOff + len' ≤ f.size) := by
  induction fuel generalizing len with
  | zero => exact ⟨len, rfl, hin⟩
  | succ fuel ih =>
    rw [nameLen, Nat.mod_eq_of_lt (by omega)]
    by_cases hlt : nameOff + len < f.size
    · rw [if_pos hlt, File.number?, if_pos (by omega)]
      simp only [access, bind, Except.bind]
      split
      · exact ih (by omega) (.inr (by omega))
      · exact ⟨len, rfl, hin⟩
    · rw [if_neg hlt]
      exact ⟨len, rfl, hin⟩

theorem importsFrom_ok (h : PeChecked f info) {fuel pos : ℕ} (hpos : pos < 2 ^ 63)
    (names : List (List UInt8)) :
    ∃ names', importsFrom f info fuel pos names = .ok names' := by
  have hsize := f.size_lt
  induction fuel generalizing pos names with
  | zero => exact ⟨names, rfl⟩
  | succ fuel ih =>
    rw [importsFrom, Nat.mod_eq_of_lt (by omega)]
    by_cases hout : pos + 20 > f.size
    · rw [if_pos hout]
      exact ⟨names, rfl⟩
    · -- The descriptor is in the file, and the next one starts at most at its end.
      have hnext : ∀ names, ∃ names', importsFrom f info fuel (pos + 20) names =
          .ok names' := ih (by omega)
      rw [if_neg hout, File.importDescriptor, if_pos (by omega)]
      simp only [access, bind, Except.bind]
      split
      · exact ⟨names, rfl⟩
      · rw [rvaToFileOffset_eq h]
        cases hname : Trona.rvaToFileOffset f info (f.le (pos + 12) 4) with
        | none => exact hnext names
        | some nameOff =>
          have hfuel : 0 + (maxPeImportName + 1) < 2 ^ 63 := by decide
          obtain ⟨len, hlen, hin⟩ := nameLen_ok (f := f) (rvaToFileOffset_lt hname) hfuel
            (.inl rfl)
          simp only [hlen]
          split
          · rw [File.slice?, if_pos (by omega)]
            exact hnext _
          · exact hnext names

/-- The names of the imported libraries are read from inside of the file. -/
theorem peGetImports_ok (h : PeChecked f info) :
    ∃ names, peGetImports f info = .ok names := by
  rw [peGetImports, readDataDir_eq h]
  simp only [bind, Except.bind]
  split
  · exact ⟨[], rfl⟩
  · rw [rvaToFileOffset_eq h]
    cases hoff : Trona.rvaToFileOffset f info
        (Trona.readDataDir f info imageDirectoryEntryImport).virtualAddress with
    | none => exact ⟨[], rfl⟩
    | some off => exact importsFrom_ok h (rvaToFileOffset_lt hoff) []

end PeAccess

end Headers

/-! ## Relocations -/

/-- The block at the offset `pos` ends before the directory does. Its size counts in entries
    of two bytes. -/
def BaseRelocation.Fits (block : BaseRelocation) (relocEnd pos : ℕ) : Prop :=
  pos + block.sizeOfBlock / 2 * 2 ≤ relocEnd

instance (block : BaseRelocation) (relocEnd pos : ℕ) : Decidable (block.Fits relocEnd pos) :=
  inferInstanceAs (Decidable (_ ≤ _))

/-- The reason of the loader to stop, next to the one that it reads outside. -/
def Stop.checked {ε : Type} : Stop ε → Stop (ReadStop ε)
  | .error e => .error (.error e)
  | .fault => .fault

section Relocations

variable {env : Env} {f : File} {loadBase delta relocEnd blockRva off fuel pos : ℕ} {w w' : World}
  {Q : PUnit → World → Prop} {E : Stop (ReadStop PeError) → World → Prop}

/-- An entry that is inside of the directory is applied as the loader does. -/
theorem PeAccess.relocateEntry_iff (hin : off + 2 ≤ relocEnd) (hend : relocEnd ≤ f.size) :
    wp (PeAccess.relocateEntry env f loadBase delta relocEnd blockRva off) Q E w ↔
      wp (Trona.relocateEntry env f loadBase delta blockRva off) Q (fun stop => E stop.checked)
        w := by
  have hdir : ¬off + 2 > relocEnd := by omega
  have hfile : ¬off + 2 > f.size := by omega
  simp only [PeAccess.relocateEntry, Trona.relocateEntry, applyRelocation, hdir, hfile, wp_bind,
    wp_ite, wp_throw, wp_pure, wp_get]
  cases w.entry (pageAlignDown ((loadBase + (blockRva + f.le off 2 % 2 ^ 12)) % 2 ^ 64)) with
  | none => simp [Stop.checked]
  | some p => simp [writeU64ToPage, updateWord, Stop.checked]

variable {s : RelocSite} {block : BaseRelocation}

theorem File.baseRelocation_size_lt (h : f.baseRelocation pos = some block) :
    block.sizeOfBlock < 2 ^ 32 := by
  rw [File.baseRelocation] at h
  split_ifs at h
  obtain rfl := Option.some.inj h
  exact f.le_four_lt _

/-- Blocks that fit are gone through as the loader does. -/
theorem PeAccess.relocateBlocks_iff (hend : relocEnd ≤ f.size) (hpos : pos + 8 < 2 ^ 64)
    (hfits : ∀ b ∈ relocBlocks f relocEnd fuel pos, b.2.Fits relocEnd b.1) :
    wp (PeAccess.relocateBlocks env f loadBase delta relocEnd fuel pos) Q E w ↔
      wp (Trona.relocateBlocks env f loadBase delta relocEnd fuel pos) Q
        (fun stop => E stop.checked) w := by
  have hsize := f.size_lt
  induction fuel generalizing pos w with
  | zero => exact wp_pure.trans wp_pure.symm
  | succ fuel ih =>
    rw [relocBlocks] at hfits
    rw [PeAccess.relocateBlocks, Trona.relocateBlocks, Nat.mod_eq_of_lt hpos]
    by_cases hin : pos + 8 ≤ relocEnd
    · rw [if_pos hin] at hfits ⊢
      rw [if_pos hin]
      cases hblock : f.baseRelocation pos with
      | none =>
        -- The header of a block is in the file.
        rw [File.baseRelocation, if_pos (by omega)] at hblock
        cases hblock
      | some block =>
        simp only [hblock] at hfits ⊢
        by_cases hsmall : block.sizeOfBlock < 8
        · simp [hsmall, Stop.checked]
        · rw [if_neg hsmall, List.forall_mem_cons] at hfits
          have hfit : pos + block.sizeOfBlock / 2 * 2 ≤ relocEnd := hfits.1
          have hnext := alignUp_four_le (pos + block.sizeOfBlock)
          rw [if_neg (by omega), if_neg hsmall, if_neg (by omega), if_neg hsmall, wp_bind, wp_bind,
            Nat.mod_eq_of_lt (a := pos + block.sizeOfBlock) (by omega)]
          simp only [fun w => ih (w := w) (by omega) hfits.2]
          refine wp_forM_congr fun i hi Q w => ?_
          have hi := List.mem_range.1 hi
          rw [Nat.mod_eq_of_lt (by omega)]
          exact PeAccess.relocateEntry_iff (by omega) hend
    · rw [if_neg hin, if_neg hin]
      exact wp_pure.trans wp_pure.symm

/-! ## A table with every target -/

/-- The page of the target is in the table. -/
def RelocSite.Ready (s : RelocSite) (f : File) (loadBase : ℕ) (w : World) : Prop :=
  (w.entry (pageAlignDown (s.target f loadBase))).isSome = true

theorem RelocSite.Ready.congr (h : s.Ready f loadBase w) (hw : w.SameMaps w') :
    s.Ready f loadBase w' := by
  rw [RelocSite.Ready, hw.entry_eq]
  exact h

/-- Where the kernel maps every page, a relocation whose target is in the table only stops
    the loader if it is outside of the directory. -/
theorem PeAccess.relocateEntry_ready (hs : s.Ready f loadBase w) :
    wp (PeAccess.relocateEntry Env.longScratch f loadBase delta relocEnd s.blockRva s.off)
      (fun _ w' => s.off + 2 ≤ relocEnd ∧ w.SameMaps w') (fun stop _ => stop = .error .outside)
      w := by
  have htarget : (loadBase + (s.blockRva + f.le s.off 2 % 2 ^ 12)) % 2 ^ 64 =
      s.target f loadBase := rfl
  obtain ⟨p, hp⟩ := Option.isSome_iff_exists.1 hs
  simp only [PeAccess.relocateEntry, applyRelocation, htarget, hp, writeU64ToPage, updateWord,
    Env.longScratch, Env.quiet, wp_bind, wp_ite, wp_throw, wp_pure, wp_get, wp_modify]
  refine ⟨fun _ => trivial, fun hin => ⟨fun _ => ⟨fun h => absurd rfl h, fun _ => ⟨fun _ =>
    ⟨fun h => absurd rfl h, fun _ => ⟨not_lt.1 hin, ⟨rfl, rfl, rfl⟩⟩⟩, fun h => ?_⟩⟩, fun _ => ?_⟩⟩
  · exact absurd (.inr trivial) h
  · exact ⟨not_lt.1 hin, .refl w⟩

/-- The entries of a block are inside of the directory, as far as the loop over them gets. -/
theorem PeAccess.relocateEntries_ready (hready : ∀ s ∈ block.sites pos, s.Ready f loadBase w)
    (hlt : pos + block.sizeOfBlock < 2 ^ 64) :
    wp ((List.range ((block.sizeOfBlock - 8) / 2)).forM fun i =>
      PeAccess.relocateEntry Env.longScratch f loadBase delta relocEnd block.virtualAddress
        ((pos + 8 + 2 * i) % 2 ^ 64))
      (fun _ w' => (∀ i ∈ List.range ((block.sizeOfBlock - 8) / 2),
        pos + 8 + 2 * i + 2 ≤ relocEnd) ∧ w.SameMaps w')
      (fun stop _ => stop = .error .outside) w := by
  refine wp_forM (fun done w' => (∀ i ∈ done, pos + 8 + 2 * i + 2 ≤ relocEnd) ∧
    w.SameMaps w') ⟨by simp, .refl w⟩ fun done i todo w₁ hl hI => ?_
  have hi : i < (block.sizeOfBlock - 8) / 2 := by
    rw [← List.mem_range, hl]
    simp
  have hs : RelocSite.Ready ⟨pos + 8 + 2 * i, block.virtualAddress⟩ f loadBase w₁ :=
    (hready _ (List.mem_map.2 ⟨i, List.mem_range.2 hi, rfl⟩)).congr hI.2
  rw [Nat.mod_eq_of_lt (by omega)]
  refine wp_post (PeAccess.relocateEntry_ready hs) fun _ w₂ h => ⟨?_, hI.2.trans h.2⟩
  rw [List.forall_mem_append]
  exact ⟨hI.1, by simpa using h.1⟩

/-- With all targets in the table, the walk reads outside of the directory or finds that
    every block fits. -/
theorem PeAccess.relocateBlocks_ready (hend : relocEnd ≤ f.size) (hpos : pos + 8 < 2 ^ 64)
    (hready : ∀ s ∈ relocSites f relocEnd fuel pos, s.Ready f loadBase w) :
    wp (PeAccess.relocateBlocks Env.longScratch f loadBase delta relocEnd fuel pos)
      (fun _ _ => ∀ b ∈ relocBlocks f relocEnd fuel pos, b.2.Fits relocEnd b.1)
      (fun stop _ => stop ≠ .error .outside →
        ∀ b ∈ relocBlocks f relocEnd fuel pos, b.2.Fits relocEnd b.1) w := by
  have hsize := f.size_lt
  induction fuel generalizing pos w with
  | zero => exact wp_pure.2 fun b hb => absurd hb List.not_mem_nil
  | succ fuel ih =>
    rw [relocSites, relocBlocks] at hready
    rw [PeAccess.relocateBlocks, relocBlocks, Nat.mod_eq_of_lt hpos]
    by_cases hin : pos + 8 ≤ relocEnd
    · rw [if_pos hin] at hready
      simp only [if_pos hin]
      cases hblock : f.baseRelocation pos with
      | none => simp
      | some block =>
        have hlt := File.baseRelocation_size_lt hblock
        simp only [hblock] at hready ⊢
        by_cases hsmall : block.sizeOfBlock < 8
        · simp [hsmall]
        · rw [if_neg hsmall, List.flatMap_cons, List.forall_mem_append] at hready
          have hnext := alignUp_four_le (pos + block.sizeOfBlock)
          simp only [if_neg hsmall, List.forall_mem_cons]
          rw [if_neg (by omega), wp_bind,
            Nat.mod_eq_of_lt (a := pos + block.sizeOfBlock) (by omega)]
          refine wp_mono (PeAccess.relocateEntries_ready hready.1 (by omega))
            (fun _ w₁ h => ?_) fun stop _ h hne => absurd h hne
          have hfit : block.Fits relocEnd pos := by
            rw [BaseRelocation.Fits]
            by_cases hnone : (block.sizeOfBlock - 8) / 2 = 0
            · omega
            · have hlast := h.1 ((block.sizeOfBlock - 8) / 2 - 1) (List.mem_range.2 (by omega))
              omega
          refine wp_mono (ih (by omega) fun s hs => (hready.2 s hs).congr h.2)
            (fun _ _ hrest => ⟨hfit, hrest⟩) fun stop _ hrest hne => ⟨hfit, hrest hne⟩
    · simp [if_neg hin]

/-! ## The relocation directory -/

variable {arch : Arch} {info : PeInfo} {start fin : ℕ}

theorem relocDirectory_eq_some : relocDirectory f info = some (start, fin) ↔
    ¬((readDataDir f info imageDirectoryEntryBasereloc).virtualAddress = 0 ∨
      (readDataDir f info imageDirectoryEntryBasereloc).size = 0) ∧
    rvaToFileOffset f info
      (readDataDir f info imageDirectoryEntryBasereloc).virtualAddress = some start ∧
    fin = start + (readDataDir f info imageDirectoryEntryBasereloc).size ∧ fin ≤ f.size := by
  rw [relocDirectory]
  split_ifs with hdir
  · simp [hdir]
  · cases rvaToFileOffset f info
        (readDataDir f info imageDirectoryEntryBasereloc).virtualAddress with
    | none => simp
    | some off =>
      grind

/-- If all blocks of the directory fit, then the relocation pass is the one of the loader. -/
theorem PeAccess.peRelocate_iff (h : PeChecked f info)
    (hfits : ∀ start fin, relocDirectory f info = some (start, fin) →
      ∀ b ∈ relocBlocks f fin (f.size + 1) start, b.2.Fits fin b.1) :
    wp (PeAccess.peRelocate env f info delta loadBase) Q E w ↔
      wp (Trona.peRelocate env f info delta loadBase) Q (fun stop => E stop.checked) w := by
  rw [PeAccess.peRelocate, Trona.peRelocate]
  simp only [PeAccess.readDataDir_eq h, PeAccess.rvaToFileOffset_eq h]
  split
  · exact wp_pure.trans wp_pure.symm
  · rename_i hdir
    cases hoff : Trona.rvaToFileOffset f info
        (Trona.readDataDir f info imageDirectoryEntryBasereloc).virtualAddress with
    | none => simp [Stop.checked]
    | some off =>
      have hlt := rvaToFileOffset_lt hoff
      have hdirSize := (readDataDir_lt f info imageDirectoryEntryBasereloc).2
      simp only [Nat.mod_eq_of_lt (a := off +
        (Trona.readDataDir f info imageDirectoryEntryBasereloc).size) (b := 2 ^ 64) (by omega)]
      split
      · simp [Stop.checked]
      · rename_i hend
        exact PeAccess.relocateBlocks_iff (not_lt.1 hend) (by omega)
          (hfits _ _ (relocDirectory_eq_some.2 ⟨hdir, hoff, rfl, not_lt.1 hend⟩))

/-- A machine with the pages of all targets in its table. -/
def World.ofTargets (f : File) (sites : List RelocSite) : World :=
  { World.initial with pages := sites.map fun s => ⟨pageAlignDown (s.target f 0), 0, 0⟩ }

theorem World.ofTargets_ready {sites : List RelocSite} (hs : s ∈ sites) :
    s.Ready f 0 (World.ofTargets f sites) := by
  have hmem : (⟨pageAlignDown (s.target f 0), 0, 0⟩ : PageEntry) ∈
      (World.ofTargets f sites).pages :=
    List.mem_map_of_mem hs
  have hfound : (lookup PageEntry.vaddr (World.ofTargets f sites).pages
      (pageAlignDown (s.target f 0))).isSome = true := lookup_isSome_of_mem hmem
  exact hfound

/-- If no relocation pass reads outside of the directory, then all blocks fit. -/
theorem PeAccess.fits_of_peRelocate (h : PeChecked f info)
    (hin : ∀ w, wp (PeAccess.peRelocate Env.longScratch f info 0 0) (fun _ _ => True)
      (fun stop _ => stop ≠ .error .outside) w)
    (hdir : relocDirectory f info = some (start, fin)) :
    ∀ b ∈ relocBlocks f fin (f.size + 1) start, b.2.Fits fin b.1 := by
  obtain ⟨hsome, hoff, hfin, hend⟩ := relocDirectory_eq_some.1 hdir
  have hsize := f.size_lt
  have hrun := hin (World.ofTargets f (relocSites f fin (f.size + 1) start))
  rw [PeAccess.peRelocate] at hrun
  simp only [PeAccess.readDataDir_eq h, PeAccess.rvaToFileOffset_eq h, if_neg hsome, hoff, ← hfin,
    Nat.mod_eq_of_lt (show fin < 2 ^ 64 by omega), if_neg (not_lt.2 hend)] at hrun
  have hboth := wp_and hrun (PeAccess.relocateBlocks_ready hend (by omega)
    fun s hs => World.ofTargets_ready hs)
  by_contra hnot
  exact not_wp_false (wp_mono hboth (fun _ _ h => hnot h.2) fun _ _ h => hnot (h.2 h.1))

end Relocations

/-! ## All reads -/

/-- The functions that parse a PE file only read inside of it, and relocations only inside of
    their directory, whatever the machine and the load address are. -/
structure PeReadsInside (arch : Arch) (f : File) : Prop where
  validate : PeAccess.peValidate arch f ≠ .error .outside
  dataDir : ∀ info, PeAccess.peValidate arch f = .ok info →
    ∀ index, PeAccess.readDataDir f info index ≠ .error .outside
  rva : ∀ info, PeAccess.peValidate arch f = .ok info →
    ∀ rva, PeAccess.rvaToFileOffset f info rva ≠ .error .outside
  imports : ∀ info, PeAccess.peValidate arch f = .ok info →
    PeAccess.peGetImports f info ≠ .error .outside
  relocate : ∀ info, PeAccess.peValidate arch f = .ok info → ∀ env delta loadBase w,
    wp (PeAccess.peRelocate env f info delta loadBase) (fun _ _ => True)
      (fun stop _ => stop ≠ .error .outside) w

theorem PeAccess.peValidate_eq_ok {arch : Arch} {f : File} {info : PeInfo} :
    PeAccess.peValidate arch f = .ok info ↔ Trona.peValidate arch f = .ok info := by
  rw [PeAccess.peValidate_eq]
  cases Trona.peValidate arch f <;> simp [Except.mapError]

/-- For every file: everything is read inside of the file, and relocations inside of their
    directory, if and only if every block that the walk through the relocation directory gets to
    ends before the directory does. -/
theorem pe_reads_inside_iff (arch : Arch) (f : File) :
    PeReadsInside arch f ↔
      ∀ info start fin, Trona.peValidate arch f = .ok info →
        relocDirectory f info = some (start, fin) →
        ∀ b ∈ relocBlocks f fin (f.size + 1) start, b.2.Fits fin b.1 := by
  constructor
  · intro h info start fin hinfo hdir
    refine PeAccess.fits_of_peRelocate (peValidate_checked hinfo) (fun w => ?_) hdir
    exact h.relocate info (PeAccess.peValidate_eq_ok.2 hinfo) _ _ _ w
  · intro hfits
    have hchecked : ∀ info, PeAccess.peValidate arch f = .ok info → PeChecked f info :=
      fun info hinfo => peValidate_checked (PeAccess.peValidate_eq_ok.1 hinfo)
    refine ⟨?_, fun info hinfo index => ?_, fun info hinfo rva => ?_, fun info hinfo => ?_,
      fun info hinfo env delta loadBase w => ?_⟩
    · rw [PeAccess.peValidate_eq]
      cases Trona.peValidate arch f <;> simp [Except.mapError]
    · rw [PeAccess.readDataDir_eq (hchecked info hinfo)]
      simp
    · rw [PeAccess.rvaToFileOffset_eq (hchecked info hinfo)]
      simp
    · obtain ⟨names, hnames⟩ := PeAccess.peGetImports_ok (hchecked info hinfo)
      rw [hnames]
      simp
    · refine (PeAccess.peRelocate_iff (hchecked info hinfo) fun start fin =>
        hfits info start fin (PeAccess.peValidate_eq_ok.1 hinfo)).2 ?_
      -- The loader has no other reason to stop than an error or a fault.
      refine wp_mono (peRelocate_sameMaps w) (fun _ _ _ => trivial) fun stop _ _ => ?_
      cases stop <;> simp [Stop.checked]

/-- A PE file that ends with its relocation directory of 12 bytes. The size of the block in it
    is 16. -/
def longBlock : File where
  bytes := peRelocHeaderBytes 1 0x400000 0x3000 288 0x1000 12 ++
    sectionBytes 0x2000 0x1000 12 288 0xC0000000 ++
    wordBytes 4 0x1000 ++ wordBytes 4 16 ++ wordBytes 2 0xA100 ++ wordBytes 2 0
  length_lt := by simp [sectionBytes]

/-- What the checks read from the file. -/
def longBlockInfo : PeInfo := resultOf (Trona.peValidate .x86_64 longBlock) (by decide +kernel)

/-- The third entry of the block is behind the end of the directory and of the file. The
    relocation pass reads it, and a load at another address than the preferred one ends there. -/
theorem longBlock_outside :
    ∃ info, PeAccess.peValidate .x86_64 longBlock = .ok info ∧
      relocDirectory longBlock info = some (288, 300) ∧ longBlock.size = 300 ∧
      ¬PeReadsInside .x86_64 longBlock ∧
      wp (peLoad .x86_64 Env.quiet longBlock 0x500000) (fun _ _ => False)
        (fun stop _ => stop = .fault) World.initial := by
  have hinfo : PeAccess.peValidate .x86_64 longBlock = .ok longBlockInfo :=
    PeAccess.peValidate_eq_ok.2 (eq_ok_resultOf _)
  have hrun : wp (PeAccess.peRelocate Env.quiet longBlock longBlockInfo 0x100000 0x500000)
      (fun _ _ => False) (fun stop _ => stop = .error .outside)
      { World.initial with pages := [⟨0x501000, 64, 0⟩] } := by decide +kernel
  refine ⟨longBlockInfo, hinfo, by decide +kernel, by decide +kernel, fun h => ?_,
    by decide +kernel⟩
  exact not_wp_false (wp_mono (wp_and hrun (h.relocate _ hinfo _ _ _ _)) (fun _ _ h => h.1)
    fun _ _ h => h.2 h.1)

end Trona
