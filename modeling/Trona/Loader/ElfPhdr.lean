import Trona.Loader.Complete
import Trona.Loader.ElfReloc

/-!
# The program headers in the child

`elf_get_phdr_info` (`loader/elf_dynamic.rs`) computes AT_PHDR: where the program-header
table of a file is when `elf_load` has loaded the file at the same address.

* The address is right: it is the address of the segment that has the table, moved by the
  load bias, plus the offset of the table in the segment (`TableIn.elfGetPhdrInfo_eq`).
* The bytes there are those of the file, but for the pages that the segment shares with an
  earlier one: where the frame of such a page cannot be mapped at the scratch address,
  `elf_load` leaves out the copy and goes on (`elfGetPhdrInfo_table_iff`).
-/

namespace Trona

/-! ## The search -/

/-- What `elf_compute_phdr_elf_vaddr` has found so far. -/
structure PhdrScan where
  minLoadVaddr : ℕ
  ptPhdrVaddr : Option ℕ
  loadMappedPhdrVaddr : Option ℕ

/-- The part of the file that a segment loads has the file's `[ePhoff, phdrFileEnd)`. -/
def Elf64Phdr.Maps (ph : Elf64Phdr) (ePhoff phdrFileEnd : ℕ) : Prop :=
  ph.pOffset ≤ ePhoff ∧ phdrFileEnd ≤ ph.pOffset + ph.pFilesz

instance (ph : Elf64Phdr) (ePhoff phdrFileEnd : ℕ) : Decidable (ph.Maps ePhoff phdrFileEnd) :=
  inferInstanceAs (Decidable (_ ∧ _))

/-- The address of the file's offset `off` in a segment. -/
def Elf64Phdr.vaddrOf (ph : Elf64Phdr) (off : ℕ) : ℕ :=
  (ph.pVaddr + wsub off ph.pOffset) % 2 ^ 64

/-- One header. The sum of a segment's offset and its size is checked. -/
def PhdrScan.visit (ePhoff phdrFileEnd : ℕ) (s : PhdrScan) (ph : Elf64Phdr) : Option PhdrScan :=
  if ph.pType = ptLoad then
    if ph.pOffset + ph.pFilesz < 2 ^ 64 then
      some { s with
        minLoadVaddr := if ph.pVaddr < s.minLoadVaddr then ph.pVaddr else s.minLoadVaddr
        loadMappedPhdrVaddr := if ph.Maps ePhoff phdrFileEnd then some (ph.vaddrOf ePhoff)
          else s.loadMappedPhdrVaddr }
    else none
  else if ph.pType = ptPhdr then some { s with ptPhdrVaddr := some ph.pVaddr }
  else some s

/-- The loop over the headers of the table at `phdrPtr`, from number `i` on. It stops at a
    header that is not in the table. The outer option says whether the headers could be
    read. -/
def phdrScanFrom (f : File) (phdrPtr phentsz phdrBytesLen ePhoff phdrFileEnd : ℕ) :
    (todo i : ℕ) → PhdrScan → Option (Option PhdrScan)
  | 0, _, s => some (some s)
  | todo + 1, i, s =>
    if i * phentsz ≥ 2 ^ 64 then some none
    else if (i * phentsz + 56) % 2 ^ 64 > phdrBytesLen then some (some s)
    else
      match f.elf64Phdr (phdrPtr + i * phentsz) with
      | none => none
      | some ph =>
        match s.visit ePhoff phdrFileEnd ph with
        | none => some none
        | some s' =>
          phdrScanFrom f phdrPtr phentsz phdrBytesLen ePhoff phdrFileEnd todo (i + 1) s'

/-- The address of the table in the file's own addresses, and the least address of a
    segment. -/
def elfComputePhdrElfVaddr (f : File) (phdrPtr phnum phentsz phdrBytesLen ePhoff : ℕ) :
    Option (Option (ℕ × ℕ)) :=
  if phnum * phentsz ≥ 2 ^ 64 then some none
  else if ePhoff + phnum * phentsz ≥ 2 ^ 64 then some none
  else
    (phdrScanFrom f phdrPtr phentsz phdrBytesLen ePhoff (ePhoff + phnum * phentsz) phnum 0
      ⟨2 ^ 64 - 1, none, none⟩).map fun found => found.bind fun s =>
        if s.minLoadVaddr = 2 ^ 64 - 1 then none
        else (s.ptPhdrVaddr.or s.loadMappedPhdrVaddr).map fun vaddr => (vaddr, s.minLoadVaddr)

/-- The offset of the table from the load address. -/
def elfGetPhdrLoadOffset (f : File) (phdrPtr phnum phentsz phdrBytesLen ePhoff : ℕ) :
    Option (Option ℕ) :=
  (elfComputePhdrElfVaddr f phdrPtr phnum phentsz phdrBytesLen ePhoff).map fun found =>
    found.map fun p => wsub p.1 p.2

/-- What a process is told of its program headers: AT_PHDR, AT_PHENT and AT_PHNUM. -/
structure PhdrInfo where
  phdrVaddr : ℕ
  phent : ℕ
  phnum : ℕ
  deriving DecidableEq

/-- `elf_get_phdr_info`: what it gives when it returns 0. The outer option says whether the
    headers could be read. -/
def elfGetPhdrInfo (f : File) (loadBase : ℕ) : Option (Option PhdrInfo) :=
  match f.elf64Ehdr 0 with
  | none => some none
  | some ehdr =>
    let phdrBytesLen := ehdr.ePhnum * ehdr.ePhentsize
    if phdrBytesLen ≥ 2 ^ 64 then some none
    else if phdrBytesLen = 0 ∨ (ehdr.ePhoff + phdrBytesLen) % 2 ^ 64 > f.size then some none
    else
      (elfGetPhdrLoadOffset f ehdr.ePhoff ehdr.ePhnum ehdr.ePhentsize phdrBytesLen
        ehdr.ePhoff).map fun found => found.map fun off =>
          ⟨(loadBase + off) % 2 ^ 64, ehdr.ePhentsize, ehdr.ePhnum⟩

/-! ## What the search finds -/

section

variable {f : File} {ehdr : Elf64Ehdr} {phs : List Elf64Phdr} {s : PhdrScan}
  {ePhoff phdrFileEnd : ℕ}

/-- The last segment that has the table. -/
def lastMapping (ePhoff phdrFileEnd : ℕ) (phs : List Elf64Phdr) : Option Elf64Phdr :=
  (phs.filter fun ph => ph.isLoad && ph.Maps ePhoff phdrFileEnd).getLast?

/-- The last PT_PHDR header. -/
def lastPtPhdr (phs : List Elf64Phdr) : Option Elf64Phdr :=
  (phs.filter fun ph => ph.pType = ptPhdr).getLast?

theorem or_map_getLast?_cons {α β : Type} (g : α → β) (a : α) (l : List α) (b : Option β) :
    ((a :: l).getLast?.map g).or b = (l.getLast?.map g).or (some (g a)) := by
  rw [List.getLast?_cons]
  cases l.getLast? <;> rfl

/-- The scan of a list of headers whose sums do not wrap: the least address, the last
    PT_PHDR header and the last segment that has the table. -/
theorem PhdrScan.foldlM_visit
    (hno : ∀ ph ∈ phs, ph.isLoad = true → ph.pOffset + ph.pFilesz < 2 ^ 64) :
    phs.foldlM (PhdrScan.visit ePhoff phdrFileEnd) s = some
      ⟨foldMin Elf64Phdr.pVaddr s.minLoadVaddr (phs.filter Elf64Phdr.isLoad),
        ((lastPtPhdr phs).map Elf64Phdr.pVaddr).or s.ptPhdrVaddr,
        ((lastMapping ePhoff phdrFileEnd phs).map (·.vaddrOf ePhoff)).or
          s.loadMappedPhdrVaddr⟩ := by
  induction phs generalizing s with
  | nil => rfl
  | cons ph phs ih =>
    have hno' : ∀ ph ∈ phs, ph.isLoad = true → ph.pOffset + ph.pFilesz < 2 ^ 64 :=
      fun ph' hph' => hno ph' (List.mem_cons_of_mem _ hph')
    rw [List.foldlM_cons, PhdrScan.visit]
    by_cases hl : ph.pType = ptLoad
    · -- A segment may have the table. The last one that has it counts.
      have hload : ph.isLoad = true := decide_eq_true hl
      have hphdr : ¬ph.pType = ptPhdr := by rw [hl]; decide
      rw [if_pos hl, if_pos (hno ph (by simp) hload), Option.bind_eq_bind, Option.bind_some,
        ih hno']
      rw [List.filter_cons_of_pos hload, lastPtPhdr, lastPtPhdr,
        List.filter_cons_of_neg (by simpa using hphdr)]
      by_cases hmaps : ph.Maps ePhoff phdrFileEnd
      · rw [if_pos hmaps, lastMapping, lastMapping,
          List.filter_cons_of_pos (by simp [hload, hmaps]), or_map_getLast?_cons]
        rfl
      · rw [if_neg hmaps, lastMapping, lastMapping, List.filter_cons_of_neg (by simp [hmaps])]
        rfl
    · have hload : ¬ph.isLoad = true := by simpa [Elf64Phdr.isLoad] using hl
      rw [if_neg hl, List.filter_cons_of_neg hload, lastMapping,
        List.filter_cons_of_neg (by simp [hload]), ← lastMapping]
      by_cases hphdr : ph.pType = ptPhdr
      · rw [if_pos hphdr, Option.bind_eq_bind, Option.bind_some, ih hno', lastPtPhdr, lastPtPhdr,
          List.filter_cons_of_pos (by simpa using hphdr), or_map_getLast?_cons]
      · rw [if_neg hphdr, Option.bind_eq_bind, Option.bind_some, ih hno', lastPtPhdr, lastPtPhdr,
          List.filter_cons_of_neg (by simpa using hphdr)]

/-- The loop goes through the headers that `elf_load` reads, when the table is in the file
    and its entries have room for a header. -/
theorem phdrScanFrom_eq (hent : 56 ≤ ehdr.ePhentsize)
    (htable : ehdr.ePhoff + ehdr.ePhnum * ehdr.ePhentsize ≤ f.size) {todo i : ℕ}
    (hi : i + todo = ehdr.ePhnum) (hphs : phdrsFrom f ehdr todo i = some phs) :
    phdrScanFrom f ehdr.ePhoff ehdr.ePhentsize (ehdr.ePhnum * ehdr.ePhentsize) ePhoff phdrFileEnd
      todo i s = some (phs.foldlM (PhdrScan.visit ePhoff phdrFileEnd) s) := by
  induction todo generalizing i phs s with
  | zero =>
    obtain rfl := Option.some.inj hphs
    rfl
  | succ todo ih =>
    have hsize := f.size_lt
    -- The entry `i` ends in the table, so that neither bound of the loop is met.
    have hlast : (i + 1) * ehdr.ePhentsize ≤ ehdr.ePhnum * ehdr.ePhentsize :=
      Nat.mul_le_mul_right _ (by omega)
    rw [Nat.succ_mul] at hlast
    rw [phdrsFrom, Nat.mod_eq_of_lt (show ehdr.ePhoff + i * ehdr.ePhentsize < 2 ^ 64 by omega),
      Nat.mod_eq_of_lt (by omega), if_neg (by omega)] at hphs
    rw [phdrScanFrom, Nat.mod_eq_of_lt (by omega), if_neg (by omega), if_neg (by omega)]
    cases hph : f.elf64Phdr (ehdr.ePhoff + i * ehdr.ePhentsize) with
    | none => simp [hph] at hphs
    | some ph =>
      rw [hph] at hphs
      obtain ⟨rest, hrest, rfl⟩ := Option.map_eq_some_iff.1 hphs
      rw [List.foldlM_cons]
      cases hvisit : s.visit ePhoff phdrFileEnd ph with
      | none =>
        simp only [hvisit]
        rfl
      | some s' =>
        simp only [hvisit]
        exact ih (by omega) hrest

end

/-! ## The table of a loaded file -/

/-- The program-header table of a plan is in the part of the file that the segment `ph`
    loads, and in that of no other. Its entries have room for a header, and a PT_PHDR header
    has the address that the table has in the segment. -/
structure ElfPlan.TableIn (plan : ElfPlan) (ph : Elf64Phdr) : Prop where
  entSize : 56 ≤ plan.ehdr.ePhentsize
  mem : ph ∈ plan.phs
  isLoad : ph.isLoad = true
  maps : ph.Maps plan.ehdr.ePhoff
    (plan.ehdr.ePhoff + plan.ehdr.ePhnum * plan.ehdr.ePhentsize)
  only : ∀ ph' ∈ plan.phs, ph'.isLoad = true → ph'.Maps plan.ehdr.ePhoff
    (plan.ehdr.ePhoff + plan.ehdr.ePhnum * plan.ehdr.ePhentsize) → ph' = ph
  ptPhdr : ∀ ph' ∈ plan.phs, ph'.pType = ptPhdr →
    ph'.pVaddr = ph.pVaddr + (plan.ehdr.ePhoff - ph.pOffset)

namespace ElfPlan

variable (plan : ElfPlan) (ph : Elf64Phdr)

/-- The size of the table. -/
def tableSize : ℕ := plan.ehdr.ePhnum * plan.ehdr.ePhentsize

/-- Where a loaded segment has the table. -/
def tableAddr : ℕ := ph.segVaddr plan.delta + (plan.ehdr.ePhoff - ph.pOffset)

/-- The page of the byte `k` of the table. -/
def tablePage (k : ℕ) : ℕ := plan.tableAddr ph + k - (plan.tableAddr ph + k) % 4096

end ElfPlan

section

variable {arch : Arch} {env : Env} {f : File} {loadBase : ℕ} {plan : ElfPlan} {ph : Elf64Phdr}
  {i k : ℕ} {w w' : World} {res : ElfLoadResult}

theorem lastPtPhdr_mem {phs : List Elf64Phdr} (h : lastPtPhdr phs = some ph) :
    ph ∈ phs ∧ ph.pType = ptPhdr := by
  simpa using List.mem_filter.1 (List.mem_of_getLast? h)

theorem lastMapping_mem {phs : List Elf64Phdr} {ePhoff phdrFileEnd : ℕ}
    (h : lastMapping ePhoff phdrFileEnd phs = some ph) :
    ph ∈ phs ∧ ph.isLoad = true ∧ ph.Maps ePhoff phdrFileEnd := by
  simpa using List.mem_filter.1 (List.mem_of_getLast? h)

namespace ElfPlan.TableIn

variable (ht : plan.TableIn ph)

include ht

/-- The search finds the segment. -/
theorem lastMapping_eq : lastMapping plan.ehdr.ePhoff
    (plan.ehdr.ePhoff + plan.ehdr.ePhnum * plan.ehdr.ePhentsize) plan.phs = some ph := by
  have hsome : (lastMapping plan.ehdr.ePhoff
      (plan.ehdr.ePhoff + plan.ehdr.ePhnum * plan.ehdr.ePhentsize) plan.phs).isSome = true := by
    rw [lastMapping, List.getLast?_isSome]
    exact List.ne_nil_of_mem (List.mem_filter.2 ⟨ht.mem, by simp [ht.isLoad, ht.maps]⟩)
  obtain ⟨ph', hph'⟩ := Option.isSome_iff_exists.1 hsome
  obtain ⟨hmem, hl, hmaps⟩ := lastMapping_mem hph'
  rw [hph', ht.only ph' hmem hl hmaps]

/-- Whether or not there is a PT_PHDR header, the address found is the one that the table
    has in the segment. -/
theorem found_eq (hv : ph.vaddrOf plan.ehdr.ePhoff =
      ph.pVaddr + (plan.ehdr.ePhoff - ph.pOffset)) :
    ((lastPtPhdr plan.phs).map Elf64Phdr.pVaddr).or (some (ph.vaddrOf plan.ehdr.ePhoff)) =
      some (ph.pVaddr + (plan.ehdr.ePhoff - ph.pOffset)) := by
  cases hlast : lastPtPhdr plan.phs with
  | none => rw [Option.map_none, Option.none_or, hv]
  | some ph' =>
    obtain ⟨hmem, htype⟩ := lastPtPhdr_mem hlast
    rw [Option.map_some, Option.some_or, ht.ptPhdr ph' hmem htype]

theorem offset_lt (hk : k < plan.tableSize) : plan.ehdr.ePhoff - ph.pOffset + k < ph.pFilesz := by
  have hlo := ht.maps.1
  have hhi := ht.maps.2
  unfold tableSize at hk
  omega

variable (hwf : ElfWellFormed arch f loadBase plan)

include hwf

theorem in_file : plan.ehdr.ePhoff + plan.tableSize ≤ f.size :=
  ht.maps.2.trans (hwf.in_file ph ht.mem ht.isLoad)

theorem tableSize_pos : 0 < plan.tableSize := by
  obtain ⟨i, hi⟩ := List.getElem?_of_mem ht.mem
  have hlen : i < plan.phs.length := (List.getElem?_eq_some_iff.1 hi).1
  have hnum : 0 < plan.ehdr.ePhnum := by
    have htable := hwf.table
    by_contra hzero
    rw [phdrs, show plan.ehdr.ePhnum = 0 by omega, phdrsFrom] at htable
    have hnil := Option.some.inj htable
    rw [← hnil] at hlen
    exact absurd hlen (Nat.not_lt_zero _)
  exact Nat.mul_pos hnum (Nat.lt_of_lt_of_le (by decide) ht.entSize)

/-- AT_PHDR is the address of the table. -/
theorem elfGetPhdrInfo_eq (hdyn : plan.ehdr.eType = etDyn) : elfGetPhdrInfo f loadBase =
    some (some ⟨plan.tableAddr ph, plan.ehdr.ePhentsize, plan.ehdr.ePhnum⟩) := by
  have hsize := f.size_lt
  have hfile : plan.ehdr.ePhoff + plan.ehdr.ePhnum * plan.ehdr.ePhentsize ≤ f.size :=
    ht.in_file hwf
  have hpos : 0 < plan.ehdr.ePhnum * plan.ehdr.ePhentsize := ht.tableSize_pos hwf
  have hmin := minVaddr_le ht.mem ht.isLoad
  have hover := hwf.no_overflow ph ht.mem ht.isLoad
  have hle := hwf.filesz_le ph ht.mem ht.isLoad
  have hwrap := hwf.no_wrap ph ht.mem ht.isLoad
  have hoff := ht.offset_lt hpos
  have hlo := ht.maps.1
  have hphoff := plan.ehdr.ePhoff_lt
  have hvaddr : ph.vaddrOf plan.ehdr.ePhoff = ph.pVaddr + (plan.ehdr.ePhoff - ph.pOffset) := by
    rw [Elf64Phdr.vaddrOf, wsub_eq hlo hphoff, Nat.mod_eq_of_lt (by omega)]
  have hscan : phdrScanFrom f plan.ehdr.ePhoff plan.ehdr.ePhentsize
      (plan.ehdr.ePhnum * plan.ehdr.ePhentsize) plan.ehdr.ePhoff
      (plan.ehdr.ePhoff + plan.ehdr.ePhnum * plan.ehdr.ePhentsize) plan.ehdr.ePhnum 0
      ⟨2 ^ 64 - 1, none, none⟩ = _ :=
    phdrScanFrom_eq ht.entSize hfile (Nat.zero_add _) hwf.table
  rw [PhdrScan.foldlM_visit fun ph' hph' hl =>
    (hwf.in_file ph' hph' hl).trans_lt (by omega), ht.lastMapping_eq] at hscan
  have hheader : f.elf64Ehdr 0 = some plan.ehdr := (elfHeader_ok hwf.header).1
  -- The address goes from the segment over the least address to the load address.
  have haddr : (loadBase + wsub (ph.pVaddr + (plan.ehdr.ePhoff - ph.pOffset))
      (minVaddr plan.phs)) % 2 ^ 64 = plan.tableAddr ph := by
    have hdelta := hwf.delta_eq
    rw [if_pos hdyn] at hdelta
    unfold Elf64Phdr.NoWrap Elf64Phdr.segVaddr at hwrap
    rw [ElfPlan.tableAddr, Elf64Phdr.segVaddr]
    unfold wsub at *
    omega
  simp only [elfGetPhdrInfo, hheader]
  rw [if_neg (by omega), if_neg (by omega), elfGetPhdrLoadOffset, elfComputePhdrElfVaddr,
    if_neg (by omega), if_neg (by omega), hscan]
  simp only [Option.map_some, Option.bind_some, Option.or_none]
  rw [← minVaddr, if_neg (by omega), ht.found_eq hvaddr, Option.map_some, Option.map_some,
    Option.map_some, haddr]

end ElfPlan.TableIn

/-- A page of a segment is shared with an earlier one. -/
def ElfPlan.SharedPage (plan : ElfPlan) (i v : ℕ) : Prop :=
  ∃ ph' i', (ph', i') ∈ loads plan.phs ∧ i' < i ∧ v ∈ ph'.segPages plan.delta

section

variable (hwf : ElfWellFormed arch f loadBase plan) (hi : (ph, i) ∈ loads plan.phs)
  (hk : k < ph.pFilesz)

include hwf hi hk

/-- A byte that the file has for a segment is copied, unless its page is shared with an
    earlier segment and cannot be mapped at the scratch address. -/
theorem ElfWellFormed.byteCopied_iff {a : ℕ} (ha : a = ph.segVaddr plan.delta + k) :
    ByteCopied env f (elfItems plan.phs plan.delta) (a - a % 4096) (a % 4096) ↔
      (plan.SharedPage i (a - a % 4096) → env.mapScratch (.segment i (a - a % 4096)) = 0) := by
  obtain ⟨hph, hl⟩ := mem_of_mem_loads hi
  have hmem : k < ph.pMemsz := hk.trans_le (hwf.filesz_le ph hph hl)
  rw [(elfItems_inOrder _ _).byteCopied_iff]
  constructor
  · rintro ⟨it, hit, hcov, hscratch⟩ hshared
    obtain ⟨rfl, -⟩ := hwf.eq_item_of_covers hi ha hmem hit hcov
    exact hscratch (elfItem_shared_iff.2 hshared)
  · intro hscratch
    exact ⟨_, mem_elfItems.2 ⟨ph, i, _, hi, hwf.page_mem_segPages hi ha hmem, rfl⟩,
      hwf.item_covers hi ha hk, fun hs => hscratch (elfItem_shared_iff.1 hs)⟩

/-- The image has the byte of the file when it is copied, or when it is zero. -/
theorem ElfWellFormed.imageByte_iff {a : ℕ} (ha : a = ph.segVaddr plan.delta + k) :
    plan.imageByte f env a = some (f.byte (ph.pOffset + k)) ↔
      (f.byte (ph.pOffset + k) ≠ 0 → plan.SharedPage i (a - a % 4096) →
        env.mapScratch (.segment i (a - a % 4096)) = 0) := by
  obtain ⟨hph, hl⟩ := mem_of_mem_loads hi
  have hmem : k < ph.pMemsz := hk.trans_le (hwf.filesz_le ph hph hl)
  have hsome : ((elfItems plan.phs plan.delta).foldl (Image.place env f) (fun _ => none)
      (a - a % pageSize)).isSome = true :=
    image_isSome.2 ⟨_, mem_elfItems.2 ⟨ph, i, _, hi, hwf.page_mem_segPages hi ha hmem, rfl⟩, rfl⟩
  obtain ⟨p, hp⟩ := Option.isSome_iff_exists.1 hsome
  obtain ⟨hcopied, hzero⟩ := image_bytes_copied
    (fun it hit hc => (hwf.eq_item_of_covers hi ha hmem hit hc).2.2) hp
  rw [ElfPlan.imageByte, hp, Option.map_some, Option.some.injEq, pageSize]
  by_cases hc : ByteCopied env f (elfItems plan.phs plan.delta) (a - a % 4096) (a % 4096)
  · exact ⟨fun _ _ => (hwf.byteCopied_iff hi hk ha).1 hc, fun _ => hcopied hc⟩
  · rw [hzero hc]
    refine ⟨fun h hne => absurd h.symm hne, fun h => Eq.symm (by_contra fun hne => hc ?_)⟩
    exact (hwf.byteCopied_iff hi hk ha).2 (h hne)

end

/-- AT_PHDR. For every well-formed position-independent file whose program-header table is
    in the file range of one segment, and for every load of it that succeeds and in which no
    relocation meets the table: `elf_get_phdr_info` succeeds with the address of the table.
    The child has the table there if and only if every byte of it that is not zero is on a
    page that is new for the segment, or whose frame can be mapped at the scratch address. -/
theorem elfGetPhdrInfo_table_iff (hwf : ElfWellFormed arch f loadBase plan)
    (hdyn : plan.ehdr.eType = etDyn) (ht : plan.TableIn ph) (hi : (ph, i) ∈ loads plan.phs)
    (hfresh : env.FreshFrames) (hw : w.Start)
    (hload : (elfLoad arch env f loadBase).run w = .ok res w')
    (hreloc : ∀ n rela, plan.Relative arch f n rela →
      rela.target plan.delta + 8 ≤ plan.tableAddr ph ∨
        plan.tableAddr ph + plan.tableSize ≤ rela.target plan.delta) :
    elfGetPhdrInfo f loadBase =
      some (some ⟨plan.tableAddr ph, plan.ehdr.ePhentsize, plan.ehdr.ePhnum⟩) ∧
    ((∀ k < plan.tableSize,
        w'.childByte (plan.tableAddr ph + k) = some (f.byte (plan.ehdr.ePhoff + k))) ↔
      ∀ k < plan.tableSize, f.byte (plan.ehdr.ePhoff + k) ≠ 0 →
        plan.SharedPage i (plan.tablePage ph k) →
        env.mapScratch (.segment i (plan.tablePage ph k)) = 0) := by
  refine ⟨ht.elfGetPhdrInfo_eq hwf hdyn, forall₂_congr fun k hk => ?_⟩
  have hoff := ht.offset_lt hk
  have hle := hwf.filesz_le ph ht.mem ht.isLoad
  have hlo := ht.maps.1
  have haddr : plan.tableAddr ph + k =
      ph.segVaddr plan.delta + (plan.ehdr.ePhoff - ph.pOffset + k) := by
    rw [ElfPlan.tableAddr, Nat.add_assoc]
  have hpage : plan.HasPage (plan.tableAddr ph + k - (plan.tableAddr ph + k) % pageSize) :=
    ⟨ph, ht.mem, ht.isLoad, hwf.page_mem_segPages hi haddr (by omega)⟩
  -- No relocation changes the byte, which is then that of the image.
  rw [elfLoad_kept hw hfresh hwf.elfPlan_eq hload hpage fun n rela hrel hin => ?_]
  · have hfile : plan.ehdr.ePhoff + k = ph.pOffset + (plan.ehdr.ePhoff - ph.pOffset + k) := by
      omega
    rw [hfile]
    exact hwf.imageByte_iff hi hoff haddr
  · rcases hreloc n rela hrel with hbefore | hafter
    · omega
    · omega

end

/-- The table of the file with two segments is in the first of them, whose page is new. It
    is in the child although the scratch mapping for the second one fails. -/
theorem elfGetPhdrInfo_table_twoSegments :
    ∃ res w', (elfLoad .x86_64 Env.noScratch twoSegments 0x210000).run World.initial =
        .ok res w' ∧
      elfGetPhdrInfo twoSegments 0x210000 = some (some ⟨0x210040, 56, 2⟩) ∧
      ∀ k < 112, w'.childByte (0x210040 + k) = some (twoSegments.byte (64 + k)) := by
  have hwp : wp (elfLoad .x86_64 Env.noScratch twoSegments 0x210000) (fun _ _ => True)
      (fun _ _ => False) World.initial := by decide +kernel
  obtain ⟨res, w', hload, -⟩ := wp_exists_ok hwp
  have hfirst : ∃ ph, twoSegmentsPlan.phs[0]? = some ph ∧ ph.isLoad = true ∧
      ph.Maps 64 176 ∧ twoSegmentsPlan.tableAddr ph = 0x210040 ∧
      ∀ ph' ∈ twoSegmentsPlan.phs, ph'.Maps 64 176 → ph' = ph := by
    refine ⟨twoSegmentsPlan.phs.head (by decide +kernel), ?_, ?_, ?_, ?_, ?_⟩ <;> decide +kernel
  obtain ⟨ph, hget, hl, hmaps, haddr, honly⟩ := hfirst
  have hehdr : twoSegmentsPlan.ehdr.ePhoff = 64 ∧ twoSegmentsPlan.ehdr.ePhnum = 2 ∧
      twoSegmentsPlan.ehdr.ePhentsize = 56 := by decide +kernel
  obtain ⟨hphoff, hphnum, hphent⟩ := hehdr
  have hnone : ∀ ph' ∈ twoSegmentsPlan.phs, ph'.pType ≠ ptPhdr := by decide +kernel
  have ht : twoSegmentsPlan.TableIn ph := by
    refine ⟨hphent.ge, List.mem_of_getElem? hget, hl, ?_, fun ph' hph' _ => ?_, fun ph' hph' h =>
      absurd h (hnone ph' hph')⟩
    · rwa [hphoff, hphnum, hphent]
    · rw [hphoff, hphnum, hphent]
      exact honly ph' hph'
  have hrange : relaRange twoSegments twoSegmentsPlan.phs = .ok none := by decide +kernel
  obtain ⟨hinfo, htable⟩ := elfGetPhdrInfo_table_iff twoSegments_wellFormed (by decide +kernel) ht
    (mem_loads.2 ⟨hget, hl⟩) (fun _ h => by cases h) World.initial_start hload
    fun n rela hrel => by
      obtain ⟨r, hr, -⟩ := hrel
      rw [hrange] at hr
      cases hr
  rw [haddr, hphent, hphnum] at hinfo
  rw [ElfPlan.tableSize, haddr, hphoff, hphent, hphnum] at htable
  refine ⟨res, w', hload, hinfo, htable.2 fun k _ _ hshared => ?_⟩
  obtain ⟨ph', i', -, hlt, -⟩ := hshared
  exact absurd hlt (Nat.not_lt_zero _)

/-- A position-independent file with its ELF header in one segment and its program headers
    in the next, both on one page. -/
def splitHeaders : File where
  bytes := ehdrBytes etDyn 2 ++ phdrBytes ptLoad 4 0 0x1000 64 64 ++
    phdrBytes ptLoad 4 64 0x1040 112 112
  length_lt := by simp [ehdrBytes, phdrBytes, wordBytes]

/-- The plan for the file. -/
def splitHeadersPlan : ElfPlan :=
  resultOf (elfPlan .x86_64 splitHeaders 0x210000) (by decide +kernel)

/-- The file is loaded without an error when the scratch mapping for its second segment
    fails. AT_PHDR is the right address, but what the child has there is zero. -/
theorem elfGetPhdrInfo_table_lost :
    ElfWellFormed .x86_64 splitHeaders 0x210000 splitHeadersPlan ∧
    splitHeadersPlan.ehdr.eType = etDyn ∧ (∃ ph, splitHeadersPlan.TableIn ph) ∧
    (∀ n rela, ¬splitHeadersPlan.Relative .x86_64 splitHeaders n rela) ∧
    ∃ res w', (elfLoad .x86_64 Env.noScratch splitHeaders 0x210000).run World.initial =
        .ok res w' ∧
      elfGetPhdrInfo splitHeaders 0x210000 = some (some ⟨0x210040, 56, 2⟩) ∧
      splitHeaders.byte 64 = 1 ∧ w'.childByte 0x210040 = some 0 := by
  have hplan : elfPlan .x86_64 splitHeaders 0x210000 = .ok splitHeadersPlan := eq_ok_resultOf _
  obtain ⟨hheader, htable, hload, hdelta, -, -⟩ := elfPlan_ok hplan
  have hwp : wp (elfLoad .x86_64 Env.noScratch splitHeaders 0x210000)
      (fun _ w' => w'.childByte 0x210040 = some 0) (fun _ _ => False) World.initial := by
    decide +kernel
  obtain ⟨res, w', hrun, hbyte⟩ := wp_exists_ok hwp
  have hrange : relaRange splitHeaders splitHeadersPlan.phs = .ok none := by decide +kernel
  refine ⟨⟨hheader, htable, hdelta, hload, by decide +kernel, by decide +kernel,
    by decide +kernel, by decide +kernel, by decide +kernel, by decide +kernel,
    by decide +kernel⟩, by decide +kernel, ?_, fun n rela hrel => ?_, res, w', hrun,
    by decide +kernel, by decide +kernel, hbyte⟩
  · refine ⟨splitHeadersPlan.phs.getLast (by decide +kernel), ?_, ?_, ?_, ?_, ?_, ?_⟩ <;>
      decide +kernel
  · obtain ⟨r, hr, -⟩ := hrel
    rw [hrange] at hr
    cases hr

end Trona
