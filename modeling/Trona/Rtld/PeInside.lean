import Trona.Rtld.PeReloc

/-!
# What the PE linker reads and changes

The three passes of `rtld/pe/rtld_pe_main.c` over an image: the checks, the relocations and
the protections. Memory has nothing but the image here, so that an access outside of it is a
fault. A word is written only where it was read before.

The passes trust what the headers say about places, and the only sum that is compared with the
size of the image may wrap. They stay inside if and only if everything that they come to is
inside (`staysInside_iff`). The blocks of relocations may be changed by the relocations
themselves: the ones that count are those that the walk comes to.
-/

namespace Trona

/-- Memory has nothing but `size` bytes at `base`. -/
structure Memory.Spans (m : Memory) (base size : ℕ) : Prop where
  le_top : base + size ≤ 2 ^ 64
  size_lt : size < 2 ^ 64
  isSome_iff : ∀ a < 2 ^ 64, (m a).isSome = true ↔ base ≤ a ∧ a < base + size

/-- Only what is inside can be read. -/
theorem Memory.Spans.le_isSome {m : Memory} {base size a n : ℕ} (h : m.Spans base size)
    (hlo : base ≤ a) (hhi : a < base + 2 ^ 64) (hn : 0 < n) :
    (m.le a n).isSome = true ↔ a + n ≤ base + size := by
  have htop := h.le_top
  have hsize := h.size_lt
  rw [Memory.le_isSome_iff]
  refine ⟨fun hall => ?_, fun hin j hj => (h.isSome_iff _ (Nat.mod_lt _ (by decide))).2 (by omega)⟩
  -- The first byte behind the image, which is not one of it once around.
  by_contra hout
  have hbyte := (h.isSome_iff _ (Nat.mod_lt _ (by decide))).1
    (hall (max a (base + size) - a) (by omega))
  omega

theorem Memory.Spans.exists_le {m : Memory} {base size a n : ℕ} (h : m.Spans base size)
    (hlo : base ≤ a) (hn : 0 < n) (hin : a + n ≤ base + size) : ∃ v, m.le a n = some v := by
  have hsize := h.size_lt
  exact Option.isSome_iff_exists.1 ((h.le_isSome hlo (by omega) hn).2 hin)

namespace PeRtld

/-- The pages at an address are pages of an image of `size` bytes at `base`. -/
def PagesInside (base size addr length : ℕ) : Prop :=
  base - base % pageSize ≤ addr ∧ addr + length ≤ roundUp pageSize (base + size)

instance (base size addr length : ℕ) : Decidable (PagesInside base size addr length) :=
  inferInstanceAs (Decidable (_ ∧ _))

/-- All requests so far are for pages of the image. -/
def RequestsInside (base size : ℕ) (log : List Mprotect) : Prop :=
  ∀ p ∈ log, PagesInside base size p.addr p.length

/-- The passes read and write only inside of the image, and protect only pages of it. -/
structure StaysInside (arch : Arch) (base delta : ℕ) (image : File) : Prop where
  validate : peValidate arch (.ofFile base image) base image.size ≠ .error .fault
  relocate : ∀ img, peValidate arch (.ofFile base image) base image.size = .ok img →
    wp (applyBaseRelocations base image.size img.opt img.sections img.numSections delta)
      (fun _ _ => True) (fun stop _ => stop ≠ .fault) ⟨.ofFile base image, []⟩
  protect : ∀ g answer,
    wp (applyPeImagePermissions arch (.ofFile base image) g answer base image.size)
      (fun _ => RequestsInside base image.size)
      (fun stop log => stop ≠ .fault ∧ RequestsInside base image.size log) []

/-! ## Images with everything in its place -/

/-- The headers are inside of the image, as far as the checks come. -/
def HeadersPlaced (arch : Arch) (image : File) : Prop :=
  let peOff := image.le 60 4
  64 ≤ image.size → image.le 0 2 = peDosMagic → (peOff + 4) % 2 ^ 32 + 20 + 112 ≤ image.size →
    peOff + 4 ≤ image.size ∧ (image.le peOff 4 = peSignature →
      peOff + 6 ≤ image.size ∧ (image.le (peOff + 4) 2 = arch.peMachine →
        peOff + 26 ≤ image.size))

/-- The section header at an address is inside. Of a section without bytes only the part up to
    its sizes has to be. -/
def SectionPlaced (m : Memory) (base size a : ℕ) : Prop :=
  a + 20 ≤ base + size ∧
    (m.le (a + 8) 4 = some 0 ∧ m.le (a + 16) 4 = some 0 ∨ a + 40 ≤ base + size)

/-- The data directories are inside, up to the one of the relocations if there are so many. Its
    size has to be if it has an address. -/
def DirectoriesPlaced (m : Memory) (base size opt : ℕ) : Prop :=
  opt + 112 ≤ base + size ∧
    ∀ n, m.le (opt + 108) 4 = some n → imageDirectoryEntryBasereloc < n →
      opt + 156 ≤ base + size ∧ (m.le (opt + 152) 4 ≠ some 0 → opt + 160 ≤ base + size)

/-- Where a block of relocations ends, by the number of its entries. -/
def blockEnd (block : ℕ × ℕ) : ℕ := block.1 + 8 + 2 * ((block.2 - 8) / 2)

/-- The places that the headers of a checked image name are inside of it. -/
structure Image.Placed (img : Image) (m : Memory) (base size delta : ℕ) : Prop where
  optional : img.opt + 64 ≤ base + size
  header_pages : ∀ n, m.le (img.opt + 60) 4 = some n →
    base + pageAlignUp n ≤ roundUp pageSize (base + size)
  table : ∀ i < img.numSections, SectionPlaced m base size (img.sections + i * 40)
  section_pages : ∀ i < img.numSections, ∀ sec, readSection m (img.sections + i * 40) = some sec →
    secPages sec.size ≠ 0 →
      PagesInside base size ((base + sec.virtualAddress) % 2 ^ 64) (secPages sec.size * pageSize)
  directories : delta ≠ 0 → DirectoriesPlaced m base size img.opt
  blocks : delta ≠ 0 → ∀ dir, relocDir m img.opt img.sections img.numSections = .ok (some dir) →
    ∀ block ∈ (dirWalk base size delta m dir).1, blockEnd block ≤ base + size

/-! ## The checks -/

section

variable {arch : Arch} {base size delta : ℕ} {image : File} {img : Image} {m : Memory}

theorem spans_ofFile (hbase : base + image.size ≤ 2 ^ 64) :
    (Memory.ofFile base image).Spans base image.size := by
  refine ⟨hbase, image.size_lt.trans (by decide), fun a ha => ?_⟩
  rw [Memory.ofFile]
  split_ifs with h <;> simp [h]

theorem peValidate_ne_fault_iff (hbase : base + image.size ≤ 2 ^ 64) :
    peValidate arch (.ofFile base image) base image.size ≠ .error .fault ↔
      HeadersPlaced arch image := by
  have hlt := image.le_four_lt 60
  -- What is read of the image, and where it has to be for that.
  have hle : ∀ off n, off < 2 ^ 33 → 0 < n → ∀ P : ℕ → Prop,
      (∃ v, (Memory.ofFile base image).le (base + off) n = some v ∧ P v) ↔
        off + n ≤ image.size ∧ P (image.le off n) := by
    intro off n hoff hn P
    by_cases hin : off + n ≤ image.size
    · simp [(Memory.ofFile_holds_self hbase).le hin, hin]
    · have hnone : (Memory.ofFile base image).le (base + off) n = none := by
        rw [← Option.not_isSome_iff_eq_none,
          (spans_ofFile hbase).le_isSome (by omega) (by omega) hn]
        omega
      simp [hnone, hin]
  have hmagic := hle 0 2 (by decide) (by decide)
  rw [Nat.add_zero] at hmagic
  simp only [peValidate, load_bind_ne_fault, failIf_bind_ne_fault, Nat.add_assoc, hmagic,
    hle 60 4 (by decide) (by decide)]
  simp only [hle (image.le 60 4) 4 (by omega) (by decide),
    hle (image.le 60 4 + 4) 2 (by omega) (by decide),
    hle (image.le 60 4 + (4 + 20)) 2 (by omega) (by decide),
    hle (image.le 60 4 + (4 + 16)) 2 (by omega) (by decide),
    hle (image.le 60 4 + (4 + 2)) 2 (by omega) (by decide), not_lt, ne_eq, not_not]
  constructor
  · intro h h64 hmz hcheck
    obtain ⟨hsig, h⟩ := ((h h64).2 hmz).2 hcheck
    refine ⟨hsig, fun hpe => ⟨(h hpe).1, fun hmachine => ?_⟩⟩
    have := ((h hpe).2 hmachine).1
    omega
  · intro h h64
    refine ⟨by omega, fun hmz => ⟨by omega, fun hcheck => ?_⟩⟩
    obtain ⟨hsig, h⟩ := h h64 hmz hcheck
    refine ⟨hsig, fun hpe => ⟨(h hpe).1, fun hmachine => ?_⟩⟩
    have hopt := (h hpe).2 hmachine
    exact ⟨by omega, fun _ => ⟨by omega, by omega, nofun⟩⟩

/-- The headers of an image that passes the checks are behind its start, and not far. -/
structure HeadersAt (base : ℕ) (img : Image) : Prop where
  le_opt : base ≤ img.opt
  opt_lt : img.opt < base + 2 ^ 33
  opt_le_sections : img.opt ≤ img.sections
  sections_lt : img.sections < img.opt + 2 ^ 16
  numSections_lt : img.numSections < 2 ^ 16

theorem headersAt (h : peValidate arch m base size = .ok img) : HeadersAt base img := by
  simp only [peValidate, load_bind_eq_ok, failIf_bind_eq_ok] at h
  obtain ⟨-, -, -, -, peOff, hoff, -, -, -, -, -, -, -, -, -, -, soh, hsoh, num, hnum, himg⟩ := h
  obtain rfl := Except.ok.inj himg
  have hoff := Memory.le_lt hoff
  have hsoh := Memory.le_lt hsoh
  exact ⟨by simp only; omega, by simp only; omega, by simp only; omega, by simp only; omega,
    Memory.le_lt hnum⟩

/-! ## The section table -/

variable {a rva sections todo i : ℕ}

theorem secPages_eq_zero {n : ℕ} (hn : n < 2 ^ 32) : secPages n = 0 ↔ n = 0 := by
  rw [secPages, pageAlignUp_eq, pageSize, Nat.mod_eq_of_lt (by omega)]
  omega

/-- A section header can be read when it is inside. -/
theorem readSection_isSome_iff (hm : m.Spans base size) (hlo : base ≤ a) (hhi : a < base + 2 ^ 34) :
    (readSection m a).isSome = true ↔ SectionPlaced m base size a := by
  have hle : ∀ k < 64, ((m.le (a + k) 4).isSome = true ↔ a + k + 4 ≤ base + size) := fun k hk =>
    hm.le_isSome (by omega) (by omega) (by decide)
  have hnone : ∀ k < 64, ¬a + k + 4 ≤ base + size → m.le (a + k) 4 = none := fun k hk hout =>
    Option.not_isSome_iff_eq_none.1 fun h => hout ((hle k hk).1 h)
  have hchars : ∀ g : ℕ → Section, ((m.le (a + 36) 4).bind fun c => some (g c)).isSome = true ↔
      a + 40 ≤ base + size := by
    intro g
    rw [← hle 36 (by decide)]
    cases m.le (a + 36) 4 <;> simp
  rw [SectionPlaced]
  by_cases h16 : a + 16 ≤ base + size
  · obtain ⟨va, hva⟩ := hm.exists_le (a := a + 12) (n := 4) (by omega) (by decide) (by omega)
    obtain ⟨vs, hvs⟩ := hm.exists_le (a := a + 8) (n := 4) (by omega) (by decide) (by omega)
    have hvsPages := secPages_eq_zero (Memory.le_lt hvs)
    by_cases hzero : vs = 0
    · -- The size is the one of the raw data.
      by_cases h20 : a + 20 ≤ base + size
      · obtain ⟨raw, hraw⟩ := hm.exists_le (a := a + 16) (n := 4) (by omega) (by decide) (by omega)
        have hrawPages := secPages_eq_zero (Memory.le_lt hraw)
        by_cases hempty : raw = 0
        · simp [readSection, hva, hvs, hraw, hzero, hempty, h20, secPages_eq_zero]
        · simp only [readSection, hva, hvs, hraw, hzero]
          simp [hrawPages, hempty, h20, hchars]
      · simp [readSection, hva, hvs, hzero, hnone 16 (by decide) h20, h20]
    · simp only [readSection, hva, hvs]
      simp [hvsPages, Nat.pos_of_ne_zero hzero, hzero, hchars]
      omega
  · simp only [readSection, hnone 12 (by decide) (by omega)]
    simp
    omega

theorem rvaToOffset_isSome (hm : m.Spans base size) (hlo : base ≤ sections)
    (htable : ∀ k < todo, SectionPlaced m base size (sections + (i + k) * 40)) :
    (rvaToOffset m sections rva todo i).isSome = true := by
  induction todo generalizing i with
  | zero => rfl
  | succ todo ih =>
    obtain ⟨h20, hrest⟩ := htable 0 (Nat.succ_pos todo)
    rw [Nat.add_zero] at h20 hrest
    obtain ⟨secRva, hva⟩ := hm.exists_le (a := sections + i * 40 + 12) (n := 4) (by omega)
      (by decide) (by omega)
    obtain ⟨secSize, hvs⟩ := hm.exists_le (a := sections + i * 40 + 8) (n := 4) (by omega)
      (by decide) (by omega)
    simp only [rvaToOffset, hva, hvs, Option.bind_eq_bind, Option.bind_some]
    split_ifs with hin
    · -- A section with an address in it has bytes.
      have h40 : sections + i * 40 + 40 ≤ base + size := by
        refine hrest.resolve_left fun hempty => ?_
        obtain rfl := Option.some.inj (hvs.symm.trans hempty.1)
        have := Memory.le_lt hva
        omega
      obtain ⟨ptr, hptr⟩ := hm.exists_le (a := sections + i * 40 + 20) (n := 4) (by omega)
        (by decide) (by omega)
      simp [hptr]
    · refine ih fun k hk => ?_
      have hnext := htable (k + 1) (by omega)
      rwa [← Nat.add_assoc, Nat.add_right_comm] at hnext

/-! ## The relocations -/

theorem return_ne_fault {β : Type} {c : Prop} [Decidable c] {b : β} {x : Except (Stop ℤ) β} :
    (if c then pure b else x) ≠ .error .fault ↔ (¬c → x ≠ .error .fault) := by
  split_ifs with hc
  · simp [hc, pure, Except.pure]
  · simp [hc]

/-- The relocation directory is found without a fault when the data directories are inside. -/
theorem relocDir_ne_fault_iff (hm : m.Spans base size) (hat : HeadersAt base img)
    (htable : ∀ i < img.numSections, SectionPlaced m base size (img.sections + i * 40)) :
    relocDir m img.opt img.sections img.numSections ≠ .error .fault ↔
      DirectoriesPlaced m base size img.opt := by
  have hlo := hat.le_opt
  have hhi := hat.opt_lt
  have hsections := hat.opt_le_sections
  have hle : ∀ k < 256, ((m.le (img.opt + k) 4).isSome = true ↔ img.opt + k + 4 ≤ base + size) :=
    fun k hk => hm.le_isSome (by omega) (by omega) (by decide)
  have hfound : ∀ rva, ∃ off, rvaToOffset m img.sections rva img.numSections 0 = some off :=
    fun rva => Option.isSome_iff_exists.1
      (rvaToOffset_isSome hm (hlo.trans hsections) (by simpa using htable))
  simp only [relocDir, load_bind_ne_fault, return_ne_fault, failIf_bind_ne_fault,
    imageDirectoryEntryBasereloc, DirectoriesPlaced, Nat.reduceMul, Nat.add_assoc, Nat.reduceAdd]
  constructor
  · rintro ⟨n, hn, h⟩
    refine ⟨(hle 108 (by decide)).1 (by rw [hn]; rfl), fun n' hn' hmany => ?_⟩
    obtain rfl := Option.some.inj (hn.symm.trans hn')
    obtain ⟨va, hva, h⟩ := h (not_le.2 hmany)
    refine ⟨(hle 152 (by decide)).1 (by rw [hva]; rfl), fun hne => ?_⟩
    obtain ⟨dirSize, hsize, -⟩ := h fun h0 => hne (by rw [hva, h0])
    exact (hle 156 (by decide)).1 (by rw [hsize]; rfl)
  · rintro ⟨hcount, h⟩
    obtain ⟨n, hn⟩ := Option.isSome_iff_exists.1 ((hle 108 (by decide)).2 hcount)
    refine ⟨n, hn, fun hmany => ?_⟩
    obtain ⟨haddr, h⟩ := h n hn (not_le.1 hmany)
    obtain ⟨va, hva⟩ := Option.isSome_iff_exists.1 ((hle 152 (by decide)).2 haddr)
    refine ⟨va, hva, fun hne => ?_⟩
    obtain ⟨dirSize, hsize⟩ := Option.isSome_iff_exists.1
      ((hle 156 (by decide)).2 (h fun h0 => hne (Option.some.inj (hva.symm.trans h0))))
    obtain ⟨off, hoff⟩ := hfound va
    exact ⟨dirSize, hsize, fun _ => ⟨off, hoff, fun _ => nofun⟩⟩

theorem relocDir_lt {opt numSections : ℕ} {dir : DataDirectory}
    (h : relocDir m opt sections numSections = .ok (some dir)) :
    dir.virtualAddress < 2 ^ 32 ∧ dir.size < 2 ^ 32 := by
  simp only [relocDir, load_bind_eq_ok] at h
  obtain ⟨_, -, h⟩ := h
  split_ifs at h
  · cases h
  simp only [load_bind_eq_ok] at h
  obtain ⟨va, hva, h⟩ := h
  split_ifs at h
  · cases h
  simp only [load_bind_eq_ok] at h
  obtain ⟨size, hsize, h⟩ := h
  split_ifs at h
  · cases h
  simp only [load_bind_eq_ok, failIf_bind_eq_ok] at h
  obtain ⟨_, -, -, h⟩ := h
  obtain rfl := Option.some.inj (Except.ok.inj h)
  exact ⟨Memory.le_lt hva, Memory.le_lt hsize⟩

variable {s : RelocState} {block n relocEnd fuel : ℕ}

/-- A relocation changes nothing about what can be read. -/
theorem spans_relocEntry (h : s.mem.Spans base size) (i : ℕ) :
    (relocEntry base size delta block s i).mem.Spans base size := by
  have htop := h.le_top
  simp only [relocEntry]
  split_ifs with hin
  · refine ⟨h.le_top, h.size_lt, fun a ha => ?_⟩
    rw [← h.isSome_iff a ha]
    simp only [RelocState.setWord]
    by_cases hword : ∃ j < 8, (base + ((s.mem.le block 4).getD 0 +
        (s.mem.le (block + 8 + 2 * i) 2).getD 0 % 2 ^ 12) % 2 ^ 32 + j) % 2 ^ 64 = a
    · -- The byte is one of the word, which is inside.
      obtain ⟨j, hj, rfl⟩ := hword
      rw [Memory.writeLe_inside hj (by decide), h.isSome_iff _ ha]
      simp only [Option.isSome_some, true_iff]
      omega
    · rw [Memory.writeLe_outside ha fun j hj heq => hword ⟨j, hj, heq⟩]
  · exact h

theorem spans_relocBlock (h : s.mem.Spans base size) (delta block n : ℕ) :
    (relocBlock base size delta block n s).mem.Spans base size := by
  induction n with
  | zero => exact h
  | succ n ih =>
    rw [relocBlock_succ]
    exact spans_relocEntry ih n

section

variable (hlo : base ≤ block) (hfar : block < base + 2 ^ 34) (hhi : block + 8 ≤ base + size)
  {Q : RelocState → Prop}

include hlo hfar hhi

/-- An entry of a block with its header inside is applied without a fault when it is inside. -/
theorem applyEntry_inside_iff (h : s.mem.Spans base size) (hi : i < 2 ^ 32) :
    wp (applyEntry base size delta block (block + 8 + 2 * i)) (fun _ => Q)
      (fun stop _ => stop ≠ .fault) s ↔
    block + 8 + 2 * i + 2 ≤ base + size ∧ Q (relocEntry base size delta block s i) := by
  have hsize := h.size_lt
  have hentry := h.le_isSome (a := block + 8 + 2 * i) (n := 2) (by omega) (by omega) (by decide)
  rw [applyEntry, wp_bind]
  cases he : s.mem.le (block + 8 + 2 * i) 2 with
  | none =>
    rw [wp_readLe_none he, ← hentry, he]
    simp
  | some e =>
    obtain ⟨va, hva⟩ := h.exists_le (a := block) (n := 4) hlo (by decide) (by omega)
    rw [he] at hentry
    rw [wp_readLe he, ← hentry, and_iff_right (show (some e).isSome = true from rfl), relocEntry,
      he, hva]
    simp only [Option.getD_some]
    by_cases htype : e / 2 ^ 12 = imageRelBasedDir64
    · by_cases hin : (va + e % 2 ^ 12) % 2 ^ 32 + 8 ≤ size
      · obtain ⟨old, hold⟩ := h.exists_le (a := base + (va + e % 2 ^ 12) % 2 ^ 32) (n := 8)
          (by omega) (by decide) (by omega)
        simp only [if_pos htype, if_pos hin, wp_bind, wp_readLe hva, wp_readLe hold, wp_modify,
          if_pos (And.intro htype hin), hold, Option.getD_some]
      · simp only [if_pos htype, if_neg hin, wp_bind, wp_readLe hva, wp_pure,
          if_neg fun h : _ ∧ _ => hin h.2]
    · simp only [if_neg htype, wp_pure, if_neg fun h : _ ∧ _ => htype h.1]

theorem applyEntries_inside_iff (h : s.mem.Spans base size) (hn : n < 2 ^ 32) :
    wp ((List.range n).forM fun i => applyEntry base size delta block (block + 8 + 2 * i))
      (fun _ => Q) (fun stop _ => stop ≠ .fault) s ↔
    block + 8 + 2 * n ≤ base + size ∧ Q (relocBlock base size delta block n s) := by
  induction n generalizing Q with
  | zero =>
    rw [relocBlock, List.range_zero]
    exact wp_pure.trans (and_iff_right hhi).symm
  | succ n ih =>
    rw [List.range_succ, wp_forM_append, ih (by omega)]
    have hspans := spans_relocBlock h delta block n
    rw [relocBlock_succ, wp_forM_singleton,
      applyEntry_inside_iff (i := n) hlo hfar hhi hspans (by omega), ← and_assoc]
    refine and_congr_left fun _ => ?_
    omega

end

/-- The walk does not leave the image when the blocks that it comes to are inside. -/
theorem applyBlocks_inside_iff (h : s.mem.Spans base size) (hlo : base ≤ block)
    (hend : relocEnd < base + 2 ^ 34) :
    wp (applyBlocks base size delta relocEnd fuel block) (fun _ _ => True)
      (fun stop _ => stop ≠ .fault) s ↔
    ∀ b ∈ (relocWalk base size delta relocEnd fuel block s).1, blockEnd b ≤ base + size := by
  induction fuel generalizing block s with
  | zero => exact ⟨fun _ => by simp [relocWalk], fun _ => wp_pure.2 trivial⟩
  | succ fuel ih =>
    rw [applyBlocks, relocWalk]
    by_cases hin : block + 8 ≤ relocEnd
    · rw [if_pos hin, if_pos hin, wp_bind]
      have hheader := h.le_isSome (a := block + 4) (n := 4) (by omega) (by omega) (by decide)
      cases hsize : s.mem.le (block + 4) 4 with
      | none =>
        rw [wp_readLe_none hsize]
        rw [hsize] at hheader
        simp only [RelocState.sizeOfBlock, hsize, Option.getD_none]
        simpa [blockEnd] using hheader
      | some sizeOfBlock =>
        have hlt := Memory.le_lt hsize
        rw [hsize] at hheader
        have hhi : block + 8 ≤ base + size := hheader.1 rfl
        rw [wp_readLe hsize]
        simp only [RelocState.sizeOfBlock, hsize, Option.getD_some]
        by_cases hsmall : sizeOfBlock < 8
        · rw [if_pos hsmall, if_pos hsmall, wp_pure]
          simp only [List.mem_singleton, forall_eq, blockEnd, true_iff]
          omega
        · rw [if_neg hsmall, if_neg hsmall, wp_bind, applyEntries_inside_iff hlo (by omega) hhi h
            (by omega), List.forall_mem_cons]
          refine and_congr Iff.rfl ?_
          have h' := spans_relocBlock h delta block ((sizeOfBlock - 8) / 2)
          obtain ⟨next, hnext⟩ := h'.exists_le (a := block + 4) (n := 4) (by omega) (by decide)
            (by omega)
          rw [wp_bind, wp_readLe hnext, hnext]
          exact ih h' (by omega)
    · rw [if_neg hin, if_neg hin]
      exact ⟨fun _ => by simp, fun _ => wp_pure.2 trivial⟩

/-- The relocations of an image whose section table is inside. -/
theorem relocate_inside_iff (hm : m.Spans base size) (hat : HeadersAt base img)
    (htable : ∀ i < img.numSections, SectionPlaced m base size (img.sections + i * 40)) :
    wp (applyBaseRelocations base size img.opt img.sections img.numSections delta)
      (fun _ _ => True) (fun stop _ => stop ≠ .fault) ⟨m, []⟩ ↔
    (delta ≠ 0 → DirectoriesPlaced m base size img.opt) ∧ (delta ≠ 0 →
      ∀ dir, relocDir m img.opt img.sections img.numSections = .ok (some dir) →
        ∀ b ∈ (dirWalk base size delta m dir).1, blockEnd b ≤ base + size) := by
  rw [applyBaseRelocations, ← relocDir_ne_fault_iff hm hat htable]
  by_cases hdelta : delta = 0
  · simp [hdelta]
  · rw [if_neg hdelta, wp_bind, wp_get]
    cases hdir : relocDir m img.opt img.sections img.numSections with
    | error stop => simp [hdelta]
    | ok found =>
      cases found with
      | none => simp [hdelta]
      | some dir =>
        obtain ⟨hva, hsize⟩ := relocDir_lt hdir
        have hend : base + dir.virtualAddress + dir.size < base + 2 ^ 34 := by omega
        simp only [applyBlocks_inside_iff (s := ⟨m, []⟩) hm (Nat.le_add_right _ _) hend, dirWalk]
        simp [hdelta]

/-! ## The protections -/

variable {log : List Mprotect} {g : Globals} {answer : Option ℕ → ℕ} {sec : Section}

/-- A section header can be read, and the pages of the section are pages of the image. -/
def SectionInside (m : Memory) (base size a : ℕ) : Prop :=
  ∃ sec, readSection m a = some sec ∧ (secPages sec.size ≠ 0 →
    PagesInside base size ((base + sec.virtualAddress) % 2 ^ 64) (secPages sec.size * pageSize))

theorem sectionInside_iff (hm : m.Spans base size) (hlo : base ≤ a) (hhi : a < base + 2 ^ 34) :
    SectionInside m base size a ↔ SectionPlaced m base size a ∧
      ∀ sec, readSection m a = some sec → secPages sec.size ≠ 0 →
        PagesInside base size ((base + sec.virtualAddress) % 2 ^ 64)
          (secPages sec.size * pageSize) := by
  rw [SectionInside, ← readSection_isSome_iff hm hlo hhi]
  cases readSection m a <;> simp

theorem requestsInside_nil : RequestsInside base size [] := fun _ hp => absurd hp List.not_mem_nil

theorem requestsInside_concat {p : Mprotect} :
    RequestsInside base size (log ++ [p]) ↔
      RequestsInside base size log ∧ PagesInside base size p.addr p.length := by
  simp only [RequestsInside, List.mem_append, List.mem_singleton, or_imp, forall_and, forall_eq]

/-- All requests of a pass are for pages of the image, and it has no fault. -/
def Protects {α : Type} (base size : ℕ) (pass : M α) (log : List Mprotect) : Prop :=
  wp pass (fun _ => RequestsInside base size)
    (fun stop log => stop ≠ .fault ∧ RequestsInside base size log) log

/-- A request is made for pages of the image only. -/
theorem mprotect_inside {addr length flags ret : ℕ} (h : RequestsInside base size log)
    (hin : PagesInside base size addr length) :
    Protects base size (peMmMprotect g ret addr length flags) log := by
  simp only [Protects, peMmMprotect, wp_ite, wp_bind, wp_modify, wp_pure]
  exact ⟨fun _ => h, fun _ => requestsInside_concat.2 ⟨h, hin⟩⟩

theorem protectSections_inside
    (hsecs : ∀ k < todo, SectionInside m base size (sections + (i + k) * 40))
    (h : RequestsInside base size log) :
    Protects base size (protectSections m g answer base sections todo i) log := by
  induction todo generalizing i log with
  | zero => exact wp_pure.2 h
  | succ todo ih =>
    obtain ⟨sec, hsec, hin⟩ := hsecs 0 (Nat.succ_pos todo)
    rw [Nat.add_zero] at hsec
    have hrest {log : List Mprotect} (hlog : RequestsInside base size log) :
        Protects base size (protectSections m g answer base sections todo (i + 1)) log := by
      refine ih (fun k hk => ?_) hlog
      rw [Nat.add_right_comm, Nat.add_assoc]
      exact hsecs (k + 1) (by omega)
    rw [Protects, protectSections, hsec]
    simp only [protectSection, wp_bind, wp_ite, wp_pure, wp_throw]
    refine ⟨fun hpages => wp_post (mprotect_inside h (hin hpages)) fun ret log' hlog' =>
      ⟨fun _ => ⟨by simp, hlog'⟩, fun _ => hrest hlog'⟩, fun _ => hrest h⟩

/-- The memory server agrees to everything: then all section headers are read, and the pages of
    all sections are protected. -/
theorem protectSections_all
    (h : Protects base size (protectSections m ⟨1, 1⟩ (fun _ => 0) base sections todo i) log) :
    RequestsInside base size log ∧
      ∀ k < todo, SectionInside m base size (sections + (i + k) * 40) := by
  induction todo generalizing i log with
  | zero =>
    rw [Protects, protectSections, wp_pure] at h
    exact ⟨h, fun k hk => absurd hk (Nat.not_lt_zero k)⟩
  | succ todo ih =>
    rw [Protects, protectSections] at h
    cases hsec : readSection m (sections + i * 40) with
    | none =>
      rw [hsec] at h
      exact absurd rfl (wp_throw.1 h).1
    | some sec =>
      rw [hsec] at h
      simp only [protectSection, peMmMprotect, wp_ite, wp_bind, wp_modify, wp_pure, wp_throw] at h
      obtain ⟨hreq, hskip⟩ := h
      -- After this section, with its request or without.
      obtain ⟨hlog, hin, hrest⟩ : RequestsInside base size log ∧ (secPages sec.size ≠ 0 →
          PagesInside base size ((base + sec.virtualAddress) % 2 ^ 64)
            (secPages sec.size * pageSize)) ∧
          ∀ k < todo, SectionInside m base size (sections + (i + 1 + k) * 40) := by
        by_cases hpages : secPages sec.size = 0
        · obtain ⟨hlog, hrest⟩ := ih (hskip (not_not.2 hpages))
          exact ⟨hlog, fun hne => absurd hpages hne, hrest⟩
        · obtain ⟨hlog, hrest⟩ := ih (((hreq hpages).2 (by decide)).2 (by decide))
          exact ⟨(requestsInside_concat.1 hlog).1, fun _ => (requestsInside_concat.1 hlog).2, hrest⟩
      refine ⟨hlog, fun k hk => ?_⟩
      cases k with
      | zero => exact ⟨sec, hsec, hin⟩
      | succ k =>
        rw [← Nat.add_assoc, Nat.add_right_comm]
        exact hrest k (by omega)

/-- The protections of a checked image. -/
theorem protect_inside_iff (hm : m.Spans base size) (hat : HeadersAt base img)
    (himg : peValidate arch m base size = .ok img) :
    (∀ g answer, Protects base size (applyPeImagePermissions arch m g answer base size) []) ↔
    img.opt + 64 ≤ base + size ∧
      (∀ n, m.le (img.opt + 60) 4 = some n →
        base + pageAlignUp n ≤ roundUp pageSize (base + size)) ∧
      ∀ k < img.numSections, SectionInside m base size (img.sections + k * 40) := by
  have hlo := hat.le_opt
  have hhi := hat.opt_lt
  have hround := le_roundUp (a := pageSize) (v := base + size) (by decide)
  have hmul : ∀ n, pageAlignUp n / pageSize * pageSize = pageAlignUp n := by
    intro n
    have := pageAlignUp_eq n
    simp only [pageSize]
    omega
  rw [← hm.le_isSome (a := img.opt + 60) (n := 4) (by omega) (by omega) (by decide)]
  simp only [Protects, applyPeImagePermissions, himg]
  cases hsize : m.le (img.opt + 60) 4 with
  | none => exact ⟨fun h => absurd rfl (wp_throw.1 (h ⟨1, 1⟩ fun _ => 0)).1, fun h =>
    absurd h.1 Bool.false_ne_true⟩
  | some n =>
    simp only [protectHeaders, wp_bind, wp_ite, wp_pure, wp_throw, hmul]
    constructor
    · intro h
      obtain ⟨hreq, hskip⟩ := h ⟨1, 1⟩ fun _ => 0
      simp only [peMmMprotect, wp_ite, wp_bind, wp_modify, wp_pure] at hreq
      refine ⟨rfl, ?_⟩
      by_cases hpages : pageAlignUp n / pageSize > 0
      · obtain ⟨hlog, hsecs⟩ := protectSections_all (((hreq hpages).2 (by decide)).2 (by decide))
        refine ⟨fun n' hn => ?_, by simpa using hsecs⟩
        obtain rfl := Option.some.inj hn
        exact (requestsInside_concat.1 hlog).2.2
      · refine ⟨fun n' hn => ?_, by simpa using (protectSections_all (hskip hpages)).2⟩
        obtain rfl := Option.some.inj hn
        have hzero := hmul n
        rw [Nat.eq_zero_of_not_pos hpages, Nat.zero_mul] at hzero
        omega
    · rintro ⟨-, hheaders, hsecs⟩ g answer
      have hrest {log : List Mprotect} (hlog : RequestsInside base size log) : Protects base size
          (protectSections m g answer base img.sections img.numSections 0) log :=
        protectSections_inside (by simpa using hsecs) hlog
      exact ⟨fun _ => wp_post (mprotect_inside requestsInside_nil ⟨Nat.sub_le _ _, hheaders n rfl⟩)
        fun ret log hlog => ⟨fun _ => ⟨by simp, hlog⟩, fun _ => hrest hlog⟩,
        fun _ => hrest requestsInside_nil⟩

/-- For every image, at every address where it fits and for every distance from its preferred
    address: the passes of the linker stay inside of the image if and only if all places that
    they come to are inside of it. -/
theorem staysInside_iff (hbase : base + image.size ≤ 2 ^ 64) :
    StaysInside arch base delta image ↔ HeadersPlaced arch image ∧
      ∀ img, peValidate arch (.ofFile base image) base image.size = .ok img →
        img.Placed (.ofFile base image) base image.size delta := by
  have hm := spans_ofFile hbase
  have hsec : ∀ {img}, HeadersAt base img → ∀ k < img.numSections, _ := fun {img} hat k hk =>
    sectionInside_iff (a := img.sections + k * 40) hm
      (hat.le_opt.trans (hat.opt_le_sections.trans (Nat.le_add_right _ _)))
      (by
        have := hat.opt_lt
        have := hat.sections_lt
        have := hat.numSections_lt
        omega)
  constructor
  · intro h
    refine ⟨(peValidate_ne_fault_iff hbase).1 h.validate, fun img himg => ?_⟩
    have hat := headersAt himg
    obtain ⟨hopt, hpages, hsecs⟩ := (protect_inside_iff hm hat himg).1 h.protect
    have htable := fun k hk => ((hsec hat k hk).1 (hsecs k hk)).1
    obtain ⟨hdirs, hblocks⟩ := (relocate_inside_iff hm hat htable).1 (h.relocate img himg)
    exact ⟨hopt, hpages, htable, fun k hk => ((hsec hat k hk).1 (hsecs k hk)).2, hdirs, hblocks⟩
  · rintro ⟨hheaders, hplaced⟩
    have hvalidate := (peValidate_ne_fault_iff hbase).2 hheaders
    refine ⟨hvalidate, fun img himg => ?_, ?_⟩
    · have h := hplaced img himg
      exact (relocate_inside_iff hm (headersAt himg) h.table).2 ⟨h.directories, h.blocks⟩
    · cases himg : peValidate arch (.ofFile base image) base image.size with
      | error stop =>
        intro g answer
        rw [applyPeImagePermissions, himg]
        exact wp_throw.2 ⟨fun hstop => hvalidate (himg.trans (congrArg _ hstop)),
          requestsInside_nil⟩
      | ok img =>
        have h := hplaced img himg
        have hat := headersAt himg
        exact (protect_inside_iff hm hat himg).2 ⟨h.optional, h.header_pages, fun k hk =>
          (hsec hat k hk).2 ⟨h.table k hk, h.section_pages k hk⟩⟩

end

/-- An image of one page with one section, which has everything. The relocation directory is
    behind the headers, and its relocation is for the first word behind it. -/
def relocImage : File where
  bytes := peRelocHeaderBytes 1 0x400000 0x1000 288 288 12 ++
    sectionBytes 308 0 308 0 0xC0000000 ++
    (wordBytes 4 0 ++ wordBytes 4 12 ++ wordBytes 2 (0xA000 + 300) ++ wordBytes 2 0) ++
    wordBytes 8 0
  length_lt := by simp [sectionBytes]

/-- What the checks read from the image. -/
def relocImageHeaders : Image :=
  resultOf (peValidate .x86_64 (.ofFile 0x500000 relocImage) 0x500000 relocImage.size)
    (by decide +kernel)

/-- The relocation directory of the image. -/
def relocImageDir : Option DataDirectory :=
  resultOf (relocDir (.ofFile 0x500000 relocImage) relocImageHeaders.opt relocImageHeaders.sections
    relocImageHeaders.numSections) (by decide +kernel)

theorem staysInside_iff_relocImage : StaysInside .x86_64 0x500000 0x100000 relocImage := by
  refine (staysInside_iff (by decide +kernel)).2 ⟨by unfold HeadersPlaced; decide +kernel,
    fun img himg => ?_⟩
  rw [show img = relocImageHeaders from Except.ok.inj (himg.symm.trans (eq_ok_resultOf _))]
  have hheaders : (Memory.ofFile 0x500000 relocImage).le (relocImageHeaders.opt + 60) 4 =
      some 288 := by decide +kernel
  have hcount : (Memory.ofFile 0x500000 relocImage).le (relocImageHeaders.opt + 108) 4 =
      some 6 := by decide +kernel
  have hsec : readSection (.ofFile 0x500000 relocImage) (relocImageHeaders.sections + 0 * 40) =
      some ⟨0, 308, 0xC0000000⟩ := by decide +kernel
  have hone : relocImageHeaders.numSections = 1 := by decide +kernel
  refine ⟨by decide +kernel, fun n hn => ?_, fun i hi => ?_, fun i hi sec hsec' _ => ?_,
    fun _ => ⟨by decide +kernel, fun n hn _ => ?_⟩, fun _ dir hdir => ?_⟩
  · obtain rfl := Option.some.inj (hheaders.symm.trans hn)
    decide +kernel
  · obtain rfl : i = 0 := by omega
    exact ⟨by decide +kernel, .inr (by decide +kernel)⟩
  · obtain rfl : i = 0 := by omega
    obtain rfl := Option.some.inj (hsec.symm.trans hsec')
    decide +kernel
  · exact ⟨by decide +kernel, fun _ => by decide +kernel⟩
  · have hfound : relocImageDir = some ⟨288, 12⟩ := by decide +kernel
    obtain rfl := Option.some.inj (hfound.symm.trans
      (Except.ok.inj ((eq_ok_resultOf _).symm.trans hdir)))
    decide +kernel

/-- An image of 200 bytes whose `e_lfanew` is four less than 2^32. -/
def wrappedImage : File where
  bytes := wordBytes 2 peDosMagic ++ wordBytes 58 0 ++ wordBytes 4 0xFFFFFFFC ++ wordBytes 136 0
  length_lt := by simp

/-- The first sum of the check is zero, and the signature is read far behind the image. -/
theorem wrappedImage_outside :
    wrappedImage.size = 200 ∧ (wrappedImage.le 60 4 + 4) % 2 ^ 32 = 0 ∧
      peValidate .x86_64 (.ofFile 0x500000 wrappedImage) 0x500000 wrappedImage.size =
        .error .fault ∧
      ∀ delta, ¬StaysInside .x86_64 0x500000 delta wrappedImage := by
  have hfault : peValidate .x86_64 (.ofFile 0x500000 wrappedImage) 0x500000 wrappedImage.size =
      .error .fault := by
    by_contra hne
    have hplaced := (peValidate_ne_fault_iff (by decide +kernel)).1 hne
    exact absurd (hplaced (by decide +kernel) (by decide +kernel) (by decide +kernel)).1
      (by decide +kernel)
  exact ⟨by decide +kernel, by decide +kernel, hfault, fun _ h => h.validate hfault⟩

end PeRtld

end Trona
