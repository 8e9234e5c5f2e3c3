import Trona.Loader.Pe

/-!
# The image permissions of the PE linker

`apply_pe_image_permissions` (`rtld/pe/rtld_pe_main.c`): once the imports of an image are
resolved, the linker asks the memory server to protect the headers and, one after the
other, the sections. The image is read from memory where it is mapped, and the section
table is not compared with the size of the image.

A section that asks for it is made writable and executable at once: `permissions_wx_iff`
says that no image without such a section leads to a protection of this kind, and that
every other image does when the server agrees.
-/

namespace Trona

namespace PeRtld

def protRead : ℕ := 1
def protWrite : ℕ := 2
def protExec : ℕ := 4

/-- The fields of `g_pe_rtld` that the permissions need. -/
structure Globals where
  capMmsrvEp : ℕ
  ipcBufferVaddr : ℕ

/-- A request to the memory server. -/
structure Mprotect where
  addr : ℕ
  length : ℕ
  prot : ℕ
  deriving DecidableEq

/-- The request makes pages writable and executable. -/
def Mprotect.WritableExecutable (p : Mprotect) : Prop :=
  p.prot &&& protWrite ≠ 0 ∧ p.prot &&& protExec ≠ 0

instance (p : Mprotect) : Decidable p.WritableExecutable := inferInstanceAs (Decidable (_ ∧ _))

/-- Programs of the linker, with the requests made so far. -/
abbrev M := EStateM (Stop ℤ) (List Mprotect)

/-- What is read from memory, or the fault where it cannot be. -/
def load {α : Type} : Option α → Except (Stop ℤ) α
  | none => .error .fault
  | some a => .ok a

/-- Stop with an error code if a test finds something wrong. -/
def failIf (c : Prop) [Decidable c] (code : ℤ) : Except (Stop ℤ) PUnit :=
  if c then .error (.error code) else .ok ⟨⟩

section

variable {α β : Type} {o : Option α} {f : α → Except (Stop ℤ) β} {c : Prop} [Decidable c] {code : ℤ}
  {g : PUnit → Except (Stop ℤ) β} {b : β}

theorem load_bind_ne_fault :
    load o >>= f ≠ .error .fault ↔ ∃ a, o = some a ∧ f a ≠ .error .fault := by
  cases o <;> simp [load, bind, Except.bind]

theorem load_bind_eq_ok : load o >>= f = .ok b ↔ ∃ a, o = some a ∧ f a = .ok b := by
  cases o <;> simp [load, bind, Except.bind]

theorem failIf_bind_ne_fault :
    failIf c code >>= g ≠ .error .fault ↔ (¬c → g ⟨⟩ ≠ .error .fault) := by
  by_cases hc : c <;> simp [failIf, hc, bind, Except.bind]

theorem failIf_bind_eq_ok : failIf c code >>= g = .ok b ↔ ¬c ∧ g ⟨⟩ = .ok b := by
  by_cases hc : c <;> simp [failIf, hc, bind, Except.bind]

end

/-- What `pe_validate` finds: where the optional header and the section table are in memory,
    and the number of sections. -/
structure Image where
  opt : ℕ
  sections : ℕ
  numSections : ℕ

/-- Check the image at an address. The first sum of its bound is one of 32-bit numbers,
    which may wrap. -/
def peValidate (arch : Arch) (m : Memory) (base size : ℕ) : Except (Stop ℤ) Image := do
  failIf (size < 64) (-1)
  let eMagic ← load (m.le base 2)
  failIf (eMagic ≠ peDosMagic) (-1)
  let peOff ← load (m.le (base + 60) 4)
  failIf ((peOff + 4) % 2 ^ 32 + 20 + 112 > size) (-2)
  let sig ← load (m.le (base + peOff) 4)
  failIf (sig ≠ peSignature) (-2)
  let machine ← load (m.le (base + peOff + 4) 2)
  failIf (machine ≠ arch.peMachine) (-3)
  let magic ← load (m.le (base + peOff + 4 + 20) 2)
  failIf (magic ≠ peOptMagicPe32plus) (-4)
  let sizeOfOptionalHeader ← load (m.le (base + peOff + 4 + 16) 2)
  let numberOfSections ← load (m.le (base + peOff + 4 + 2) 2)
  return ⟨base + peOff + 4 + 20, base + peOff + 4 + 20 + sizeOfOptionalHeader, numberOfSections⟩

/-- `pe_section_to_vspace_flags`: the flags a section asks for, as they are. -/
def peSectionToVspaceFlags (characteristics : ℕ) : ℕ :=
  let flags := vspaceFlagUser
  let flags :=
    if characteristics &&& imageScnMemWrite ≠ 0 then flags ||| vspaceFlagWritable else flags
  if characteristics &&& imageScnMemExecute ≠ 0 then flags ||| vspaceFlagExecutable else flags

/-- The protection for the flags of a mapping. -/
def protOf (flags : ℕ) : ℕ :=
  let prot := protRead
  let prot := if flags &&& vspaceFlagWritable ≠ 0 then prot ||| protWrite else prot
  if flags &&& vspaceFlagExecutable ≠ 0 then prot ||| protExec else prot

/-- Ask the memory server to protect a range. The answer is the error of the call, or else
    the word that the server replied with. -/
def peMmMprotect (g : Globals) (answer addr length flags : ℕ) : M ℕ :=
  if g.capMmsrvEp = 0 ∨ g.ipcBufferVaddr = 0 then return 2 ^ 64 - 1
  else do
    modify (· ++ [⟨addr, length, protOf flags⟩])
    return answer

/-- What is read of a section header: `size` is `sec_sz`. -/
structure Section where
  virtualAddress : ℕ
  size : ℕ
  characteristics : ℕ
  deriving DecidableEq

/-- The pages of a section, counted from its start. -/
def secPages (size : ℕ) : ℕ := pageAlignUp size / pageSize

/-- Read the section header at an address. The characteristics of a section without pages are
    not looked at, and zero here. -/
def readSection (m : Memory) (a : ℕ) : Option Section := do
  let virtualAddress ← m.le (a + 12) 4
  let virtualSize ← m.le (a + 8) 4
  let size ← if virtualSize > 0 then some virtualSize else m.le (a + 16) 4
  let characteristics ← if secPages size = 0 then some 0 else m.le (a + 36) 4
  return ⟨virtualAddress, size, characteristics⟩

/-- Protect the section with the number `i`. -/
def protectSection (g : Globals) (answer : Option ℕ → ℕ) (imageBase i : ℕ) (sec : Section) :
    M PUnit := do
  if secPages sec.size ≠ 0 then
    let ret ← peMmMprotect g (answer (some i)) ((imageBase + sec.virtualAddress) % 2 ^ 64)
      (secPages sec.size * pageSize) (peSectionToVspaceFlags sec.characteristics)
    if ret ≠ 0 then throw (.error (-1))

/-- Protect the sections from number `i` on. -/
def protectSections (m : Memory) (g : Globals) (answer : Option ℕ → ℕ) (imageBase sections : ℕ) :
    (todo i : ℕ) → M PUnit
  | 0, _ => return ⟨⟩
  | todo + 1, i =>
    match readSection m (sections + i * 40) with
    | none => throw .fault
    | some sec => do
      protectSection g answer imageBase i sec
      protectSections m g answer imageBase sections todo (i + 1)

/-- Protect the headers, which have `sizeOfHeaders` bytes. -/
def protectHeaders (g : Globals) (answer : Option ℕ → ℕ) (imageBase sizeOfHeaders : ℕ) :
    M PUnit := do
  let hdrPages := pageAlignUp sizeOfHeaders / pageSize
  if hdrPages > 0 then
    let ret ← peMmMprotect g (answer none) imageBase (hdrPages * pageSize) vspaceFlagUser
    if ret ≠ 0 then throw (.error (-1))

/-- Protect an image. The memory server's answers are by section, and by `none` for the
    headers. -/
def applyPeImagePermissions (arch : Arch) (m : Memory) (g : Globals) (answer : Option ℕ → ℕ)
    (imageBase imageSize : ℕ) : M PUnit :=
  match peValidate arch m imageBase imageSize with
  | .error e => throw e
  | .ok img =>
    match m.le (img.opt + 60) 4 with
    | none => throw .fault
    | some sizeOfHeaders => do
      protectHeaders g answer imageBase sizeOfHeaders
      protectSections m g answer imageBase img.sections img.numSections 0

/-! ## Which requests are made -/

/-- No request so far makes pages writable and executable. -/
def NoWx (log : List Mprotect) : Prop := ∀ p ∈ log, ¬p.WritableExecutable

instance (log : List Mprotect) : Decidable (NoWx log) := inferInstanceAs (Decidable (∀ p ∈ log, _))

/-- The section headers from number `i` on, up to the first that cannot be read. -/
def sectionsFrom (m : Memory) (sections : ℕ) : (todo i : ℕ) → List Section
  | 0, _ => []
  | todo + 1, i =>
    match readSection m (sections + i * 40) with
    | none => []
    | some sec => sec :: sectionsFrom m sections todo (i + 1)

/-- The section headers of an image, as its memory has them. Where the size of the headers
    cannot be read, none of them is. -/
def Image.sectionHeaders (m : Memory) (img : Image) : List Section :=
  if (m.le (img.opt + 60) 4).isSome then sectionsFrom m img.sections img.numSections 0 else []

/-- A section asks for pages that are writable and executable. -/
def AsksWx (sec : Section) : Prop :=
  secPages sec.size ≠ 0 ∧ sec.characteristics &&& imageScnMemWrite ≠ 0 ∧
    sec.characteristics &&& imageScnMemExecute ≠ 0

instance (sec : Section) : Decidable (AsksWx sec) := inferInstanceAs (Decidable (_ ∧ _))

section

variable {m : Memory} {g : Globals} {answer : Option ℕ → ℕ} {imageBase sections i : ℕ}
  {sec : Section} {log : List Mprotect}

theorem noWx_append {log' : List Mprotect} : NoWx (log ++ log') ↔ NoWx log ∧ NoWx log' := by
  simp only [NoWx, List.mem_append, or_imp, forall_and]

theorem noWx_singleton {p : Mprotect} : NoWx [p] ↔ ¬p.WritableExecutable := by
  simp [NoWx]

/-- The protection of a section is writable and executable when its characteristics are. -/
theorem writableExecutable_protOf (characteristics addr length : ℕ) :
    (Mprotect.mk addr length (protOf (peSectionToVspaceFlags characteristics))).WritableExecutable ↔
      characteristics &&& imageScnMemWrite ≠ 0 ∧ characteristics &&& imageScnMemExecute ≠ 0 := by
  simp only [Mprotect.WritableExecutable, peSectionToVspaceFlags]
  -- Only the two bits of the characteristics matter.
  by_cases hw : characteristics &&& imageScnMemWrite = 0 <;>
    by_cases hx : characteristics &&& imageScnMemExecute = 0 <;>
    simp only [hw, hx, ne_eq, not_true_eq_false, not_false_eq_true, if_true, if_false] <;> decide

/-- A section that does not ask for both keeps the requests free of it. -/
theorem protectSection_noWx (hsec : ¬AsksWx sec) (hlog : NoWx log) :
    wp (protectSection g answer imageBase i sec) (fun _ => NoWx) (fun _ => NoWx) log := by
  simp only [protectSection, peMmMprotect, wp_ite, wp_bind, wp_modify, wp_pure, wp_throw]
  refine ⟨fun hpages => ?_, fun _ => hlog⟩
  have hlog' : ∀ addr length, NoWx (log ++
      [⟨addr, length, protOf (peSectionToVspaceFlags sec.characteristics)⟩]) := by
    intro addr length
    rw [noWx_append, noWx_singleton, writableExecutable_protOf]
    exact ⟨hlog, fun h => hsec ⟨hpages, h⟩⟩
  exact ⟨fun _ => ⟨fun _ => hlog, fun _ => hlog⟩, fun _ => ⟨fun _ => hlog' _ _, fun _ => hlog' _ _⟩⟩

/-- A server that agrees to everything is asked for what the section asks for. -/
theorem protectSection_agreed {Q : PUnit → List Mprotect → Prop}
    {E : Stop ℤ → List Mprotect → Prop} :
    wp (protectSection ⟨1, 1⟩ (fun _ => 0) imageBase i sec) Q E log →
      ∃ log', Q ⟨⟩ (log ++ log') ∧ (NoWx log' → ¬AsksWx sec) := by
  simp only [protectSection, peMmMprotect, wp_ite, wp_bind, wp_modify, wp_pure, wp_throw]
  rintro ⟨hreq, hskip⟩
  by_cases hpages : secPages sec.size = 0
  · refine ⟨[], ?_, fun _ hasks => hasks.1 hpages⟩
    rw [List.append_nil]
    exact hskip (not_not.2 hpages)
  · refine ⟨_, ((hreq hpages).2 (by decide)).2 (by decide), fun hno hasks => ?_⟩
    rw [noWx_singleton, writableExecutable_protOf] at hno
    exact hno hasks.2

/-- The headers are never made writable. -/
theorem protectHeaders_noWx {sizeOfHeaders : ℕ} (hlog : NoWx log) :
    wp (protectHeaders g answer imageBase sizeOfHeaders) (fun _ => NoWx) (fun _ => NoWx) log := by
  have hprot : ¬(protOf vspaceFlagUser &&& protWrite ≠ 0 ∧
      protOf vspaceFlagUser &&& protExec ≠ 0) := by decide
  have hlog' : ∀ length, NoWx (log ++ [⟨imageBase, length, protOf vspaceFlagUser⟩]) := fun length =>
    noWx_append.2 ⟨hlog, noWx_singleton.2 hprot⟩
  simp only [protectHeaders, peMmMprotect, wp_ite, wp_bind, wp_modify, wp_pure, wp_throw]
  exact ⟨fun _ => ⟨fun _ => ⟨fun _ => hlog, fun _ => hlog⟩,
    fun _ => ⟨fun _ => hlog' _, fun _ => hlog' _⟩⟩, fun _ => hlog⟩

/-- A server that agrees does not stop the linker at the headers. -/
theorem protectHeaders_agreed {sizeOfHeaders : ℕ} {Q : PUnit → List Mprotect → Prop}
    {E : Stop ℤ → List Mprotect → Prop}
    (h : wp (protectHeaders ⟨1, 1⟩ (fun _ => 0) imageBase sizeOfHeaders) Q E log) :
    ∃ log', Q ⟨⟩ log' := by
  simp only [protectHeaders, peMmMprotect, wp_ite, wp_bind, wp_modify, wp_pure, wp_throw] at h
  by_cases hpages : pageAlignUp sizeOfHeaders / pageSize > 0
  · exact ⟨_, ((h.1 hpages).2 (by decide)).2 (by decide)⟩
  · exact ⟨_, h.2 hpages⟩

theorem protectSections_noWx {todo : ℕ}
    (hsecs : ∀ sec ∈ sectionsFrom m sections todo i, ¬AsksWx sec) (hlog : NoWx log) :
    wp (protectSections m g answer imageBase sections todo i) (fun _ => NoWx) (fun _ => NoWx)
      log := by
  induction todo generalizing i log with
  | zero => exact wp_pure.2 hlog
  | succ todo ih =>
    rw [sectionsFrom] at hsecs
    rw [protectSections]
    cases hsec : readSection m (sections + i * 40) with
    | none => exact wp_throw.2 hlog
    | some sec =>
      simp only [hsec, List.forall_mem_cons] at hsecs
      refine wp_bind.2 (wp_post (protectSection_noWx hsecs.1 hlog) fun _ log' hlog' => ?_)
      exact ih hsecs.2 hlog'

/-- When the server agrees to everything, the requests are free of writable and executable
    pages only if they were before and no section asks for them. -/
theorem protectSections_agreed {todo : ℕ}
    (h : wp (protectSections m ⟨1, 1⟩ (fun _ => 0) imageBase sections todo i) (fun _ => NoWx)
      (fun _ => NoWx) log) :
    NoWx log ∧ ∀ sec ∈ sectionsFrom m sections todo i, ¬AsksWx sec := by
  induction todo generalizing i log with
  | zero => exact ⟨wp_pure.1 h, fun _ hsec => absurd hsec List.not_mem_nil⟩
  | succ todo ih =>
    rw [protectSections] at h
    rw [sectionsFrom]
    cases hsec : readSection m (sections + i * 40) with
    | none =>
      rw [hsec] at h
      exact ⟨wp_throw.1 h, fun _ hsec => absurd hsec List.not_mem_nil⟩
    | some sec =>
      rw [hsec] at h
      simp only [List.forall_mem_cons]
      obtain ⟨log', hrest, hasks⟩ := protectSection_agreed (wp_bind.1 h)
      obtain ⟨hlogs, hsecs⟩ := ih hrest
      obtain ⟨hlog, hlog'⟩ := noWx_append.1 hlogs
      exact ⟨hlog, hasks hlog', hsecs⟩

end

/-- For every image in memory: whatever the memory server answers, no protection is writable
    and executable, if and only if no section of the image asks for it. -/
theorem permissions_wx_iff {arch : Arch} {m : Memory} {imageBase imageSize : ℕ} :
    (∀ g answer, wp (applyPeImagePermissions arch m g answer imageBase imageSize) (fun _ => NoWx)
      (fun _ => NoWx) []) ↔
    ∀ img, peValidate arch m imageBase imageSize = .ok img →
      ∀ sec ∈ img.sectionHeaders m, ¬AsksWx sec := by
  have hnil : NoWx [] := fun _ hp => absurd hp List.not_mem_nil
  constructor
  · intro h img himg
    have hrun := h ⟨1, 1⟩ fun _ => 0
    rw [Image.sectionHeaders]
    simp only [applyPeImagePermissions, himg] at hrun
    cases hsize : m.le (img.opt + 60) 4 with
    | none => exact fun _ hsec => absurd hsec List.not_mem_nil
    | some sizeOfHeaders =>
      simp only [hsize] at hrun
      obtain ⟨log, hsecs⟩ := protectHeaders_agreed (wp_bind.1 hrun)
      exact (protectSections_agreed hsecs).2
  · intro h g answer
    rw [applyPeImagePermissions]
    cases himg : peValidate arch m imageBase imageSize with
    | error e => exact wp_throw.2 hnil
    | ok img =>
      have hsecs := h img himg
      rw [Image.sectionHeaders] at hsecs
      cases hsize : m.le (img.opt + 60) 4 with
      | none =>
        simp only [hsize]
        exact wp_throw.2 hnil
      | some sizeOfHeaders =>
        simp only [hsize] at hsecs ⊢
        exact wp_bind.2 (wp_post (protectHeaders_noWx hnil) fun _ log hlog =>
          protectSections_noWx hsecs hlog)

end PeRtld

end Trona
