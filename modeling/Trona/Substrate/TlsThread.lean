import Trona.Substrate.TlsHandover

/-!
# Thread-local data at the start of a thread

What `initialize_static_tls_for_tp` and `tls_addr_from_tp` do when the variables have their values
(`Handed`) and a thread has room for its data (`Room`): the loop over the table fills one object
after the other (`FilledTo`), the header and the control block are apart from the data, and an
object is found if it has an entry in the table.
-/

namespace Trona

namespace Tls

open Rtld Bytes

/-! ## The place of a thread -/

/-- Where a thread is placed depends on the size and the alignment that are handed over. -/
theorem Start.placement_congr {arch : Arch} {vars : TlsSymbols} {m m' : Bytes} (start : Start)
    (hmemsz : m'.word vars.memsz = m.word vars.memsz)
    (halign : m'.word vars.align = m.word vars.align) :
    start.placement arch vars m' = start.placement arch vars m := by
  have htotal : staticTlsTotalMemsz vars m' = staticTlsTotalMemsz vars m := hmemsz
  have hstatic : staticTlsAlign vars m' = staticTlsAlign vars m := by
    rw [staticTlsAlign, staticTlsAlign, halign]
  have hregion : threadTlsRegionSize arch vars m' = threadTlsRegionSize arch vars m := by
    simp only [threadTlsRegionSize, htotal, hstatic]
  cases start with
  | main => rfl
  | worker =>
    simp only [placement, workerPlacement, tcbAfter, htotal, hstatic, hregion]
  | pthread =>
    simp only [placement, pthreadPlacement, tcbAfter, htotal, hstatic]

namespace Process

variable (p : Process)

/-- The place of a thread of the process. -/
def placement (start : Start) : Placement :=
  start.placement p.arch p.vars (putAll p.scalars fun _ => 0)

/-- The range of the thread-local data. -/
def data (start : Start) : Range :=
  match p.arch with
  | .x86_64 => ⟨(p.placement start).tp - p.layout.memsz, p.layout.memsz⟩
  | .aarch64 => ⟨(p.placement start).tp + 16, p.layout.memsz⟩

/-- The templates of the objects. -/
def templates : List Range := p.modules.map fun mod => ⟨mod.templateAddr, mod.filesz⟩

/-- What is written when a thread is set up. -/
def touched (start : Start) : List Range :=
  [(p.placement start).zeroed, p.data start, ⟨(p.placement start).tp, abiTcbSize p.arch⟩,
    ⟨(p.placement start).tcb, tcbSize⟩]

/-- The data are in the address space, and what is written is apart from the variables and the
    templates. -/
structure Room (start : Start) : Prop where
  space : match p.arch with
    | .x86_64 => p.layout.memsz ≤ (p.placement start).tp ∧ (p.placement start).tp < 2 ^ 63
    | .aarch64 => (p.placement start).tp + 16 + p.layout.memsz < 2 ^ 63
  apart : ∀ r ∈ p.touched start, ∀ s ∈ ownRanges p.vars ++ p.templates, r.Apart s
  templates_apart : ∀ r ∈ ownRanges p.vars, ∀ s ∈ p.templates, r.Apart s

end Process

/-- Where the data of an object begin. -/
def spot (tp : ℕ) (mod : TlsModule) : ℕ := ((tp : ℤ) + mod.tpoff).toNat

namespace Process

variable (p : Process)

/-- The thread is set up: the thread pointer is aligned, the data are initialised, and the
    variables are found. -/
structure SetUp (start : Start) (fields : TcbFields) (m : Bytes) : Prop where
  aligned : p.layout.align ∣ (start.placement p.arch p.vars m).tp
  bytes : ∀ mod ∈ p.modules, ∀ k < mod.memsz,
    start.setUp p.arch p.vars fields m (spot (start.placement p.arch p.vars m).tp mod + k) =
      if k < mod.filesz then m (mod.templateAddr + k) else 0
  lookup : ∀ mod ∈ p.modules, ∀ offset < mod.memsz,
    tlsAddrFromTp p.arch p.vars (start.setUp p.arch p.vars fields m)
        (start.placement p.arch p.vars m).tp mod.moduleId offset =
      spot (start.placement p.arch p.vars m).tp mod + offset

theorem word_scalars {a v : ℕ} (hs : (a, wordBytes 8 v) ∈ p.scalars) (hv : v < 2 ^ 64) :
    (putAll p.scalars fun _ => 0).word a = v :=
  word_of_wordBytes (by simpa using slice_putAll p.scalars_pairwise hs) hv

theorem scalars_memsz : (putAll p.scalars fun _ => 0).word p.vars.memsz = p.layout.memsz :=
  p.word_scalars (by simp [scalars]) p.memsz_lt

theorem scalars_align : (putAll p.scalars fun _ => 0).word p.vars.align = p.layout.align :=
  p.word_scalars (by simp [scalars]) p.align_lt

/-! ## The objects -/

section

variable {p} {start : Start} (hroom : p.Room start)

include hroom

variable {mod : TlsModule}

/-- The data of an object are inside of the range. -/
theorem spot_mem (hmod : mod ∈ p.modules) :
    (p.data start).base ≤ spot (p.placement start).tp mod ∧
      spot (p.placement start).tp mod + mod.memsz ≤ (p.data start).base + (p.data start).len ∧
      ((p.placement start).tp : ℤ) + mod.tpoff = spot (p.placement start).tp mod := by
  have hin := p.inside hmod
  have hspace := hroom.space
  rw [data, spot]
  revert hin hspace
  cases p.arch <;> simp only <;> intro hin hspace <;> omega

theorem data_lt : (p.data start).base + (p.data start).len < 2 ^ 63 := by
  have hspace := hroom.space
  rw [data]
  revert hspace
  cases p.arch <;> simp only <;> intro hspace <;> omega

/-- The address of an object as a word. -/
theorem spot_eq (hmod : mod ∈ p.modules) :
    ((p.placement start).tp + tpWord mod) % 2 ^ 64 = spot (p.placement start).tp mod := by
  obtain ⟨-, hhi, heq⟩ := spot_mem hroom hmod
  have hlt := data_lt hroom
  rw [tpWord]
  omega

/-- Of two objects, the one that comes first is nearer to the thread pointer. -/
theorem spot_nearer {i j : ℕ} (hij : i < j) (hj : j < p.modules.length) :
    match p.arch with
    | .x86_64 => spot (p.placement start).tp p.modules[j] + p.modules[j].memsz ≤
        spot (p.placement start).tp p.modules[i]
    | .aarch64 => spot (p.placement start).tp p.modules[i] + p.modules[i].memsz ≤
        spot (p.placement start).tp p.modules[j] := by
  have hi := hij.trans hj
  have hpair := List.pairwise_iff_getElem.1 p.laid.nearer i j hi hj hij
  obtain ⟨-, -, hspoti⟩ := spot_mem hroom (List.getElem_mem hi)
  obtain ⟨-, -, hspotj⟩ := spot_mem hroom (List.getElem_mem hj)
  revert hpair
  cases p.arch <;> simp only [Nearer] <;> intro hpair <;> omega

/-- The data of different objects are apart. -/
theorem spot_apart {i j : ℕ} (hi : i < p.modules.length) (hj : j < p.modules.length) (hij : i ≠ j) :
    Range.Apart ⟨spot (p.placement start).tp p.modules[i], p.modules[i].memsz⟩
      ⟨spot (p.placement start).tp p.modules[j], p.modules[j].memsz⟩ := by
  wlog hlt : i < j generalizing i j
  · exact (this hj hi hij.symm (by omega)).symm
  · have hnearer := spot_nearer hroom hlt hj
    revert hnearer
    cases p.arch <;> intro hnearer
    exacts [.inr (.inr (.inr hnearer)), .inr (.inr (.inl hnearer))]

/-- On x86-64 the last object is at the beginning of the data. -/
theorem spot_last {i : ℕ} (harch : p.arch = .x86_64) (hi : i < p.modules.length)
    (hlast : p.modules.length = i + 1) :
    spot (p.placement start).tp p.modules[i] = (p.data start).base := by
  have hmem : p.modules[i] ∈ p.modules.getLast? := by
    rw [List.getLast?_eq_getElem?, hlast, Nat.add_sub_cancel]
    exact List.getElem?_eq_getElem hi
  have htpoff := p.laid.last harch _ hmem
  have hmemsz := p.memsz_add
  have hspace := hroom.space
  simp only [harch, abiTcbSize] at hmemsz hspace
  simp only [spot, data, harch]
  omega

/-- A byte of an object is in the range of the data. -/
theorem data_contains (hmod : mod ∈ p.modules) {k : ℕ} (hk : k < mod.memsz) :
    (p.data start).Contains (spot (p.placement start).tp mod + k) := by
  obtain ⟨hlo, hhi, -⟩ := spot_mem hroom hmod
  exact ⟨by omega, by omega⟩

end

/-! ## What stays as it is -/

section

variable {p} {start : Start} {m m' : Bytes}

theorem Handed.congr (h : p.Handed m) (hsame : SameOn (ownRanges p.vars) m m') : p.Handed m' where
  memsz := (hsame.word (by simp [ownRanges])).trans h.memsz
  align := (hsame.word (by simp [ownRanges])).trans h.align
  count := (hsame.word (by simp [ownRanges])).trans h.count
  table i hi := by
    have hend : tlsModuleSize * i + tlsModuleSize ≤ tlsModuleSize * maxStaticTlsModules := by
      exact Nat.mul_le_mul_left _ hi
    have hword : ∀ j, j + 8 ≤ tlsModuleSize → m'.word (p.vars.modules + tlsModuleSize * i + j) =
        m.word (p.vars.modules + tlsModuleSize * i + j) := by
      intro j hj
      refine congrArg leNat (hsame.slice
        (r := ⟨p.vars.modules, tlsModuleSize * maxStaticTlsModules⟩)
        (by simp [ownRanges]) ?_ ?_) <;> simp only <;> omega
    rw [← h.table i hi]
    simp only [staticTlsModule, readModule, hword 8 (by decide), hword 16 (by decide),
      hword 24 (by decide), hword 32 (by decide)]
    rw [← Nat.add_zero (_ + _ * i), hword 0 (by decide)]

theorem Handed.count_eq (h : p.Handed m) :
    staticTlsModuleCount p.vars m = min p.modules.length maxStaticTlsModules := by
  rw [staticTlsModuleCount, h.count]

/-- Where a thread is placed. -/
theorem Handed.placement_eq (h : p.Handed m) :
    start.placement p.arch p.vars m = p.placement start :=
  start.placement_congr (h.memsz.trans p.scalars_memsz.symm) (h.align.trans p.scalars_align.symm)

/-- The variables and the templates. -/
def fixed (p : Process) : List Range := ownRanges p.vars ++ p.templates

theorem template_mem_fixed {mod : TlsModule} (hmod : mod ∈ p.modules) :
    ⟨mod.templateAddr, mod.filesz⟩ ∈ p.fixed :=
  List.mem_append_right _ (List.mem_map_of_mem hmod)

/-- Variables and templates stay as they are when a part of what is touched changes. -/
theorem Room.sameOn {r : Range} (hroom : p.Room start) (hr : r ∈ p.touched start)
    (h : Changes r m m') : SameOn p.fixed m m' :=
  h.sameOn (hroom.apart r hr)

end

/-! ## Filling -/

section

variable {p} {start : Start} {m : Bytes} (hroom : p.Room start) (hm : p.Handed m)

/-- The byte `k` of an object when the first `c` of the objects have been filled. -/
def filled (m : Bytes) (c i : ℕ) (mod : TlsModule) (k : ℕ) : UInt8 :=
  if i < c ∧ mod.templateAddr ≠ 0 ∧ k < mod.filesz then m (mod.templateAddr + k) else 0

/-- The variables and templates are those of `m`, and the first `c` objects have been filled. -/
structure FilledTo (p : Process) (start : Start) (m : Bytes) (c : ℕ) (m' : Bytes) : Prop where
  fixed : SameOn p.fixed m m'
  bytes : ∀ i (hi : i < p.modules.length), ∀ k < p.modules[i].memsz,
    m' (spot (p.placement start).tp p.modules[i] + k) = filled m c i p.modules[i] k

include hroom hm

variable {m' : Bytes} {c : ℕ}

section

variable (h : FilledTo p start m c m') (hc : c < p.modules.length) (hmax : c < maxStaticTlsModules)

include h hc hmax

/-- The object `c` is filled from its template. -/
theorem FilledTo.copyModule_eq :
    copyModule p.vars m' (p.placement start).tp c =
      if p.modules[c].templateAddr ≠ 0 ∧ p.modules[c].filesz > 0 then
        m'.copy p.modules[c].templateAddr
          ⟨spot (p.placement start).tp p.modules[c], p.modules[c].filesz⟩
      else m' := by
  have hmod : p.modules[c] ∈ p.modules := List.getElem_mem hc
  have hid : p.modules[c].moduleId = c + 1 := p.moduleId_eq hc
  have hpos := (p.laid.ok _ hmod).memsz_pos
  have hown : SameOn (ownRanges p.vars) m m' := h.fixed.mono (List.subset_append_left _ _)
  have htable : staticTlsModule p.vars m' c = p.modules[c] := by
    rw [(hm.congr hown).table c hmax, List.getD_eq_getElem _ _ hc]
  rw [copyModule, htable, if_neg (by omega), spot_eq hroom hmod]

theorem FilledTo.copyModule_changes :
    Changes ⟨spot (p.placement start).tp p.modules[c], p.modules[c].memsz⟩ m'
      (copyModule p.vars m' (p.placement start).tp c) := by
  have hle := (p.laid.ok _ (List.getElem_mem hc)).filesz_le
  rw [h.copyModule_eq hroom hm hc hmax]
  split
  · refine copy_changes.mono fun a ha => ⟨ha.1, ha.2.trans_le ?_⟩
    simp only
    omega
  · exact fun _ _ => rfl

theorem FilledTo.copyModule_byte {k : ℕ} (hk : k < p.modules[c].memsz) :
    copyModule p.vars m' (p.placement start).tp c (spot (p.placement start).tp p.modules[c] + k) =
      filled m (c + 1) c p.modules[c] k := by
  have hzero : m' (spot (p.placement start).tp p.modules[c] + k) = 0 := by
    rw [h.bytes c hc k hk, filled, if_neg (by omega)]
  rw [h.copyModule_eq hroom hm hc hmax, filled]
  by_cases hcopy : p.modules[c].templateAddr ≠ 0 ∧ k < p.modules[c].filesz
  · have htemplate := h.fixed _ (template_mem_fixed (List.getElem_mem hc))
      (p.modules[c].templateAddr + k) (Range.contains_add hcopy.2)
    rw [if_pos ⟨hcopy.1, by omega⟩, if_pos ⟨Nat.lt_succ_self c, hcopy⟩,
      copy_of_contains (Range.contains_add hcopy.2), Nat.add_sub_cancel_left,
      htemplate]
  · rw [if_neg fun hlt : c < c + 1 ∧ _ => hcopy hlt.2]
    split
    · rename_i hsome
      refine (copy_changes _ fun hin => hcopy ⟨hsome.1, ?_⟩).trans hzero
      exact Nat.lt_of_add_lt_add_left hin.2
    · exact hzero

/-- One step of the loop. -/
theorem FilledTo.step :
    FilledTo p start m (c + 1) (copyModule p.vars m' (p.placement start).tp c) := by
  have hchanges := h.copyModule_changes hroom hm hc hmax
  refine ⟨h.fixed.trans (hroom.sameOn (r := p.data start) (by simp [touched]) ?_), ?_⟩
  · refine hchanges.mono fun a ha => ?_
    obtain ⟨k, rfl⟩ := Nat.exists_eq_add_of_le ha.1
    exact data_contains hroom (List.getElem_mem hc) (Nat.lt_of_add_lt_add_left ha.2)
  · intro i hi k hk
    rcases eq_or_ne i c with rfl | hic
    · exact h.copyModule_byte hroom hm hi hmax hk
    · rw [hchanges _ ((spot_apart hroom hc hi (Ne.symm hic)).not_contains
        (Range.contains_add hk)), h.bytes i hi k hk, filled, filled]
      have hlt : i < c + 1 ↔ i < c := by omega
      simp only [hlt]

end

/-- The whole loop. -/
theorem FilledTo.run (h : FilledTo p start m 0 m') (c : ℕ) (hc : c ≤ p.modules.length)
    (hmax : c ≤ maxStaticTlsModules) :
    FilledTo p start m c
      ((List.range c).foldl (fun m i => copyModule p.vars m (p.placement start).tp i) m') := by
  induction c with
  | zero => exact h
  | succ c ih =>
    rw [List.range_succ, List.foldl_concat]
    exact (ih (Nat.le_of_succ_le hc) (Nat.le_of_succ_le hmax)).step hroom hm hc hmax

omit hm in
/-- Nothing has been filled when the data are zero. -/
theorem filledTo_zero : FilledTo p start m 0 (m.zero (p.data start)) where
  fixed := hroom.sameOn (by simp [touched]) zero_changes
  bytes i hi k hk := by
    rw [zero_of_contains (data_contains hroom (List.getElem_mem hi) hk), filled, if_neg (by omega)]

theorem defaultTlsBase_eq :
    defaultTlsBaseFromTp p.arch p.vars m (p.placement start).tp = (p.data start).base := by
  have hspace := hroom.space
  have htotal : staticTlsTotalMemsz p.vars m = p.layout.memsz := hm.memsz
  rw [data, defaultTlsBaseFromTp.eq_def, htotal]
  revert hspace
  cases p.arch <;> simp only [abiTcbSize] <;> intro hspace
  · rw [wsub_eq hspace.1 (by omega)]
  · exact Nat.mod_eq_of_lt (by omega)

/-- `initialize_static_tls_for_tp` fills all objects that are in the table. -/
theorem initialize_filledTo (hle : p.layout.memsz ≤ maxElfTlsSize) :
    FilledTo p start m (min p.modules.length maxStaticTlsModules)
      (initializeStaticTlsForTp p.arch p.vars m (p.placement start).tp) := by
  have htotal : staticTlsTotalMemsz p.vars m = p.layout.memsz := hm.memsz
  have hzero := filledTo_zero (m := m) hroom
  have hrange : Range.mk (p.data start).base p.layout.memsz = p.data start := by
    rw [data]
    cases p.arch <;> rfl
  rw [initializeStaticTlsForTp]
  simp only [htotal, defaultTlsBase_eq hroom hm, hrange]
  by_cases hnil : p.modules = []
  · rw [if_pos (.inl (p.memsz_eq_zero hnil))]
    exact ⟨.refl, by simp [hnil]⟩
  · have hpos := p.memsz_pos hnil
    have hcount : staticTlsModuleCount p.vars (m.zero (p.data start)) =
        min p.modules.length maxStaticTlsModules :=
      (hm.congr (hzero.fixed.mono (List.subset_append_left _ _))).count_eq
    have hlen := List.length_pos_iff.2 hnil
    rw [if_neg (by omega), hcount, if_neg (by simp only [maxStaticTlsModules]; omega)]
    exact hzero.run hroom hm _ (Nat.min_le_left _ _) (Nat.min_le_right _ _)

omit hroom in
theorem initialize_eq_self (hlt : maxElfTlsSize < p.layout.memsz) (tp : ℕ) :
    initializeStaticTlsForTp p.arch p.vars m tp = m := by
  have htotal : staticTlsTotalMemsz p.vars m = p.layout.memsz := hm.memsz
  rw [initializeStaticTlsForTp]
  simp only [htotal]
  exact if_pos (.inr hlt)

end

end Process

/-! ## The control block -/

section

variable {arch : Arch} {pl : Placement} {fields : TcbFields} {m : Bytes} {tp tcb i : ℕ}

theorem anchor_changes :
    Changes ⟨tp, abiTcbSize arch⟩ m (installRuntimeTcbAnchor arch tp tcb m) := by
  cases arch with
  | x86_64 => exact fun _ _ => rfl
  | aarch64 =>
    have hfst : Changes ⟨tp, 16⟩ m (m.put tp (wordBytes 8 tcb)) :=
      put_changes.mono fun i hi => ⟨hi.1, hi.2.trans_le (by simp)⟩
    refine hfst.trans (put_changes.mono fun i hi => ?_)
    simp only [Range.Contains, length_wordBytes] at hi ⊢
    omega

theorem storeTcb_changes : Changes ⟨tcb, tcbSize⟩ m (storeTcb tcb fields m) := by
  have hput : ∀ m off n v, off + n ≤ tcbSize →
      Changes ⟨tcb, tcbSize⟩ m (put (tcb + off) (wordBytes n v) m) := by
    intro m off n v hle
    refine put_changes.mono fun i hi => ?_
    simp only [Range.Contains, length_wordBytes] at hi ⊢
    omega
  exact ((((hput _ 0 8 _ (by decide)).trans (hput _ 8 8 _ (by decide))).trans
    (hput _ 16 4 _ (by decide))).trans (hput _ 24 8 _ (by decide))).trans
    (hput _ 40 8 _ (by decide))

theorem Start.tcb_x86_64 (start : Start) (vars : TlsSymbols) (m : Bytes) :
    (start.placement .x86_64 vars m).tcb = (start.placement .x86_64 vars m).tp := by
  cases start <;> rfl

theorem Start.tcb_aarch64 (start : Start) (vars : TlsSymbols) (m : Bytes) :
    (∃ block, start = .main block) ∧ (start.placement .aarch64 vars m).tcb =
        (start.placement .aarch64 vars m).tp + abiTcbSize .aarch64 + maxElfTlsSize ∨
      (start.placement .aarch64 vars m).tcb =
        tcbAfter vars m (start.placement .aarch64 vars m).tp := by
  cases start with
  | main block => exact .inl ⟨⟨block, rfl⟩, by simp only [placement, mainPlacement]⟩
  | worker => exact .inr (by simp only [placement, workerPlacement])
  | pthread => exact .inr (by simp only [placement, pthreadPlacement])

theorem satAdd_eq {a b : ℕ} (h : a + b < 2 ^ 64) : satAdd a b = a + b :=
  Nat.min_eq_left (by omega)

theorem le_tcbAfter {vars : TlsSymbols} (h : tp + 16 + staticTlsTotalMemsz vars m < 2 ^ 63) :
    tp + 16 + staticTlsTotalMemsz vars m ≤ tcbAfter vars m tp := by
  have hdown := @alignDown_eq 3 (tp + 16 + staticTlsTotalMemsz vars m + 7) (by decide) (by omega)
  have htp : satAdd tp 16 = tp + 16 := satAdd_eq (by omega)
  rw [tcbAfter, abiTcbSize, htp, satAdd_eq (by omega), tcbAlign, alignUpTo, if_neg (by decide),
    satAdd_eq (by omega)]
  exact le_of_le_of_eq (by omega) hdown.symm

/-- What is neither in the header nor in the control block stays as it is. -/
theorem Placement.finish_outside (htp : ¬(Range.mk pl.tp (abiTcbSize arch)).Contains i)
    (htcb : ¬(Range.mk pl.tcb tcbSize).Contains i) : pl.finish arch fields m i = m i :=
  (storeTcb_changes i htcb).trans (anchor_changes i htp)

end

namespace Process

/-! ## A thread that has been set up -/

section

variable {p : Process} {start : Start} {fields : TcbFields} {m : Bytes} (hroom : p.Room start)

include hroom

theorem finish_sameOn : SameOn p.fixed m ((p.placement start).finish p.arch fields m) := by
  intro r hr i hi
  refine Placement.finish_outside ?_ ?_
  · exact (hroom.apart _ (by simp [touched]) r hr).not_contains hi
  · exact (hroom.apart _ (by simp [touched]) r hr).not_contains hi

/-- The control block comes after the data, on AArch64 for the main thread as far as they are
    not more than `MAX_ELF_TLS_SIZE`. -/
theorem data_le_tcb
    (hmain : p.arch = .aarch64 → (∃ block, start = .main block) → p.layout.memsz ≤ maxElfTlsSize) :
    (p.data start).base + (p.data start).len ≤ (p.placement start).tcb := by
  have hspace := hroom.space
  cases harch : p.arch with
  | x86_64 =>
    have htcb : (p.placement start).tcb = (p.placement start).tp := by
      rw [placement, harch, Start.tcb_x86_64]
    simp only [harch] at hspace
    simp only [data, harch]
    omega
  | aarch64 =>
    have htcb := start.tcb_aarch64 p.vars (putAll p.scalars fun _ => 0)
    rw [← harch] at htcb
    change _ ∧ (p.placement start).tcb = (p.placement start).tp + _ + _ ∨
      (p.placement start).tcb = tcbAfter _ _ (p.placement start).tp at htcb
    simp only [harch] at hspace
    simp only [data, harch]
    rcases htcb with ⟨hstart, htcb⟩ | htcb
    · have hle := hmain harch hstart
      rw [harch, abiTcbSize] at htcb
      omega
    · have htotal : staticTlsTotalMemsz p.vars (putAll p.scalars fun _ => 0) = p.layout.memsz :=
        p.scalars_memsz
      rw [htcb, ← htotal]
      exact le_tcbAfter (by omega)

omit hroom in
/-- The header is apart from the data. -/
theorem finish_data {a : ℕ} (ha : (p.data start).Contains a)
    (htcb : ¬(Range.mk (p.placement start).tcb tcbSize).Contains a) :
    (p.placement start).finish p.arch fields m a = m a := by
  refine Placement.finish_outside ?_ htcb
  have hheader : abiTcbSize p.arch = 0 ∨
      (p.placement start).tp + abiTcbSize p.arch ≤ (p.data start).base := by
    rw [data]
    cases p.arch
    exacts [.inl rfl, .inr le_rfl]
  rintro ⟨hlo, hhi⟩
  have hbase := ha.1
  simp only at hlo hhi
  omega

variable (hm : p.Handed m)

include hm

theorem handed_zeroed : p.Handed (m.zero (p.placement start).zeroed) :=
  hm.congr (zero_changes.sameOn fun r hr =>
    hroom.apart _ (by simp [touched]) r (List.mem_append_left _ hr))

theorem initialize_sameOn :
    SameOn p.fixed m (initializeStaticTlsForTp p.arch p.vars m (p.placement start).tp) := by
  rcases Nat.lt_or_ge maxElfTlsSize p.layout.memsz with hlt | hle
  · rw [initialize_eq_self hm hlt]
    exact .refl
  · exact (initialize_filledTo hroom hm hle).fixed

/-- The variables and the templates stay as they are. -/
theorem setUp_sameOn : SameOn p.fixed m ((p.placement start).setUp p.arch p.vars fields m) :=
  ((hroom.sameOn (by simp [touched]) zero_changes).trans
    (initialize_sameOn hroom (handed_zeroed hroom hm))).trans (finish_sameOn hroom)

/-- The data of an object, when there is not too much of it for `initialize_static_tls_for_tp`. -/
theorem setUp_of_le (hle : p.layout.memsz ≤ maxElfTlsSize) {i k : ℕ} (hi : i < p.modules.length)
    (hk : k < p.modules[i].memsz) :
    (p.placement start).setUp p.arch p.vars fields m
        (spot (p.placement start).tp p.modules[i] + k) =
      filled m (min p.modules.length maxStaticTlsModules) i p.modules[i] k := by
  have hmod : p.modules[i] ∈ p.modules := List.getElem_mem hi
  have hdata := data_contains hroom hmod hk
  have htcb := data_le_tcb hroom fun _ _ => hle
  rw [Placement.setUp, finish_data hdata fun hin => (hdata.2.trans_le htcb).not_ge hin.1,
    (initialize_filledTo hroom (handed_zeroed hroom hm) hle).bytes i hi k hk, filled, filled]
  split
  · rename_i hcopied
    have hsame : SameOn p.fixed m (m.zero (p.placement start).zeroed) :=
      hroom.sameOn (by simp [touched]) zero_changes
    exact hsame _ (template_mem_fixed hmod) _ (Range.contains_add hcopied.2.2)
  · rfl

/-- The data when there is too much of it. -/
theorem setUp_of_lt (hlt : maxElfTlsSize < p.layout.memsz) {a : ℕ} (ha : (p.data start).Contains a)
    (htcb : ¬(Range.mk (p.placement start).tcb tcbSize).Contains a) :
    (p.placement start).setUp p.arch p.vars fields m a = m.zero (p.placement start).zeroed a := by
  rw [Placement.setUp, finish_data ha htcb, initialize_eq_self (handed_zeroed hroom hm) hlt]

/-! ## Lookup -/

omit hroom in
theorem moduleId_table {j : ℕ} (hj : j < min p.modules.length maxStaticTlsModules) :
    (staticTlsModule p.vars m j).moduleId = j + 1 := by
  obtain ⟨hlen, hmax⟩ := Nat.lt_min.1 hj
  rw [hm.table j hmax, List.getD_eq_getElem _ _ hlen]
  exact p.moduleId_eq hlen

/-- An object that is in the table is found, and another one is taken to be at the beginning of
    the data. -/
theorem tlsAddr_eq {i offset : ℕ} (hi : i < p.modules.length)
    (hoffset : offset < p.modules[i].memsz) :
    tlsAddrFromTp p.arch p.vars m (p.placement start).tp p.modules[i].moduleId offset =
      (if i < maxStaticTlsModules then spot (p.placement start).tp p.modules[i]
        else (p.data start).base) + offset := by
  have hmod : p.modules[i] ∈ p.modules := List.getElem_mem hi
  have hid : p.modules[i].moduleId = i + 1 := p.moduleId_eq hi
  obtain ⟨hlo, hend, -⟩ := spot_mem hroom hmod
  have hlt := data_lt hroom
  rw [tlsAddrFromTp]
  by_cases hmax : i < maxStaticTlsModules
  · have hbelow := Nat.lt_min.2 ⟨hi, hmax⟩
    have hfind : (List.range (min p.modules.length maxStaticTlsModules)).find?
        (fun j => (staticTlsModule p.vars m j).moduleId = i + 1) = some i := by
      refine List.find?_range_eq_some.2 ⟨?_, List.mem_range.2 hbelow, fun j hj => ?_⟩
      · exact decide_eq_true (moduleId_table hm hbelow)
      · rw [moduleId_table hm (hj.trans hbelow)]
        simp only [Bool.not_eq_true', decide_eq_false_iff_not]
        omega
    have hread : staticTlsModule p.vars m i = p.modules[i] := by
      rw [hm.table i hmax, List.getD_eq_getElem _ _ hi]
    simp only [hm.count_eq, hid, hfind, hread, spot_eq hroom hmod]
    rw [if_pos hmax, if_pos ⟨Nat.succ_ne_zero i, by omega⟩]
    exact Nat.mod_eq_of_lt (by omega)
  · have hfind : (List.range (min p.modules.length maxStaticTlsModules)).find?
        (fun j => (staticTlsModule p.vars m j).moduleId = i + 1) = none := by
      refine List.find?_eq_none.2 fun j hj => ?_
      have hlt := List.mem_range.1 hj
      rw [moduleId_table hm hlt]
      simp only [decide_eq_true_eq]
      omega
    simp only [hm.count_eq, hid, hfind, defaultTlsBase_eq hroom hm, ite_self]
    rw [if_neg hmax]
    exact Nat.mod_eq_of_lt (by omega)

end

end Process

end Tls

end Trona
