import Trona.Substrate.TlsThread

/-!
# Static TLS from the linker to a thread

The hand-over as a whole: the linker stores its layout in the variables of libtrona, and a thread
that is set up after that has its thread pointer aligned, its data filled from the templates, and
its variables found (`Delivers`). The two sides do not agree on their limits, so this is not so for
all processes. `delivers_iff` says for which it is (`Supported`):

* the table of the linker has `RTLD_MAX_OBJECTS` entries and is copied as a whole to that of
  libtrona, which has `MAX_STATIC_TLS_MODULES`; what comes after has to be in place before;
* objects that have no entry in libtrona are not filled, and looked up at the beginning of the
  data;
* data of more than `MAX_ELF_TLS_SIZE` are not filled at all;
* the block of the main thread has an alignment of its own.
-/

namespace Trona

namespace Tls

open Rtld Bytes

/-! ## Alignment -/

theorem dvd_alignDownTo {align v : ℕ} (halign : ∃ k < 64, align = 2 ^ k) :
    align ∣ alignDownTo v (max align 16) := by
  obtain ⟨k, hk, rfl⟩ := halign
  have hmax : max (2 ^ k) 16 = 2 ^ max k 4 := by
    rcases Nat.le_total k 4 with hle | hle
    · rw [Nat.max_eq_right hle, Nat.max_eq_right (Nat.pow_le_pow_right (by decide) hle)]
    · rw [Nat.max_eq_left hle, Nat.max_eq_left (Nat.pow_le_pow_right (by decide) hle)]
  rw [alignDownTo, if_neg (by omega), hmax]
  exact (Nat.pow_dvd_pow 2 (Nat.le_max_left k 4)).trans (dvd_alignDown (by omega))

/-- The place of the first object on AArch64. -/
theorem roundUp_sixteen (k : ℕ) : roundUp (2 ^ k) 16 ≤ 4096 ∨ 8192 ≤ roundUp (2 ^ k) 16 := by
  rcases Nat.lt_or_ge k 13 with hlt | hge
  · have hsmall : ∀ k < 13, roundUp (2 ^ k) 16 ≤ 4096 := by decide
    exact .inl (hsmall k hlt)
  · have hpow : 2 ^ 13 ≤ 2 ^ k := Nat.pow_le_pow_right (by decide) hge
    exact .inr (hpow.trans (le_roundUp_of_pos (Nat.two_pow_pos k) (by decide)))

namespace Process

variable {p : Process} {start : Start}

theorem staticTlsAlign_scalars :
    staticTlsAlign p.vars (putAll p.scalars fun _ => 0) = p.layout.align := by
  obtain ⟨k, -, halign⟩ := p.exists_align
  have hpos := Nat.two_pow_pos k
  rw [staticTlsAlign]
  simp only [p.scalars_align]
  rw [if_neg (by omega)]

/-- The thread pointer is aligned unless it is that of the main thread. -/
theorem align_dvd_tp (hstart : ∀ block, start ≠ .main block) :
    p.layout.align ∣ (p.placement start).tp := by
  have halign := p.exists_align
  have hmax : max (max p.layout.align 16) tcbAlign = max p.layout.align 16 :=
    Nat.max_eq_left ((by decide : tcbAlign ≤ 16).trans (Nat.le_max_right _ _))
  cases start with
  | main block => exact absurd rfl (hstart block)
  | worker | pthread =>
    simp only [placement, Start.placement, workerPlacement, pthreadPlacement,
      staticTlsAlign_scalars]
    cases p.arch <;> simp only [hmax] <;> exact dvd_alignDownTo halign

/-! ## Lookup -/

section

variable {m : Bytes} (hroom : p.Room start)

include hroom

/-- All variables are found if the table has room for the objects; on x86-64 one more object may
    have its data at the beginning. -/
theorem lookup_iff (hm : p.Handed m) :
    (∀ mod ∈ p.modules, ∀ offset < mod.memsz,
        tlsAddrFromTp p.arch p.vars m (p.placement start).tp mod.moduleId offset =
          spot (p.placement start).tp mod + offset) ↔
      p.modules.length ≤ maxStaticTlsModules ∨
        p.arch = .x86_64 ∧ p.modules.length = maxStaticTlsModules + 1 := by
  constructor
  · intro h
    by_contra hcount
    rw [not_or, not_and] at hcount
    have hlt : maxStaticTlsModules < p.modules.length := Nat.lt_of_not_le hcount.1
    have hpos := (p.laid.ok _ (List.getElem_mem hlt)).memsz_pos
    have hbase := h _ (List.getElem_mem hlt) 0 hpos
    rw [tlsAddr_eq hroom hm hlt hpos, if_neg (lt_irrefl _)] at hbase
    -- another object is nearer to the beginning of the data
    obtain ⟨j, hj, hbelow⟩ : ∃ j, ∃ hj : j < p.modules.length,
        spot (p.placement start).tp p.modules[j] + p.modules[j].memsz ≤
          spot (p.placement start).tp p.modules[maxStaticTlsModules] := by
      cases harch : p.arch with
      | x86_64 =>
        have hnext : maxStaticTlsModules + 1 < p.modules.length := by
          have := hcount.2 harch
          omega
        have hnearer := spot_nearer hroom (Nat.lt_succ_self _) hnext
        simp only [harch] at hnearer
        exact ⟨_, hnext, hnearer⟩
      | aarch64 =>
        have hnearer := spot_nearer hroom (by decide : 0 < maxStaticTlsModules) hlt
        simp only [harch] at hnearer
        exact ⟨0, by omega, hnearer⟩
    have hlo := (spot_mem hroom (List.getElem_mem hj)).1
    have hmem := (p.laid.ok _ (List.getElem_mem hj)).memsz_pos
    omega
  · intro hcount mod hmod offset hoffset
    obtain ⟨i, hi, rfl⟩ := List.getElem_of_mem hmod
    rw [tlsAddr_eq hroom hm hi hoffset]
    split
    · rfl
    · obtain ⟨harch, hlen⟩ := hcount.resolve_left (by omega)
      rw [spot_last hroom harch hi (by omega)]

end

/-! ## The whole way -/

section

variable (p) (start)

/-- The hand-over is right, and every thread that is set up after it has its data, whatever else
    is in memory. -/
structure Delivers (fields : TcbFields) (mem : Bytes) : Prop where
  handsOver : p.HandsOver mem
  setUp : ∀ m, SameOn p.fixed (p.exported mem) m → p.SetUp start fields m

/-- When it is right: the end of the table is in place before, the block of the main thread is
    aligned, the table of libtrona has room for the objects, and templates that are not copied are
    zero, where the data are zero already if there is too much of it to be filled. -/
structure Supported (mem : Bytes) : Prop where
  tail : p.TailInPlace mem
  aligned : ∀ block, start = .main block → p.layout.align ∣ (p.placement start).tp
  count : p.modules.length ≤ maxStaticTlsModules ∨
    p.arch = .x86_64 ∧ p.modules.length = maxStaticTlsModules + 1
  cleared : maxElfTlsSize < p.layout.memsz → ∀ mod ∈ p.modules, ∀ k < mod.memsz,
    (p.placement start).zeroed.Contains (spot (p.placement start).tp mod + k)
  zero : ∀ i (hi : i < p.modules.length), maxStaticTlsModules ≤ i ∨ p.modules[i].templateAddr = 0 ∨
    maxElfTlsSize < p.layout.memsz →
      ∀ k < p.modules[i].filesz, mem (p.modules[i].templateAddr + k) = 0

end

/-- The byte `k` of the data of an object. -/
def wanted (mem : Bytes) (mod : TlsModule) (k : ℕ) : UInt8 :=
  if k < mod.filesz then mem (mod.templateAddr + k) else 0

section

variable {fields : TcbFields} {mem m : Bytes} (hroom : p.Room start)

include hroom

variable {mod : TlsModule} {k : ℕ}

section

variable (h : p.HandsOver mem) (hsame : SameOn p.fixed (p.exported mem) m) (hmod : mod ∈ p.modules)

include h hsame hmod

/-- The templates are not changed by the hand-over. -/
theorem template_eq (hk : k < mod.filesz) :
    m (mod.templateAddr + k) = mem (mod.templateAddr + k) := by
  have hin : (Range.mk mod.templateAddr mod.filesz).Contains (mod.templateAddr + k) :=
    Range.contains_add hk
  rw [hsame _ (template_mem_fixed hmod) _ hin]
  refine h.unchanged _ fun r hr => ?_
  exact (hroom.templates_apart r hr _ (List.mem_map_of_mem hmod)).not_contains hin

/-- A byte that has to be in the data, from memory before the hand-over. -/
theorem wanted_eq (k : ℕ) :
    (if k < mod.filesz then m (mod.templateAddr + k) else 0) = wanted mem mod k := by
  rw [wanted]
  split
  · exact template_eq hroom h hsame hmod ‹_›
  · rfl

end

/-- The first object is not where the control block is, however much data there is. -/
theorem exists_outside (hne : p.modules ≠ []) :
    ∃ mod ∈ p.modules,
      ¬(Range.mk (p.placement start).tcb tcbSize).Contains
        (spot (p.placement start).tp mod + 0) := by
  obtain ⟨mod, hhead⟩ := Option.isSome_iff_exists.1 (List.isSome_head?.2 hne)
  have hmod : mod ∈ p.modules := List.mem_of_head? hhead
  refine ⟨mod, hmod, fun hin => ?_⟩
  by_cases hmain : p.arch = .aarch64 ∧ ∃ block, start = .main block
  · obtain ⟨harch, block, rfl⟩ := hmain
    have htcb : (p.placement (.main block)).tcb = (p.placement (.main block)).tp + 4112 := by
      simp only [placement, Start.placement, mainPlacement, harch, abiTcbSize, maxElfTlsSize]
    obtain ⟨k, -, htpoff⟩ : ∃ k < 64, mod.tpoff = roundUp (2 ^ k) 16 := by
      have hfits := p.fits
      rw [harch] at hfits
      rw [modules, layout, harch] at hhead
      obtain ⟨map, hmap, htpoff⟩ := finalizeMaps_head (t := .start .aarch64)
        (fun map hmap => (p.ok map hmap).align) hfits (by decide) hhead
      obtain ⟨k, hk, hpow⟩ := LinkMap.PowAlign.exists_alignment (p.ok map hmap).align
      exact ⟨k, hk, htpoff.trans (by rw [← hpow]; rfl)⟩
    have hfar := roundUp_sixteen k
    have hspot := (spot_mem hroom hmod).2.2
    obtain ⟨hlo, hhi⟩ := hin
    simp only [tcbSize] at hlo hhi
    omega
  · have hle := data_le_tcb hroom fun harch hstart => absurd ⟨harch, hstart⟩ hmain
    have hdata := data_contains hroom hmod (p.laid.ok mod hmod).memsz_pos
    exact (hdata.2.trans_le hle).not_ge hin.1

/-- When there is too much data to be filled, all of it has to be zero before. -/
theorem Delivers.contains (h : p.Delivers start fields mem) (hlt : maxElfTlsSize < p.layout.memsz)
    (hmod : mod ∈ p.modules) (hk : k < mod.memsz)
    (htcb : ¬(Range.mk (p.placement start).tcb tcbSize).Contains
      (spot (p.placement start).tp mod + k)) :
    (p.placement start).zeroed.Contains (spot (p.placement start).tp mod + k) := by
  by_contra hout
  have hdata := data_contains hroom hmod hk
  generalize ha : spot (p.placement start).tp mod + k = a at htcb hout hdata
  -- put something else there than what has to be there
  have hput : SameOn p.fixed (p.exported mem) (put a [wanted mem mod k + 1] (p.exported mem)) :=
    hroom.sameOn (r := p.data start) (by simp [touched]) (put_changes.mono fun i hi => by
      have : i = a := Nat.le_antisymm (Nat.le_of_lt_succ hi.2) hi.1
      exact this ▸ hdata)
  have hm := p.handed h.handsOver (hput.mono (List.subset_append_left _ _))
  have hbyte := (h.setUp _ hput).bytes mod hmod k hk
  rw [wanted_eq hroom h.handsOver hput hmod, Start.setUp, hm.placement_eq, ha,
    setUp_of_lt hroom hm hlt hdata htcb, zero_changes a hout] at hbyte
  have hself : put a [wanted mem mod k + 1] (p.exported mem) a = wanted mem mod k + 1 :=
    put_inside (i := 0) (by simp)
  grind

omit hroom in
/-- Nothing is cleared for the main thread. -/
theorem not_contains_zeroed (hmain : ∃ block, start = .main block) (a : ℕ) :
    ¬(p.placement start).zeroed.Contains a := by
  obtain ⟨block, rfl⟩ := hmain
  rintro ⟨-, hlt⟩
  revert hlt
  simp only [placement, Start.placement, mainPlacement]
  cases p.arch <;> exact Nat.not_lt_zero a

/-- The data of a thread that has been set up: the templates that have been copied, and zero for
    the rest. -/
theorem setUp_byte (hm : p.Handed m)
    (hcleared : maxElfTlsSize < p.layout.memsz → ∀ mod ∈ p.modules, ∀ k < mod.memsz,
      (p.placement start).zeroed.Contains (spot (p.placement start).tp mod + k)) {i : ℕ}
    (hi : i < p.modules.length) (hk : k < p.modules[i].memsz) :
    (p.placement start).setUp p.arch p.vars fields m
        (spot (p.placement start).tp p.modules[i] + k) =
      if ¬(maxStaticTlsModules ≤ i ∨ p.modules[i].templateAddr = 0 ∨
          maxElfTlsSize < p.layout.memsz) ∧ k < p.modules[i].filesz
      then m (p.modules[i].templateAddr + k) else 0 := by
  have hmod : p.modules[i] ∈ p.modules := List.getElem_mem hi
  rcases Nat.lt_or_ge maxElfTlsSize p.layout.memsz with hlt | hle
  · have hin := hcleared hlt _ hmod k hk
    have hdata := data_contains hroom hmod hk
    have htcb := data_le_tcb hroom fun _ hmain => absurd hin (not_contains_zeroed hmain _)
    rw [setUp_of_lt hroom hm hlt hdata fun hin => (hdata.2.trans_le htcb).not_ge hin.1,
      zero_of_contains hin, if_neg fun hnot => hnot.1 (.inr (.inr hlt))]
  · rw [setUp_of_le hroom hm hle hi hk, filled]
    refine if_congr ?_ rfl rfl
    omega

/-- The lookup in a thread that has been set up. -/
theorem lookup_setUp_iff (hm : p.Handed m) :
    (∀ mod ∈ p.modules, ∀ offset < mod.memsz,
        tlsAddrFromTp p.arch p.vars (start.setUp p.arch p.vars fields m)
            (start.placement p.arch p.vars m).tp mod.moduleId offset =
          spot (start.placement p.arch p.vars m).tp mod + offset) ↔
      p.modules.length ≤ maxStaticTlsModules ∨
        p.arch = .x86_64 ∧ p.modules.length = maxStaticTlsModules + 1 := by
  rw [Start.setUp, hm.placement_eq]
  have hsame : SameOn p.fixed m ((p.placement start).setUp p.arch p.vars fields m) :=
    setUp_sameOn hroom hm
  exact lookup_iff hroom (hm.congr (hsame.mono (List.subset_append_left _ _)))

theorem Delivers.supported (h : p.Delivers start fields mem) : p.Supported start mem := by
  have hm := p.handed h.handsOver .refl
  have hsetUp := h.setUp _ .refl
  have hcleared : maxElfTlsSize < p.layout.memsz → ∀ mod ∈ p.modules, ∀ k < mod.memsz,
      (p.placement start).zeroed.Contains (spot (p.placement start).tp mod + k) := by
    intro hlt mod hmod k hk
    by_cases hmain : ∃ block, start = .main block
    · obtain ⟨first, hfirst, htcb⟩ := exists_outside hroom (List.ne_nil_of_mem hmod)
      have hin := h.contains hroom hlt hfirst (p.laid.ok _ hfirst).memsz_pos htcb
      exact absurd hin (not_contains_zeroed hmain _)
    · have hle := data_le_tcb hroom fun _ hstart => absurd hstart hmain
      have hdata := data_contains hroom hmod hk
      exact h.contains hroom hlt hmod hk fun hin => (hdata.2.trans_le hle).not_ge hin.1
  refine ⟨p.handsOver_iff.1 h.handsOver, fun block _ => ?_, ?_, hcleared, ?_⟩
  · rw [← hm.placement_eq]
    exact hsetUp.aligned
  · exact (lookup_setUp_iff hroom hm).1 hsetUp.lookup
  · intro i hi hskip k hk
    have hmod : p.modules[i] ∈ p.modules := List.getElem_mem hi
    have hk' := hk.trans_le (p.laid.ok _ hmod).filesz_le
    have hbyte := hsetUp.bytes _ hmod k hk'
    rw [wanted_eq hroom h.handsOver .refl hmod, wanted, if_pos hk, Start.setUp,
      hm.placement_eq] at hbyte
    rw [← hbyte, setUp_byte hroom hm hcleared hi hk', if_neg fun hnot => hnot.1 hskip]

theorem Supported.delivers (h : p.Supported start mem) : p.Delivers start fields mem := by
  have hover := p.handsOver_iff.2 h.tail
  refine ⟨hover, fun m hsame => ?_⟩
  have hm := p.handed hover (hsame.mono (List.subset_append_left _ _))
  refine ⟨?_, ?_, (lookup_setUp_iff hroom hm).2 h.count⟩
  · rw [hm.placement_eq]
    by_cases hmain : ∃ block, start = .main block
    · obtain ⟨block, hstart⟩ := hmain
      exact h.aligned block hstart
    · exact align_dvd_tp fun block hstart => hmain ⟨block, hstart⟩
  · intro mod hmod k hk
    obtain ⟨i, hi, rfl⟩ := List.getElem_of_mem hmod
    rw [Start.setUp, hm.placement_eq, setUp_byte hroom hm h.cleared hi hk]
    by_cases hlt : k < p.modules[i].filesz
    · rw [if_pos hlt]
      split
      · rfl
      · rename_i hskip
        rw [template_eq hroom hover hsame hmod hlt]
        exact (h.zero i hi (not_not.1 fun hnot => hskip ⟨hnot, hlt⟩) k hlt).symm
    · rw [if_neg hlt, if_neg fun hcopy => hlt hcopy.2]

end

/-- The hand-over of static TLS from the linker to a thread is right exactly when it is
    supported. -/
theorem delivers_iff (p : Process) (start : Start) (hroom : p.Room start) (fields : TcbFields)
    (mem : Bytes) : p.Delivers start fields mem ↔ p.Supported start mem :=
  ⟨fun h => h.supported hroom, fun h => h.delivers hroom⟩

/-- A process with one object that has eight bytes of thread-local data. -/
def oneObject : Process where
  arch := .x86_64
  maps := [{ tlsTemplate := 0x5000, tlsFilesz := 4, tlsMemsz := 8, tlsAlign := 8 }]
  vars := ⟨0x1000, 0x1008, 0x1010, 0x1018, 0x1020, 0x1028⟩
  exeVaddr := 0x5000
  exeFilesz := 4
  length_le := by decide
  ok := by
    intro map hmap
    obtain rfl := List.mem_singleton.1 hmap
    exact ⟨by decide, .inr ⟨3, by decide, rfl⟩, by decide, by decide⟩
  fits := by decide
  found := by decide
  apart := by decide

theorem oneObject_room : oneObject.Room (.main 0x20000) where
  space := ⟨by decide, by decide⟩
  apart := by decide
  templates_apart := by decide

/-- The template, and zero in the rest of memory. -/
def clean : Bytes := put 0x5000 [1, 2, 3, 4] fun _ => 0

/-- The main thread has its data, from memory that is zero after the table. -/
theorem delivers_oneObject : oneObject.Room (.main 0x20000) ∧
    oneObject.Delivers (.main 0x20000) ⟨0, 0, 0, 0⟩ clean := by
  refine ⟨oneObject_room, (delivers_iff _ _ oneObject_room _ _).2 ⟨?_, ?_, ?_, ?_, ?_⟩⟩
  · rw [TailInPlace]
    decide +kernel
  · intro block _
    decide
  · exact .inl (by decide)
  · intro hlt
    exact absurd hlt (by decide)
  · intro i hi hskip
    have hlen : oneObject.modules.length = 1 := rfl
    obtain rfl : i = 0 := by omega
    exact absurd hskip (by decide +revert)

/-- The linker stores after the end of the table: the byte after it, of some other variable, is
    changed. -/
theorem exported_overruns : oneObject.Room (.main 0x20000) ∧
    (∀ r ∈ ownRanges oneObject.vars, ¬r.Contains 0x1168) ∧
    oneObject.exported (fun _ => 1) 0x1168 = 0 ∧
    ¬oneObject.Delivers (.main 0x20000) ⟨0, 0, 0, 0⟩ fun _ => 1 := by
  have hout : ∀ r ∈ ownRanges oneObject.vars, ¬r.Contains 0x1168 := by
    simp [ownRanges, Range.Contains, oneObject, tlsModuleSize, maxStaticTlsModules]
  have hbyte : oneObject.exported (fun _ => 1) 0x1168 = 0 := by decide +kernel
  refine ⟨oneObject_room, hout, hbyte, fun h => ?_⟩
  have hsame := h.handsOver.unchanged 0x1168 hout
  rw [hbyte] at hsame
  exact absurd hsame (by decide)

end Process

end Tls

end Trona
