import Trona.Lib.Word

/-!
# The address layout of a child process

`compute_vm_layout` (`substrate/layout.rs`): where the regions of a child go, from the
sizes of its executable, of the dynamic linker, of the shared libraries and of the
initrd window. `compute_vm_layout_randomized` moves the code and the stack by random
amounts, and takes the first layout if they do not fit then.

The code, the stack above it, the scratch page and the initrd window follow each other
in both layouts (`planOf_sound`). So the regions are apart and as large as they should be
where the sums of the code are words (`vmLayout_sound`).
-/

namespace Trona

/-- A contiguous region of addresses. -/
structure VmRegion where
  base : ℕ
  size : ℕ
  deriving DecidableEq

def VmRegion.zero : VmRegion := ⟨0, 0⟩

/-- The address past the end of a region. -/
def VmRegion.fin (r : VmRegion) : ℕ := (r.base + r.size) % 2 ^ 64

/-- The regions of the code. -/
structure CodePlan where
  elfCode : VmRegion
  rtld : VmRegion
  sharedLibs : VmRegion
  deriving DecidableEq

/-- The layout of a child process. Regions of size zero are unused. -/
structure VmLayoutPlan extends CodePlan where
  ipcBuf : VmRegion
  stack : VmRegion
  scratch : VmRegion
  initrd : VmRegion
  stackTop : ℕ
  deriving DecidableEq

/-- What is asked for: the arguments of `compute_vm_layout`. -/
structure LayoutRequest where
  elfSpan : ℕ
  rtldSpan : ℕ
  sharedLibCachePages : ℕ
  mapInitrd : Bool
  initrdWindowSize : ℕ

def ipcBufBase : ℕ := 0x200000
def elfCodeBase : ℕ := 0x210000
def childStackPages : ℕ := 32
def defaultStackBase : ℕ := 0x3F8000
def defaultStackTop : ℕ := defaultStackBase + childStackPages * 0x1000
def defaultScratchBase : ℕ := defaultStackTop
def initrdBase : ℕ := 0x1000000
def window2StackBase : ℕ := 0x7F8000
def window2StackTop : ℕ := window2StackBase + childStackPages * 0x1000
def window2ScratchBase : ℕ := window2StackTop

/-- Place the code from an address on: the first half of both functions. -/
def placeCode (req : LayoutRequest) (codeBase : ℕ) : CodePlan :=
  let elfCode : VmRegion := ⟨codeBase, pageAlignUp req.elfSpan⟩
  let rtld : VmRegion :=
    if req.rtldSpan > 0 then
      ⟨pageAlignUp ((elfCode.fin + 0x1000) % 2 ^ 64), pageAlignUp req.rtldSpan⟩
    else .zero
  let sharedLibs : VmRegion :=
    if req.sharedLibCachePages > 0 ∧ rtld.size > 0 then
      ⟨pageAlignUp ((rtld.fin + 0x1000) % 2 ^ 64), req.sharedLibCachePages * 0x1000 % 2 ^ 64⟩
    else .zero
  { elfCode, rtld, sharedLibs }

/-- The end of the code. -/
def CodePlan.codeEnd (code : CodePlan) : ℕ :=
  if code.sharedLibs.size > 0 then code.sharedLibs.fin
  else if code.rtld.size > 0 then code.rtld.fin
  else code.elfCode.fin

/-- The stack, the scratch page and the top of the stack. A stack that does not fit below its
    default place goes to the second window, or above the code. -/
def stackRegions (codeEnd : ℕ) : VmRegion × VmRegion × ℕ :=
  let stackSize := childStackPages * 0x1000
  if codeEnd ≤ defaultStackBase then
    (⟨defaultStackBase, stackSize⟩, ⟨defaultScratchBase, 0x1000⟩, defaultStackTop)
  else if codeEnd ≤ window2StackBase then
    (⟨window2StackBase, stackSize⟩, ⟨window2ScratchBase, 0x1000⟩, window2StackTop)
  else
    let sbase := pageAlignUp ((codeEnd + 0x10000) % 2 ^ 64)
    (⟨sbase, stackSize⟩, ⟨(sbase + stackSize) % 2 ^ 64, 0x1000⟩, (sbase + stackSize) % 2 ^ 64)

/-- The initrd window, above the scratch page. -/
def placeInitrd (req : LayoutRequest) (scratch : VmRegion) : VmRegion :=
  if req.mapInitrd ∧ req.initrdWindowSize > 0 then
    ⟨if scratch.size > 0 ∧ scratch.fin > initrdBase then
        pageAlignUp ((scratch.fin + 0x1000) % 2 ^ 64)
      else initrdBase,
      pageAlignUp req.initrdWindowSize⟩
  else .zero

/-- Compute the layout of a child. -/
def computeVmLayout (req : LayoutRequest) : VmLayoutPlan :=
  let code := placeCode req elfCodeBase
  let (stack, scratch, stackTop) := stackRegions code.codeEnd
  { code with
    ipcBuf := ⟨ipcBufBase, 0x1000⟩, stack, scratch, initrd := placeInitrd req scratch, stackTop }

/-- The layout with a stack at `stackBase`, and the scratch page after it. -/
def planOf (code : CodePlan) (stackBase : ℕ) (initrd : VmRegion) : VmLayoutPlan :=
  { code with
    ipcBuf := ⟨ipcBufBase, 0x1000⟩
    stack := ⟨stackBase, childStackPages * 0x1000⟩
    scratch := ⟨(stackBase + childStackPages * 0x1000) % 2 ^ 64, 0x1000⟩
    initrd
    stackTop := (stackBase + childStackPages * 0x1000) % 2 ^ 64 }

/-- `ASLR_CODE_MAX_PAGES`. -/
def aslrCodeMaxPages : ℕ := 256

/-- `ASLR_STACK_MAX_PAGES`. -/
def aslrStackMaxPages : ℕ := 64

/-- By how much a region is moved, with what the random number generator returns. -/
def slide (maxPages : ℕ) : Option ℕ → ℕ
  | some v => v % maxPages * 0x1000
  | none => 0

/-- Compute a random layout of a child. The random number generator is asked twice. -/
def computeVmLayoutRandomized (req : LayoutRequest) (rand : Option ℕ × Option ℕ) : VmLayoutPlan :=
  let codeSlide := slide aslrCodeMaxPages rand.1
  let stackSlide := slide aslrStackMaxPages rand.2
  let code := placeCode req (elfCodeBase + codeSlide)
  let initrd : VmRegion :=
    if req.mapInitrd ∧ req.initrdWindowSize > 0 then
      ⟨initrdBase, pageAlignUp req.initrdWindowSize⟩
    else .zero
  if code.codeEnd ≤ defaultStackBase - stackSlide then
    let plan := planOf code (defaultStackBase - stackSlide) initrd
    if plan.stack.fin > plan.scratch.base then computeVmLayout req else plan
  else if code.codeEnd ≤ window2StackBase - stackSlide then
    let plan := planOf code (window2StackBase - stackSlide) initrd
    if plan.stack.fin > plan.scratch.base then computeVmLayout req else plan
  else computeVmLayout req

/-! ## The heap and the mappings -/

namespace VmLayoutPlan

variable (plan : VmLayoutPlan)

/-- The greater of an address and the end of a region, if that is not empty. -/
def raise (highest : ℕ) (r : VmRegion) : ℕ :=
  if r.size > 0 ∧ r.fin > highest then r.fin else highest

/-- The variable `highest` of `heap_base`. -/
def highest : ℕ := raise (raise (raise plan.codeEnd plan.stack) plan.scratch) plan.initrd

/-- The beginning of the heap. -/
def heapBase : ℕ := pageAlignUp plan.highest

def regions : List VmRegion :=
  [plan.ipcBuf, plan.elfCode, plan.rtld, plan.sharedLibs, plan.stack, plan.scratch, plan.initrd]

/-- The highest end of a region. -/
def maxMappedEnd : ℕ := plan.regions.foldl raise 0

end VmLayoutPlan

/-- `MMAP_BASE_GAP`. -/
def mmapBaseGap : ℕ := 0x10000000

/-- Where mappings begin. The sum is saturating. -/
def computeMmapBase (plan : VmLayoutPlan) (heapBase : ℕ) : ℕ :=
  pageAlignUp (min (max plan.maxMappedEnd heapBase + mmapBaseGap) (2 ^ 64 - 1))

/-! ## What a layout should be -/

/-- The end of a region as a number. -/
def VmRegion.limit (r : VmRegion) : ℕ := r.base + r.size

/-- No address is in both regions. -/
def VmRegion.Apart (r s : VmRegion) : Prop :=
  r.size = 0 ∨ s.size = 0 ∨ r.limit ≤ s.base ∨ s.limit ≤ r.base

/-- The layout of a child is right, for the sizes that were asked for. -/
structure VmLayoutPlan.Sound (plan : VmLayoutPlan) (req : LayoutRequest) : Prop where
  aligned : ∀ r ∈ plan.regions, r.base % 4096 = 0 ∧ r.size % 4096 = 0
  apart : plan.regions.Pairwise VmRegion.Apart
  ipcBuf : 0x1000 ≤ plan.ipcBuf.size
  elfCode : req.elfSpan ≤ plan.elfCode.size
  rtld : req.rtldSpan ≤ plan.rtld.size
  sharedLibs : 0 < req.rtldSpan → req.sharedLibCachePages * 0x1000 ≤ plan.sharedLibs.size
  stack : childStackPages * 0x1000 ≤ plan.stack.size
  scratch : 0x1000 ≤ plan.scratch.size
  initrd : req.mapInitrd → req.initrdWindowSize ≤ plan.initrd.size
  stackTop : plan.stackTop = plan.stack.limit
  heap : plan.highest + 0xFFF < 2 ^ 64 → ∀ r ∈ plan.regions, r.limit ≤ plan.heapBase
  mmap : ∀ heapBase, max plan.maxMappedEnd heapBase + mmapBaseGap + 0xFFF < 2 ^ 64 →
    (∀ r ∈ plan.regions, r.limit + 0x10000000 ≤ computeMmapBase plan heapBase) ∧
      heapBase + 0x10000000 ≤ computeMmapBase plan heapBase

/-- The sums of `placeCode` are words. -/
structure CodePlan.Fits (code : CodePlan) (req : LayoutRequest) : Prop where
  elfSpan : req.elfSpan + 0xFFF < 2 ^ 64
  elfCode : code.elfCode.limit < 2 ^ 64
  rtldBase : 0 < req.rtldSpan → code.elfCode.limit + 0x1000 + 0xFFF < 2 ^ 64
  rtldSpan : req.rtldSpan + 0xFFF < 2 ^ 64
  rtld : code.rtld.limit < 2 ^ 64
  libsBase : 0 < req.sharedLibCachePages → 0 < code.rtld.size →
    code.rtld.limit + 0x1000 + 0xFFF < 2 ^ 64
  libsSize : 0 < code.rtld.size → req.sharedLibCachePages * 0x1000 < 2 ^ 64
  sharedLibs : code.sharedLibs.limit < 2 ^ 64

/-! ## The regions follow each other -/

section

variable {req : LayoutRequest} {codeBase v : ℕ} {code : CodePlan} {r : VmRegion}

theorem pageAlignUp_spec (h : v + 0xFFF < 2 ^ 64) :
    v ≤ pageAlignUp v ∧ pageAlignUp v % 4096 = 0 ∧ pageAlignUp v < v + 4096 := by
  rw [pageAlignUp_eq]
  omega

theorem VmRegion.limit_mk (base size : ℕ) : (VmRegion.mk base size).limit = base + size := rfl

theorem VmRegion.fin_eq (h : r.limit < 2 ^ 64) : r.fin = r.limit := Nat.mod_eq_of_lt h

/-- The regions of the code follow each other, from an address on and up to the end of the
    code. -/
structure CodePlan.Sound (code : CodePlan) (req : LayoutRequest) (codeBase : ℕ) : Prop where
  base : code.elfCode.base = codeBase
  elfAligned : code.elfCode.base % 4096 = 0 ∧ code.elfCode.size % 4096 = 0
  rtldAligned : code.rtld.base % 4096 = 0 ∧ code.rtld.size % 4096 = 0
  libsAligned : code.sharedLibs.base % 4096 = 0 ∧ code.sharedLibs.size % 4096 = 0
  rtld : code.rtld.size = 0 ∨ code.elfCode.limit ≤ code.rtld.base
  sharedLibs : code.sharedLibs.size = 0 ∨
    code.elfCode.limit ≤ code.sharedLibs.base ∧ code.rtld.limit ≤ code.sharedLibs.base
  codeEnd : code.elfCode.limit ≤ code.codeEnd ∧ code.rtld.limit ≤ code.codeEnd ∧
    code.sharedLibs.limit ≤ code.codeEnd
  elfSize : req.elfSpan ≤ code.elfCode.size
  rtldSize : req.rtldSpan ≤ code.rtld.size
  libsSize : 0 < req.rtldSpan → req.sharedLibCachePages * 0x1000 ≤ code.sharedLibs.size

/-- A region that begins a page after another one. -/
theorem pageAlignUp_fin_spec (h : r.limit + 0x1000 + 0xFFF < 2 ^ 64) :
    r.limit ≤ pageAlignUp ((r.fin + 0x1000) % 2 ^ 64) ∧
      pageAlignUp ((r.fin + 0x1000) % 2 ^ 64) % 4096 = 0 := by
  rw [VmRegion.fin_eq (by omega), Nat.mod_eq_of_lt (by omega)]
  have := pageAlignUp_spec h
  omega

/-- The regions that there are, each a page after the one before. -/
theorem placeCode_cases (hcode : code = placeCode req codeBase) (h : code.Fits req) :
    code.elfCode = ⟨codeBase, pageAlignUp req.elfSpan⟩ ∧
      (req.rtldSpan = 0 ∧ code.rtld = .zero ∧ code.sharedLibs = .zero ∨
        0 < req.rtldSpan ∧ code.rtld.size = pageAlignUp req.rtldSpan ∧
          code.elfCode.limit ≤ code.rtld.base ∧ code.rtld.base % 4096 = 0 ∧
          (req.sharedLibCachePages = 0 ∧ code.sharedLibs = .zero ∨
            0 < req.sharedLibCachePages ∧
              code.sharedLibs.size = req.sharedLibCachePages * 0x1000 ∧
              code.rtld.limit ≤ code.sharedLibs.base ∧ code.sharedLibs.base % 4096 = 0)) := by
  refine ⟨by rw [hcode]; rfl, ?_⟩
  have hrtldSpan := pageAlignUp_spec h.rtldSpan
  rcases Nat.eq_zero_or_pos req.rtldSpan with hr | hr
  · exact .inl ⟨hr, by simp [hcode, placeCode, hr], by simp [hcode, placeCode, hr, VmRegion.zero]⟩
  · have hrtld : code.rtld = ⟨pageAlignUp ((code.elfCode.fin + 0x1000) % 2 ^ 64),
        pageAlignUp req.rtldSpan⟩ := by
      rw [hcode]
      exact if_pos hr
    have hbase := pageAlignUp_fin_spec (h.rtldBase hr)
    have hsize : 0 < code.rtld.size := by
      rw [hrtld]
      show 0 < pageAlignUp req.rtldSpan
      omega
    refine .inr ⟨hr, by rw [hrtld], by rw [hrtld]; exact hbase.1, by rw [hrtld]; exact hbase.2, ?_⟩
    rcases Nat.eq_zero_or_pos req.sharedLibCachePages with hp | hp
    · exact .inl ⟨hp, by simp [hcode, placeCode, hp]⟩
    · have hlibs : code.sharedLibs = ⟨pageAlignUp ((code.rtld.fin + 0x1000) % 2 ^ 64),
          req.sharedLibCachePages * 0x1000 % 2 ^ 64⟩ := by
        rw [hcode] at hsize ⊢
        exact if_pos ⟨hp, hsize⟩
      have hbase := pageAlignUp_fin_spec (h.libsBase hp hsize)
      rw [Nat.mod_eq_of_lt (h.libsSize hsize)] at hlibs
      exact .inr ⟨hp, by rw [hlibs], by rw [hlibs]; exact hbase.1, by rw [hlibs]; exact hbase.2⟩

theorem placeCode_sound (hbase : codeBase % 4096 = 0) (hcode : code = placeCode req codeBase)
    (h : code.Fits req) : code.Sound req codeBase := by
  have helfSpan := pageAlignUp_spec h.elfSpan
  have hrtldSpan := pageAlignUp_spec h.rtldSpan
  obtain ⟨helf, hrest⟩ := placeCode_cases hcode h
  have hend : code.codeEnd = if code.sharedLibs.size > 0 then code.sharedLibs.limit
      else if code.rtld.size > 0 then code.rtld.limit else code.elfCode.limit := by
    rw [CodePlan.codeEnd, VmRegion.fin_eq h.sharedLibs, VmRegion.fin_eq h.rtld,
      VmRegion.fin_eq h.elfCode]
  clear hcode h
  obtain ⟨⟨eb, es⟩, ⟨rb, rs⟩, ⟨lb, ls⟩⟩ := code
  simp only [VmRegion.mk.injEq, VmRegion.limit, VmRegion.zero] at *
  obtain ⟨rfl, rfl⟩ := helf
  rcases hrest with ⟨hr, ⟨rfl, rfl⟩, rfl, rfl⟩ |
    ⟨hr, rfl, habove, halign, ⟨hp, rfl, rfl⟩ | ⟨hp, rfl, habove', halign'⟩⟩
  all_goals
    split_ifs at hend <;>
      refine ⟨rfl, ?_, ?_, ?_, ?_, ?_, ?_, ?_, ?_, ?_⟩ <;> dsimp only [VmRegion.limit] <;> omega

variable {highest : ℕ} {l : List VmRegion}

theorem VmLayoutPlan.le_raise : highest ≤ raise highest r := by
  rw [raise]
  split <;> omega

theorem VmLayoutPlan.fin_le_raise (h : 0 < r.size) : r.fin ≤ raise highest r := by
  rw [raise]
  split <;> omega

theorem VmLayoutPlan.le_foldl_raise : highest ≤ l.foldl raise highest := by
  induction l generalizing highest with
  | nil => exact le_rfl
  | cons r l ih => exact le_raise.trans ih

theorem VmLayoutPlan.fin_le_foldl_raise (hr : r ∈ l) (h : 0 < r.size) :
    r.fin ≤ l.foldl raise highest := by
  induction l generalizing highest with
  | nil => exact absurd hr List.not_mem_nil
  | cons s l ih =>
    rcases List.mem_cons.1 hr with rfl | hr
    · exact (fin_le_raise h).trans le_foldl_raise
    · exact ih hr

/-- The initrd window is above an address, or there is none. -/
def VmRegion.Window (r : VmRegion) (req : LayoutRequest) (above : ℕ) : Prop :=
  r = .zero ∧ (req.mapInitrd → req.initrdWindowSize = 0) ∨
    0 < r.size ∧ req.initrdWindowSize ≤ r.size ∧ above ≤ r.base ∧ r.base % 4096 = 0 ∧
      r.size % 4096 = 0 ∧ r.limit < 2 ^ 64

section Plan

variable {stackBase : ℕ} {initrd : VmRegion}

/-- The scratch page begins where the stack ends. -/
theorem planOf_stack_le :
    ¬(planOf code stackBase initrd).stack.fin > (planOf code stackBase initrd).scratch.base :=
  lt_irrefl _

theorem planOf_scratch (hlt : stackBase + 0x21000 < 2 ^ 64) :
    (planOf code stackBase initrd).scratch = ⟨stackBase + 0x20000, 0x1000⟩ := by
  have hmod : (stackBase + 0x20000) % 2 ^ 64 = stackBase + 0x20000 := Nat.mod_eq_of_lt (by omega)
  simp only [planOf, childStackPages, hmod]

theorem planOf_regions (hlt : stackBase + 0x21000 < 2 ^ 64) :
    (planOf code stackBase initrd).regions = [⟨0x200000, 0x1000⟩, code.elfCode, code.rtld,
      code.sharedLibs, ⟨stackBase, 0x20000⟩, ⟨stackBase + 0x20000, 0x1000⟩, initrd] := by
  have hmod : (stackBase + 0x20000) % 2 ^ 64 = stackBase + 0x20000 := Nat.mod_eq_of_lt (by omega)
  simp only [VmLayoutPlan.regions, planOf, ipcBufBase, childStackPages, hmod]

section

variable (hcode : code.Sound req codeBase) (hbase : 0x210000 ≤ codeBase)
  (hle : code.codeEnd ≤ stackBase)

include hcode hbase hle

/-- The regions are in the order of their addresses. -/
theorem planOf_apart (hlt : stackBase + 0x21000 < 2 ^ 64)
    (hinitrd : initrd.Window req (stackBase + 0x21000)) :
    (planOf code stackBase initrd).regions.Pairwise VmRegion.Apart := by
  obtain ⟨helf, hrtld, hlibs⟩ := hcode.codeEnd
  have hcodeBase := hcode.base
  have hrtld' := hcode.rtld
  have hlibs' := hcode.sharedLibs
  have hw : initrd.size = 0 ∨ stackBase + 0x21000 ≤ initrd.base := by
    rcases hinitrd with ⟨rfl, -⟩ | ⟨-, -, h, -⟩
    exacts [.inl rfl, .inr h]
  rw [planOf_regions hlt]
  simp only [VmRegion.limit] at *
  simp only [List.pairwise_cons, List.forall_mem_cons, VmRegion.Apart, VmRegion.limit,
    List.not_mem_nil, false_implies, implies_true, and_true, List.Pairwise.nil]
  refine ⟨⟨?_, ?_, ?_, ?_, ?_, ?_⟩, ⟨?_, ?_, ?_, ?_, ?_⟩, ⟨?_, ?_, ?_, ?_⟩, ⟨?_, ?_, ?_⟩,
    ⟨?_, ?_⟩, ?_⟩
  all_goals omega

/-- All regions end where the scratch page or the initrd window ends, or before. -/
theorem planOf_limit_le {bound : ℕ} (hlt : stackBase + 0x21000 < 2 ^ 64)
    (hscratch : stackBase + 0x21000 ≤ bound) (hinitrd : initrd.limit ≤ bound) :
    ∀ r ∈ (planOf code stackBase initrd).regions, r.limit ≤ bound := by
  obtain ⟨helf, hrtld, hlibs⟩ := hcode.codeEnd
  have hcodeBase := hcode.base
  rw [planOf_regions hlt]
  simp only [List.forall_mem_cons, VmRegion.limit, List.not_mem_nil, false_implies, implies_true,
    and_true] at *
  refine ⟨?_, ?_, ?_, ?_, ?_, ?_, ?_⟩ <;> omega

end

theorem VmRegion.Window.limit_le {above bound : ℕ} (h : r.Window req above)
    (hle : 0 < r.size → r.fin ≤ bound) : r.limit ≤ bound := by
  rcases h with ⟨rfl, -⟩ | ⟨hpos, -, -, -, -, hlimit⟩
  · exact Nat.zero_le bound
  · rw [← VmRegion.fin_eq hlimit]
    exact hle hpos

/-- A layout is right whose stack is above the code and whose initrd window is above the scratch
    page. -/
theorem planOf_sound (hcode : code.Sound req codeBase) (hbase : 0x210000 ≤ codeBase)
    (haligned : stackBase % 4096 = 0) (hle : code.codeEnd ≤ stackBase)
    (hlt : stackBase + 0x21000 < 2 ^ 64) (hinitrd : initrd.Window req (stackBase + 0x21000)) :
    (planOf code stackBase initrd).Sound req := by
  have hregions := @planOf_regions code stackBase initrd hlt
  -- the last two regions end below what is computed from them
  have hscratch := @planOf_scratch code stackBase initrd hlt
  have hfin : (planOf code stackBase initrd).scratch.fin = stackBase + 0x21000 := by
    rw [hscratch]
    exact Nat.mod_eq_of_lt hlt
  have hpos : 0 < (planOf code stackBase initrd).scratch.size := by
    rw [hscratch]
    exact Nat.succ_pos _
  refine ⟨?_, planOf_apart hcode hbase hle hlt hinitrd, le_rfl, hcode.elfSize, hcode.rtldSize,
    hcode.libsSize, le_rfl, le_rfl, ?_, ?_, ?_, ?_⟩
  · rw [hregions]
    have hwindow : initrd.base % 4096 = 0 ∧ initrd.size % 4096 = 0 := by
      rcases hinitrd with ⟨rfl, -⟩ | ⟨-, -, -, hb, hs, -⟩
      exacts [⟨rfl, rfl⟩, ⟨hb, hs⟩]
    refine List.forall_mem_cons.2 ⟨by decide, List.forall_mem_cons.2 ⟨hcode.elfAligned,
      List.forall_mem_cons.2 ⟨hcode.rtldAligned, List.forall_mem_cons.2 ⟨hcode.libsAligned, ?_⟩⟩⟩⟩
    have hstack : (stackBase + 0x20000) % 4096 = 0 := by omega
    exact List.forall_mem_cons.2 ⟨⟨haligned, show 0x20000 % 4096 = 0 from rfl⟩,
      List.forall_mem_cons.2 ⟨⟨hstack, Nat.mod_self _⟩, List.forall_mem_singleton.2 hwindow⟩⟩
  · intro hmap
    rcases hinitrd with ⟨rfl, hzero⟩ | ⟨-, hsize, -⟩
    · exact (hzero hmap).le
    · exact hsize
  · simp only [planOf, VmRegion.limit, childStackPages]
    exact Nat.mod_eq_of_lt (by omega)
  · intro hheap
    have hspec := pageAlignUp_spec hheap
    refine planOf_limit_le hcode hbase hle hlt (le_trans ?_ hspec.1) (le_trans ?_ hspec.1)
    · rw [← hfin]
      exact (VmLayoutPlan.fin_le_raise hpos).trans VmLayoutPlan.le_raise
    · exact hinitrd.limit_le VmLayoutPlan.fin_le_raise
  · intro heapBase hmmap
    have hmin : min (max (planOf code stackBase initrd).maxMappedEnd heapBase + mmapBaseGap)
        (2 ^ 64 - 1) = max (planOf code stackBase initrd).maxMappedEnd heapBase + mmapBaseGap :=
      Nat.min_eq_left (by omega)
    have hspec := (pageAlignUp_spec hmmap).1
    rw [computeMmapBase, hmin]
    have hmapped : ∀ r ∈ (planOf code stackBase initrd).regions,
        r.limit ≤ (planOf code stackBase initrd).maxMappedEnd := by
      refine planOf_limit_le hcode hbase hle hlt ?_ (hinitrd.limit_le fun hsize => ?_)
      · rw [← hfin]
        exact VmLayoutPlan.fin_le_foldl_raise (by simp [VmLayoutPlan.regions]) hpos
      · exact VmLayoutPlan.fin_le_foldl_raise (by rw [hregions]; simp) hsize
    simp only [mmapBaseGap] at *
    refine ⟨fun r hr => ?_, by omega⟩
    have := hmapped r hr
    omega

end Plan

/-! ## The two layouts -/

/-- Where `compute_vm_layout` puts the stack. -/
def placeStack (codeEnd : ℕ) : ℕ :=
  if codeEnd ≤ defaultStackBase then defaultStackBase
  else if codeEnd ≤ window2StackBase then window2StackBase
  else pageAlignUp ((codeEnd + 0x10000) % 2 ^ 64)

theorem stackRegions_eq (codeEnd : ℕ) :
    stackRegions codeEnd = (⟨placeStack codeEnd, childStackPages * 0x1000⟩,
      ⟨(placeStack codeEnd + childStackPages * 0x1000) % 2 ^ 64, 0x1000⟩,
      (placeStack codeEnd + childStackPages * 0x1000) % 2 ^ 64) := by
  unfold stackRegions placeStack
  split
  · rfl
  · split <;> rfl

theorem computeVmLayout_eq :
    computeVmLayout req =
      let code := placeCode req elfCodeBase
      let stackBase := placeStack code.codeEnd
      planOf code stackBase
        (placeInitrd req ⟨(stackBase + childStackPages * 0x1000) % 2 ^ 64, 0x1000⟩) := by
  simp only [computeVmLayout, stackRegions_eq]
  rfl

/-- The sums of `compute_vm_layout` are words. -/
structure VmFits (req : LayoutRequest) (plan : VmLayoutPlan) : Prop where
  codeFits : plan.toCodePlan.Fits req
  stack : window2StackBase < plan.codeEnd → plan.codeEnd + 0x10000 + 0xFFF < 2 ^ 64
  scratch : plan.stack.limit + 0x1000 < 2 ^ 64
  initrdBase : req.mapInitrd → 0 < req.initrdWindowSize → initrdBase < plan.scratch.limit →
    plan.scratch.limit + 0x1000 + 0xFFF < 2 ^ 64
  initrdSize : req.mapInitrd → req.initrdWindowSize + 0xFFF < 2 ^ 64
  initrd : plan.initrd.limit < 2 ^ 64

/-- The initrd window is above the scratch page. -/
theorem placeInitrd_window {scratch : VmRegion} (hpos : 0 < scratch.size)
    (hscratch : scratch.limit < 2 ^ 64)
    (hbase : req.mapInitrd → 0 < req.initrdWindowSize → initrdBase < scratch.limit →
      scratch.limit + 0x1000 + 0xFFF < 2 ^ 64)
    (hsize : req.mapInitrd → req.initrdWindowSize + 0xFFF < 2 ^ 64)
    (hlimit : (placeInitrd req scratch).limit < 2 ^ 64) :
    (placeInitrd req scratch).Window req scratch.limit := by
  by_cases hmap : req.mapInitrd ∧ req.initrdWindowSize > 0
  · have hspec := pageAlignUp_spec (hsize hmap.1)
    have hregion : placeInitrd req scratch =
        ⟨if scratch.size > 0 ∧ scratch.fin > initrdBase then
          pageAlignUp ((scratch.fin + 0x1000) % 2 ^ 64) else initrdBase,
        pageAlignUp req.initrdWindowSize⟩ := if_pos hmap
    have habove : scratch.limit ≤ (placeInitrd req scratch).base ∧
        (placeInitrd req scratch).base % 4096 = 0 := by
      rw [hregion]
      dsimp only
      split
      · rename_i hfin
        rw [VmRegion.fin_eq hscratch] at hfin
        exact pageAlignUp_fin_spec (hbase hmap.1 hmap.2 hfin.2)
      · rename_i hfin
        rw [VmRegion.fin_eq hscratch] at hfin
        exact ⟨by omega, by decide⟩
    have hsizes : (placeInitrd req scratch).size =
        pageAlignUp req.initrdWindowSize := by rw [hregion]
    refine .inr ⟨?_, ?_, habove.1, habove.2, ?_, hlimit⟩ <;> rw [hsizes] <;> omega
  · rw [placeInitrd, if_neg hmap]
    exact .inl ⟨rfl, fun h => by simpa [h] using hmap⟩

theorem computeVmLayout_sound (h : VmFits req (computeVmLayout req)) :
    (computeVmLayout req).Sound req := by
  generalize hplan : computeVmLayout req = plan at h ⊢
  rw [computeVmLayout_eq] at hplan
  generalize hcode : placeCode req elfCodeBase = code at hplan
  have hplanCode : plan.toCodePlan = code := by
    rw [← hplan]
    rfl
  have hfits := h.codeFits
  have hstackFits := h.stack
  rw [hplanCode] at hfits hstackFits
  have hsound := placeCode_sound (by decide) hcode.symm hfits
  have hstack : code.codeEnd ≤ placeStack code.codeEnd ∧ placeStack code.codeEnd % 4096 = 0 := by
    unfold placeStack
    split
    · exact ⟨‹_›, by decide⟩
    · split
      · exact ⟨‹_›, by decide⟩
      · have hguard := hstackFits (by omega)
        rw [Nat.mod_eq_of_lt (by omega)]
        have := pageAlignUp_spec hguard
        omega
  have hlt : placeStack code.codeEnd + 0x21000 < 2 ^ 64 := by
    have hstackRegion : plan.stack = ⟨placeStack code.codeEnd, 0x20000⟩ := by
      rw [← hplan]
      rfl
    have hscratch := h.scratch
    rw [hstackRegion, VmRegion.limit_mk, Nat.add_assoc] at hscratch
    exact hscratch
  have hscratch : plan.scratch = ⟨placeStack code.codeEnd + 0x20000, 0x1000⟩ := by
    rw [← hplan]
    exact planOf_scratch hlt
  have hinitrd : plan.initrd = placeInitrd req plan.scratch := by
    rw [← hplan]
    rfl
  have hlimit : plan.scratch.limit = placeStack code.codeEnd + 0x21000 := by
    rw [hscratch, VmRegion.limit_mk, Nat.add_assoc]
  have hwindow : plan.initrd.Window req (placeStack code.codeEnd + 0x21000) := by
    rw [← hlimit] at hlt ⊢
    have hinitrdLimit := h.initrd
    rw [hinitrd] at hinitrdLimit ⊢
    exact placeInitrd_window (by rw [hscratch]; exact Nat.succ_pos _) hlt h.initrdBase h.initrdSize
      hinitrdLimit
  rw [← hplan] at hwindow ⊢
  exact planOf_sound hsound (by decide) hstack.2 hstack.1 hlt hwindow

/-- The sums of `compute_vm_layout_randomized` are words. -/
structure RandomizedFits (req : LayoutRequest) (rand : Option ℕ × Option ℕ) (code : CodePlan) :
    Prop where
  codeFits : code.Fits req
  initrdSize : req.mapInitrd → req.initrdWindowSize + 0xFFF < 2 ^ 64
  initrd : req.mapInitrd → initrdBase + pageAlignUp req.initrdWindowSize < 2 ^ 64
  fallback : window2StackBase - slide aslrStackMaxPages rand.2 < code.codeEnd →
    VmFits req (computeVmLayout req)

/-- A region is moved by less than `maxPages` pages. -/
theorem slide_spec {maxPages : ℕ} (h : 0 < maxPages) (rand : Option ℕ) :
    slide maxPages rand % 4096 = 0 ∧ slide maxPages rand + 0x1000 ≤ maxPages * 0x1000 := by
  cases rand with
  | none => exact ⟨rfl, by simp only [slide]; omega⟩
  | some v =>
    have := Nat.mod_lt v h
    simp only [slide]
    omega

theorem computeVmLayoutRandomized_sound {rand : Option ℕ × Option ℕ}
    (hcode : code = placeCode req (elfCodeBase + slide aslrCodeMaxPages rand.1))
    (h : RandomizedFits req rand code) : (computeVmLayoutRandomized req rand).Sound req := by
  have hslide := @slide_spec aslrCodeMaxPages (by decide) rand.1
  have hslide' := @slide_spec aslrStackMaxPages (by decide) rand.2
  have hsound := placeCode_sound (by simp only [elfCodeBase]; omega) hcode h.codeFits
  simp only [aslrStackMaxPages] at hslide'
  -- a stack that is moved down in one of the two windows
  have hplaced : ∀ window plan, window % 4096 = 0 → 0x40000 ≤ window → window ≤ 0x7F8000 →
      code.codeEnd ≤ window - slide aslrStackMaxPages rand.2 →
      plan = planOf code (window - slide aslrStackMaxPages rand.2)
        (if req.mapInitrd ∧ req.initrdWindowSize > 0 then
          ⟨initrdBase, pageAlignUp req.initrdWindowSize⟩ else .zero) →
      ¬plan.stack.fin > plan.scratch.base ∧ plan.Sound req := by
    rintro window plan haligned hlow hhigh hle rfl
    simp only [aslrStackMaxPages] at *
    refine ⟨planOf_stack_le,
      planOf_sound hsound (Nat.le_add_right _ _) (by omega) hle (by omega) ?_⟩
    split
    · rename_i hmap
      have hspec := pageAlignUp_spec (h.initrdSize hmap.1)
      refine .inr ⟨?_, hspec.1, ?_, show initrdBase % 4096 = 0 by decide, hspec.2.1,
        h.initrd hmap.1⟩
      · exact hmap.2.trans_le hspec.1
      · simp only [initrdBase]
        omega
    · rename_i hmap
      exact .inl ⟨rfl, fun hm => by simpa [hm] using hmap⟩
  unfold computeVmLayoutRandomized
  dsimp only
  rw [← hcode]
  split
  · obtain ⟨hfin, hplan⟩ := hplaced defaultStackBase _ (by decide) (by decide) (by decide) ‹_› rfl
    rw [if_neg hfin]
    exact hplan
  · split
    · obtain ⟨hfin, hplan⟩ := hplaced window2StackBase _ (by decide) (by decide) (by decide) ‹_› rfl
      rw [if_neg hfin]
      exact hplan
    · exact computeVmLayout_sound (h.fallback (by omega))

/-- Without random numbers the two layouts are the same. -/
theorem computeVmLayoutRandomized_none :
    computeVmLayoutRandomized req (none, none) = computeVmLayout req := by
  -- below the initrd window the stack does not move it
  have hinitrd : ∀ scratch : VmRegion, scratch.fin ≤ initrdBase → placeInitrd req scratch =
      if req.mapInitrd ∧ req.initrdWindowSize > 0 then
        ⟨initrdBase, pageAlignUp req.initrdWindowSize⟩ else .zero := by
    intro scratch hfin
    have hlow : ¬(scratch.size > 0 ∧ scratch.fin > initrdBase) :=
      fun hscratch => absurd hscratch.2 (not_lt.2 hfin)
    simp only [placeInitrd, hlow, if_false]
  rw [computeVmLayout_eq]
  unfold computeVmLayoutRandomized
  dsimp only [slide]
  rw [Nat.add_zero, Nat.sub_zero, Nat.sub_zero]
  generalize hcode : placeCode req elfCodeBase = code
  split
  · have hstack : placeStack code.codeEnd = defaultStackBase := if_pos ‹_›
    rw [if_neg planOf_stack_le, hstack, hinitrd _ (by decide)]
  · split
    · have hstack : placeStack code.codeEnd = window2StackBase := (if_neg ‹_›).trans (if_pos ‹_›)
      rw [if_neg planOf_stack_le, hstack, hinitrd _ (by decide)]
    · rw [computeVmLayout_eq, hcode]

/-- Both layouts of a child are right where the sums of the code are words, and they are the same
    without random numbers. -/
theorem vmLayout_sound (req : LayoutRequest) (rand : Option ℕ × Option ℕ) :
    (VmFits req (computeVmLayout req) → (computeVmLayout req).Sound req) ∧
      (RandomizedFits req rand (placeCode req (elfCodeBase + slide aslrCodeMaxPages rand.1)) →
        (computeVmLayoutRandomized req rand).Sound req) ∧
      (rand = (none, none) → computeVmLayoutRandomized req rand = computeVmLayout req) :=
  ⟨computeVmLayout_sound, computeVmLayoutRandomized_sound rfl,
    fun hnone => hnone ▸ computeVmLayoutRandomized_none⟩

/-- A child with code of all kinds and an initrd window, with random numbers. -/
theorem vmLayout_sound_service :
    (computeVmLayout ⟨0x30000, 0x8000, 16, true, 0x100000⟩).Sound
        ⟨0x30000, 0x8000, 16, true, 0x100000⟩ ∧
      (computeVmLayoutRandomized ⟨0x30000, 0x8000, 16, true, 0x100000⟩ (some 300, some 7)).Sound
        ⟨0x30000, 0x8000, 16, true, 0x100000⟩ := by
  obtain ⟨hfixed, hrandom, -⟩ :=
    vmLayout_sound ⟨0x30000, 0x8000, 16, true, 0x100000⟩ (some 300, some 7)
  refine ⟨hfixed ⟨⟨?_, ?_, ?_, ?_, ?_, ?_, ?_, ?_⟩, ?_, ?_, ?_, ?_, ?_⟩,
    hrandom ⟨⟨?_, ?_, ?_, ?_, ?_, ?_, ?_, ?_⟩, ?_, ?_, fun hfar => absurd hfar ?_⟩⟩ <;> decide

end

end Trona
