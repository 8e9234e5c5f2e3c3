import Trona.Uapi.Elf
import Trona.Rtld.State

/-!
# Symbols and relocations

How the linker finds a symbol (`rtld/elf/rtld_symbol.c`) and what it writes for a
relocation (`rtld/elf/rtld_reloc.c`). Both read the tables of an object where its dynamic
table says they are. A lookup returns the address of the symbol, and zero when there is
none; one that reads where nothing is mapped has no result.

An address that a lookup finds is the base of the object plus the value of a symbol of its
table (`gnuHashLookup_symbolAt`, `linearLookup_symbolAt`), and a relocation writes from
the base of the object plus its offset on (`relaTarget`).
-/

namespace Trona

namespace Rtld

/-! ## Lookup -/

section

variable (m : Memory) (map : LinkMap) (name : List UInt8)

/-- The address of a symbol of an object. -/
def symbolAddr (sym : Elf64Sym) : ℕ := (map.base + sym.stValue) % 2 ^ 64

/-- The symbol with a number. -/
def symbolEntry (idx : ℕ) : Option Elf64Sym := m.elf64Sym (map.symtab + 24 * idx)

/-- The GNU hash of a name. -/
def gnuHashOf (name : List UInt8) : ℕ :=
  name.foldl (fun h c => (h * 2 ^ 5 + h + c.toNat) % 2 ^ 32) 5381

/-- The address of the symbol `idx`, if its hash and its name are those looked for and it is
    defined. -/
def gnuMatch (h chainHash idx : ℕ) : Option (Option ℕ) :=
  if h ||| 1 = chainHash ||| 1 then do
    let sym ← symbolEntry m map idx
    if map.strtabSize ≠ 0 ∧ sym.stName ≥ map.strtabSize then some none
    else
      let eq ← m.cstrEq name (map.strtab + sym.stName)
      if eq = true ∧ sym.stShndx ≠ shnUndef then some (some (symbolAddr map sym)) else some none
  else some none

/-- The walk through the chain of a bucket, from the symbol `idx` on. The low bit of a hash
    in the chain marks its end. -/
def gnuChain (h symoffset chain : ℕ) : (steps idx : ℕ) → Option ℕ
  | 0, _ => some 0
  | steps + 1, idx => do
    let chainHash ← m.le (chain + 4 * ((idx + 2 ^ 32 - symoffset) % 2 ^ 32)) 4
    let found ← gnuMatch m map name h chainHash idx
    match found with
    | some addr => some addr
    | none =>
      let next := (idx + 1) % 2 ^ 32
      if chainHash % 2 = 1 then some 0
      else if map.symtabCount ≠ 0 ∧ next ≥ map.symtabCount then some 0
      else gnuChain h symoffset chain steps next

/-- Look for a symbol with the hash table of an object. -/
def gnuHashLookup : Option ℕ :=
  if map.gnuHash = 0 ∨ map.symtab = 0 ∨ map.strtab = 0 then some 0
  else do
    let nbuckets ← m.le map.gnuHash 4
    let symoffset ← m.le (map.gnuHash + 4) 4
    let bloomSize ← m.le (map.gnuHash + 8) 4
    let bloomShift ← m.le (map.gnuHash + 12) 4
    if nbuckets = 0 ∨ bloomSize = 0 then some 0
    else if map.symtabCount ≠ 0 ∧ symoffset ≥ map.symtabCount then some 0
    else
      let bloom := map.gnuHash + 16
      let buckets := bloom + 8 * bloomSize
      let chain := buckets + 4 * nbuckets
      let h := gnuHashOf name
      let word ← m.le (bloom + 8 * (h / 64 % bloomSize)) 8
      let mask := 2 ^ (h % 64) ||| 2 ^ ((h >>> bloomShift) % 64)
      if word &&& mask ≠ mask then some 0
      else
        let idx ← m.le (buckets + 4 * (h % nbuckets)) 4
        if idx < symoffset then some 0
        else if map.symtabCount ≠ 0 ∧ idx ≥ map.symtabCount then some 0
        else
          let maxSteps :=
            if map.symtabCount ≠ 0 ∧ map.symtabCount > symoffset then
              (map.symtabCount - symoffset) % 2 ^ 32
            else 4096
          gnuChain m map name h symoffset chain maxSteps idx

/-- The address of a symbol, if it is one that can be linked to and its name is the one
    looked for. -/
def linearMatch (sym : Elf64Sym) : Option (Option ℕ) :=
  if sym.stName = 0 then some none
  else if map.strtabSize ≠ 0 ∧ sym.stName ≥ map.strtabSize then some none
  else if sym.stShndx = shnUndef then some none
  else if sym.bind ≠ stbGlobal ∧ sym.bind ≠ stbWeak then some none
  else do
    let eq ← m.cstrEq name (map.strtab + sym.stName)
    if eq = true then some (some (symbolAddr map sym)) else some none

/-- The search through the symbol table, from the symbol `i` on. A symbol without anything
    ends it. -/
def linearFrom : (todo i : ℕ) → Option ℕ
  | 0, _ => some 0
  | todo + 1, i => do
    let sym ← symbolEntry m map i
    if sym.stName = 0 ∧ sym.stValue = 0 ∧ sym.stSize = 0 ∧ sym.stInfo = 0 ∧ i > 1 then some 0
    else
      let found ← linearMatch m map name sym
      match found with
      | some addr => some addr
      | none => linearFrom todo (i + 1)

/-- Look for a symbol in the symbol table of an object. -/
def linearLookup : Option ℕ :=
  if map.symtab = 0 ∨ map.strtab = 0 then some 0
  else
    let limit := if map.symtabCount ≠ 0 then map.symtabCount % 2 ^ 32 else 4096
    linearFrom m map name limit 0

end

/-- Look for a symbol in the objects, in their order. -/
def resolveSymbolAddr (m : Memory) (name : List UInt8) : List LinkMap → Option ℕ
  | [] => some 0
  | map :: maps => do
    let addr ← gnuHashLookup m map name
    if addr ≠ 0 then some addr
    else
      let addr ← linearLookup m map name
      if addr ≠ 0 then some addr else resolveSymbolAddr m name maps

/-! ## Relocations -/

/-- The types of relocations of an architecture. -/
structure RelocTypes where
  none : ℕ
  abs64 : ℕ
  globDat : ℕ
  jumpSlot : ℕ
  relative : ℕ
  dtpmod64 : ℕ
  dtpoff64 : ℕ
  tpoff64 : ℕ
  tlsdesc : Option ℕ

def relocTypes : Arch → RelocTypes
  | .x86_64 => ⟨0, 1, 6, 7, 8, 16, 17, 18, .none⟩
  | .aarch64 => ⟨0, 257, 1025, 1026, 1027, 1028, 1029, 1030, some 1031⟩

section

variable (arch : Arch) (tlsdescResolver : ℕ) (cfg : Config) (m : Memory) (objects : List LinkMap)
  (map : LinkMap)

/-- Where a relocation of an object writes to. -/
def relaTarget (r : Elf64Rela) : ℕ := (map.base + r.rOffset) % 2 ^ 64

/-- Look for the symbol with a number of an object by its name in all objects. A name is
    shorter than memory. -/
def resolveByIndex (symIdx : ℕ) : Option ℕ :=
  if map.symtabCount ≠ 0 ∧ symIdx ≥ map.symtabCount then some 0
  else do
    let sym ← symbolEntry m map symIdx
    if map.strtabSize ≠ 0 ∧ sym.stName ≥ map.strtabSize then some 0
    else
      let name ← m.cstr (2 ^ 64) (map.strtab + sym.stName)
      resolveSymbolAddr m name objects

/-- The address for a relocation by a symbol. The process exits with 127 when there is none
    and the symbol is not weak. -/
def symbolFor (symIdx : ℕ) : Except (Stop ℤ) ℕ :=
  match resolveByIndex m objects map symIdx with
  | none => .error .fault
  | some addr =>
    if addr = 0 ∧ (map.symtabCount = 0 ∨ symIdx < map.symtabCount) then
      match symbolEntry m map symIdx with
      | none => .error .fault
      | some sym => if sym.bind ≠ stbWeak then .error (.error 127) else .ok addr
    else .ok addr

/-- The words that a relocation writes, one after the other from its target on. -/
def relaWords (r : Elf64Rela) : Except (Stop ℤ) (List ℕ) :=
  let type := r.rInfo % 2 ^ 32
  let symIdx := r.rInfo / 2 ^ 32
  let types := relocTypes arch
  let tlsValue (sym : Elf64Sym) : ℕ :=
    ((map.tlsTpoff + sym.stValue + r.rAddend) % 2 ^ 64).toNat
  let bySymbol (words : Elf64Sym → List ℕ) : Except (Stop ℤ) (List ℕ) :=
    match symbolEntry m map symIdx with
    | none => .error .fault
    | some sym => .ok (words sym)
  if type = types.none then .ok []
  else if type = types.relative then .ok [(map.base + r.rAddend) % 2 ^ 64]
  else if type = types.abs64 then
    (symbolFor m objects map symIdx).map fun addr => [(addr + r.rAddend) % 2 ^ 64]
  else if type = types.globDat then (symbolFor m objects map symIdx).map fun addr => [addr]
  else if type = types.jumpSlot then (symbolFor m objects map symIdx).map fun addr => [addr]
  else if type = types.dtpmod64 then .ok [map.tlsModuleId]
  else if type = types.dtpoff64 then bySymbol fun sym => [(sym.stValue + r.rAddend) % 2 ^ 64]
  else if type = types.tpoff64 then bySymbol fun sym => [tlsValue sym]
  else if some type = types.tlsdesc then bySymbol fun sym => [tlsdescResolver, tlsValue sym]
  else .ok []

/-- Apply a relocation. -/
def applyRela (r : Elf64Rela) : M PUnit := do
  let s ← get
  match relaWords arch tlsdescResolver (s.memory cfg) s.objects map r with
  | .error e => throw e
  | .ok words =>
    match words.zipIdx.foldlM (fun s w => s.storeWord (relaTarget map r + 8 * w.2) w.1) s with
    | none => throw .fault
    | some s' => set s'

/-- Apply a table of relocations. -/
def applyRelaTable (table count entSize : ℕ) : M PUnit :=
  if table = 0 ∨ entSize < 24 then return ⟨⟩
  else
    (List.range count).forM fun i => do
      let s ← get
      match (s.memory cfg).elf64Rela (table + entSize * i) with
      | none => throw .fault
      | some r => applyRela arch tlsdescResolver cfg map r

/-- Apply the relocations of an object. -/
def processRelocations : M PUnit := do
  applyRelaTable arch tlsdescResolver cfg map map.rela map.relaCount map.relaEntSize
  applyRelaTable arch tlsdescResolver cfg map map.jmprel map.jmprelCount map.jmprelEntSize

end

/-! ## What lookups find -/

/-- An address is that of a symbol of the object. -/
def SymbolAt (m : Memory) (map : LinkMap) (a : ℕ) : Prop :=
  ∃ idx sym, symbolEntry m map idx = some sym ∧ a = symbolAddr map sym

section

variable {m : Memory} {map : LinkMap} {name : List UInt8}

theorem gnuMatch_symbolAt {h chainHash idx a : ℕ}
    (hfound : gnuMatch m map name h chainHash idx = some (some a)) : SymbolAt m map a := by
  unfold gnuMatch at hfound
  split at hfound
  · obtain ⟨sym, hsym, hfound⟩ := Option.bind_eq_some_iff.1 hfound
    split at hfound
    · cases hfound
    · obtain ⟨eq, -, hfound⟩ := Option.bind_eq_some_iff.1 hfound
      split at hfound
      · exact ⟨idx, sym, hsym, (Option.some.inj (Option.some.inj hfound)).symm⟩
      · cases hfound
  · cases hfound

theorem gnuChain_symbolAt {h symoffset chain steps idx a : ℕ}
    (hfound : gnuChain m map name h symoffset chain steps idx = some a) (ha : a ≠ 0) :
    SymbolAt m map a := by
  induction steps generalizing idx with
  | zero => exact absurd (Option.some.inj hfound).symm ha
  | succ steps ih =>
    obtain ⟨chainHash, -, hfound⟩ := Option.bind_eq_some_iff.1 hfound
    obtain ⟨found, hmatch, hfound⟩ := Option.bind_eq_some_iff.1 hfound
    cases found with
    | some addr =>
      obtain rfl : addr = a := Option.some.inj hfound
      exact gnuMatch_symbolAt hmatch
    | none =>
      dsimp only at hfound
      split_ifs at hfound
      · exact absurd (Option.some.inj hfound).symm ha
      · exact absurd (Option.some.inj hfound).symm ha
      · exact ih hfound

/-- What is found with a hash table is a symbol of the object. -/
theorem gnuHashLookup_symbolAt {a : ℕ} (hfound : gnuHashLookup m map name = some a) (ha : a ≠ 0) :
    SymbolAt m map a := by
  have hzero : some 0 ≠ some a := fun h => ha (Option.some.inj h).symm
  unfold gnuHashLookup at hfound
  split at hfound
  · exact absurd hfound hzero
  obtain ⟨nbuckets, -, hfound⟩ := Option.bind_eq_some_iff.1 hfound
  obtain ⟨symoffset, -, hfound⟩ := Option.bind_eq_some_iff.1 hfound
  obtain ⟨bloomSize, -, hfound⟩ := Option.bind_eq_some_iff.1 hfound
  obtain ⟨bloomShift, -, hfound⟩ := Option.bind_eq_some_iff.1 hfound
  split at hfound
  · exact absurd hfound hzero
  split at hfound
  · exact absurd hfound hzero
  obtain ⟨word, -, hfound⟩ := Option.bind_eq_some_iff.1 hfound
  dsimp only at hfound
  split at hfound
  · exact absurd hfound hzero
  obtain ⟨idx, -, hfound⟩ := Option.bind_eq_some_iff.1 hfound
  split at hfound
  · exact absurd hfound hzero
  split at hfound
  · exact absurd hfound hzero
  exact gnuChain_symbolAt hfound ha

theorem linearMatch_eq {sym : Elf64Sym} {a : ℕ}
    (hfound : linearMatch m map name sym = some (some a)) : a = symbolAddr map sym := by
  unfold linearMatch at hfound
  split_ifs at hfound
  · cases hfound
  · cases hfound
  · cases hfound
  · cases hfound
  · obtain ⟨eq, -, hfound⟩ := Option.bind_eq_some_iff.1 hfound
    split at hfound
    · exact (Option.some.inj (Option.some.inj hfound)).symm
    · cases hfound

theorem linearFrom_symbolAt {todo i a : ℕ} (hfound : linearFrom m map name todo i = some a)
    (ha : a ≠ 0) : SymbolAt m map a := by
  induction todo generalizing i with
  | zero => exact absurd (Option.some.inj hfound).symm ha
  | succ todo ih =>
    obtain ⟨sym, hsym, hfound⟩ := Option.bind_eq_some_iff.1 hfound
    split at hfound
    · exact absurd (Option.some.inj hfound).symm ha
    · obtain ⟨found, hmatch, hfound⟩ := Option.bind_eq_some_iff.1 hfound
      cases found with
      | some addr =>
        obtain rfl : addr = a := Option.some.inj hfound
        exact ⟨i, sym, hsym, linearMatch_eq hmatch⟩
      | none => exact ih hfound

/-- What is found in a symbol table is a symbol of the object. -/
theorem linearLookup_symbolAt {a : ℕ} (hfound : linearLookup m map name = some a) (ha : a ≠ 0) :
    SymbolAt m map a := by
  unfold linearLookup at hfound
  split at hfound
  · exact absurd (Option.some.inj hfound).symm ha
  · exact linearFrom_symbolAt hfound ha

end

end Rtld

end Trona
