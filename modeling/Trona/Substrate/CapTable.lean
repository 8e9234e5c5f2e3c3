import Mathlib.Data.List.Induction
import Mathlib.Logic.Function.Basic
import Trona.Lib.Memory

/-!
# The startup capability table

`substrate/cap_table.rs`: the capabilities of a new process are in a table in its memory, a
header and entries that give a slot for a role. A builder writes it. There are four readers:

* `lookup`, which returns the first entry with a role;
* `install_well_known_caps`, which stores the slot of every entry with a public system role in
  the variable for the role;
* the dynamic linkers for ELF (`rtld/elf/rtld_main.c`) and PE (`rtld/pe/rtld_pe_main.c`), which
  do the same with the few roles that they use themselves.

The last three keep the last entry with a role, so that they agree with `lookup` if and only if
the first and the last entry with a role have the same slot (`readers_agree_iff`). A table that
the builder has written is understood by all of them
(`CapTableBuilder.readEntries_of_holds`), but the builder accepts a role twice
(`readers_disagree`).
-/

namespace Trona

namespace CapTable

/-! ## The table in memory -/

/-- `TRONA_CAP_TABLE_MAGIC`. -/
def magic : UInt32 := 0x43544153

/-- `TRONA_CAP_TABLE_VERSION`. -/
def version : UInt32 := 1

/-- The size of a `TronaCapTableV1`, the header. -/
def headerSize : ℕ := 16

/-- The size of a `TronaCapEntryV1`. -/
def entrySize : ℕ := 16

/-- `TronaCapEntryV1`. -/
structure CapEntry where
  roleId : UInt32
  slot : UInt32
  rights : UInt32
  flags : UInt32
  deriving DecidableEq

section

variable (m : Memory) (table : ℕ)

def readU32 (a : ℕ) : Option UInt32 := (m.le a 4).map UInt32.ofNat

/-- The number of entries, in the header. -/
def readCount : Option UInt32 := readU32 m (table + 8)

/-- An entry of the array after the header. -/
def readEntry (i : ℕ) : Option CapEntry :=
  let e := table + headerSize + i * entrySize
  (readU32 m e).bind fun roleId => (readU32 m (e + 4)).bind fun slot =>
    (readU32 m (e + 8)).bind fun rights => (readU32 m (e + 12)).map fun flags =>
      ⟨roleId, slot, rights, flags⟩

/-- The table is there and its header is understood. The linkers make the same check. -/
def validate : Option Bool :=
  if table = 0 then some false
  else (readU32 m table).bind fun found =>
    if found = magic then (readU32 m (table + 4)).map (· == version) else some false

/-- The entries from some index on. -/
def readEntriesFrom : (n i : ℕ) → Option (List CapEntry)
  | 0, _ => some []
  | n + 1, i => (readEntry m table i).bind fun e => (readEntriesFrom n (i + 1)).map (e :: ·)

/-- All entries, if they can be read. -/
def readEntries : Option (List CapEntry) :=
  (readCount m table).bind fun count => readEntriesFrom m table count.toNat 0

/-! ## The readers -/

/-- The loop of `lookup`: the first entry with the role ends it. -/
def lookupFrom (role : UInt32) : (n i : ℕ) → Option (Option CapEntry)
  | 0, _ => some none
  | n + 1, i => (readEntry m table i).bind fun e =>
    if e.roleId = role then some (some e) else lookupFrom role n (i + 1)

def lookup (role : UInt32) : Option (Option CapEntry) :=
  (validate m table).bind fun valid =>
    if valid then (readCount m table).bind fun count => lookupFrom m table role count.toNat 0
    else some none

variable {κ : Type} [DecidableEq κ] (target : UInt32 → Option κ)

/-- An entry is recorded in the variable for its role, if there is one. -/
def record (slots : κ → UInt64) (e : CapEntry) : κ → UInt64 :=
  match target e.roleId with
  | some k => Function.update slots k e.slot.toUInt64
  | none => slots

/-- The loop of the other readers: it goes through all entries. -/
def walkFrom : (n i : ℕ) → (κ → UInt64) → Option (κ → UInt64)
  | 0, _, slots => some slots
  | n + 1, i, slots =>
    (readEntry m table i).bind fun e => walkFrom n (i + 1) (record target slots e)

/-- A walk through a table that is understood; another one is left alone. -/
def walk (slots : κ → UInt64) : Option (κ → UInt64) :=
  (validate m table).bind fun valid =>
    if valid then (readCount m table).bind fun count => walkFrom m table target count.toNat 0 slots
    else some slots

end

/-- The `__trona_cap_*` variables, one for each public system role. -/
inductive CapSymbol
  | procmgrEp
  | serviceEp
  | namesrvEp
  | vfsEp
  | mmsrvEp
  | rsrcsrvEp
  | consoleEp
  | signalNtfn
  | readinessNtfn
  | initrdUntyped
  | fbUntyped
  | pciIoport
  | com1Ioport
  | win32srvEp
  | cspaceNtfn
  | scCap
  deriving DecidableEq

/-- `system_role_target`. The raw authorities (6 and 8) and the roles of services have none. -/
def systemRoleTarget (role : UInt32) : Option CapSymbol :=
  if role = 0x01 then some .procmgrEp
  else if role = 0x02 then some .serviceEp
  else if role = 0x03 then some .namesrvEp
  else if role = 0x04 then some .vfsEp
  else if role = 0x05 then some .mmsrvEp
  else if role = 0x07 then some .rsrcsrvEp
  else if role = 0x09 then some .consoleEp
  else if role = 0x0A then some .signalNtfn
  else if role = 0x0B then some .readinessNtfn
  else if role = 0x0C then some .initrdUntyped
  else if role = 0x0D then some .fbUntyped
  else if role = 0x0E then some .pciIoport
  else if role = 0x0F then some .com1Ioport
  else if role = 0x11 then some .cspaceNtfn
  else if role = 0x12 then some .scCap
  else if role = 0x10 then some .win32srvEp
  else none

/-- `install_well_known_caps`, without the hook for services, which does nothing by default. It
    returns the number of entries. -/
def installWellKnownCaps (m : Memory) (table : ℕ) (caps : CapSymbol → UInt64) :
    Option ((CapSymbol → UInt64) × UInt32) :=
  (validate m table).bind fun valid =>
    if valid then (readCount m table).bind fun count =>
      (walkFrom m table systemRoleTarget count.toNat 0 caps).map (·, count)
    else some (caps, 0)

/-- The slots that the linker for ELF keeps. -/
inductive ElfSlot
  | procmgrEp
  | initrdUntyped
  deriving DecidableEq

/-- The cases of the walk of `rtld_main`. -/
def elfRoleTarget (role : UInt32) : Option ElfSlot :=
  if role = 0x01 then some .procmgrEp
  else if role = 0x0C then some .initrdUntyped
  else none

def rtldWalk (m : Memory) (table : ℕ) : (ElfSlot → UInt64) → Option (ElfSlot → UInt64) :=
  walk m table elfRoleTarget

/-- The slots that the linker for PE keeps. -/
inductive PeSlot
  | procmgrEp
  | mmsrvEp
  | vfsEp
  deriving DecidableEq

/-- The cases of the walk of `pe_rtld_main`. -/
def peRoleTarget (role : UInt32) : Option PeSlot :=
  if role = 0x01 then some .procmgrEp
  else if role = 0x05 then some .mmsrvEp
  else if role = 0x04 then some .vfsEp
  else none

def peRtldWalk (m : Memory) (table : ℕ) : (PeSlot → UInt64) → Option (PeSlot → UInt64) :=
  walk m table peRoleTarget

/-! ## The builder -/

/-- `MAX_CAP_TABLE_ENTRIES`. -/
def maxCapTableEntries : ℕ := 32

inductive CapTableErr
  | overflow
  | slotOutOfRange
  deriving DecidableEq

/-- `CapTableBuilder`: the entries that are there so far. -/
structure CapTableBuilder where
  entries : List CapEntry
  length_le : entries.length ≤ maxCapTableEntries

namespace CapTableBuilder

def new : CapTableBuilder := ⟨[], by decide⟩

/-- A slot of 0 is skipped without an error. -/
def push (b : CapTableBuilder) (roleId : UInt32) (slot : UInt64) (rights flags : UInt32) :
    Except CapTableErr CapTableBuilder :=
  if slot = 0 then .ok b
  else if slot > 0xFFFFFFFF then .error .slotOutOfRange
  else if h : b.entries.length ≥ maxCapTableEntries then .error .overflow
  else .ok ⟨b.entries ++ [⟨roleId, slot.toUInt32, rights, flags⟩], by
    rw [List.length_append, List.length_singleton]
    omega⟩

/-- One push after the other, by a caller that goes on after an error. -/
def pushAll (b : CapTableBuilder) : List (UInt32 × UInt64 × UInt32 × UInt32) → CapTableBuilder
  | [] => b
  | p :: ps => pushAll (match b.push p.1 p.2.1 p.2.2.1 p.2.2.2 with
    | .ok b' => b'
    | .error _ => b) ps

def u32Bytes (v : UInt32) : List UInt8 := wordBytes 4 v.toNat

def entryBytes (e : CapEntry) : List UInt8 :=
  u32Bytes e.roleId ++ u32Bytes e.slot ++ u32Bytes e.rights ++ u32Bytes e.flags

/-- What `write_at` writes. -/
def bytes (b : CapTableBuilder) : List UInt8 :=
  u32Bytes magic ++ u32Bytes version ++ u32Bytes (UInt32.ofNat b.entries.length) ++ u32Bytes 0 ++
    b.entries.flatMap entryBytes

end CapTableBuilder

/-! ## The table that is built -/

namespace CapTableBuilder

variable {b : CapTableBuilder}

theorem length_entryBytes (e : CapEntry) : (entryBytes e).length = entrySize := by
  simp [entryBytes, u32Bytes, wordBytes, entrySize]

theorem length_flatMap_entryBytes (es : List CapEntry) :
    (es.flatMap entryBytes).length = es.length * entrySize := by
  induction es with
  | nil => rfl
  | cons e es ih => rw [List.flatMap_cons, List.length_append, ih, length_entryBytes,
      List.length_cons, Nat.succ_mul, Nat.add_comm]

/-- `byte_len`. -/
theorem length_bytes : b.bytes.length = headerSize + b.entries.length * entrySize := by
  rw [bytes, List.length_append, length_flatMap_entryBytes]
  rfl

/-- The table as a file. -/
def file (b : CapTableBuilder) : File where
  bytes := b.bytes
  length_lt := by
    have hle := b.length_le
    rw [length_bytes, headerSize, entrySize]
    rw [maxCapTableEntries] at hle
    omega

section

variable {m : Memory} {table : ℕ}

theorem readU32_of_holds {f : File} {front rest : List UInt8} {v : UInt32} (h : m.Holds table f)
    (hf : f.bytes = front ++ (u32Bytes v ++ rest)) :
    readU32 m (table + front.length) = some v := by
  have hlen : (u32Bytes v).length = 4 := by simp [u32Bytes, wordBytes]
  have hread := h.read_append hf
  rw [hlen] at hread
  rw [readU32, Memory.le, hread, u32Bytes, Option.map_some, leNat_wordBytes,
    Nat.mod_eq_of_lt (show v.toNat < 256 ^ 4 from v.toNat_lt), Option.map_some, UInt32.ofNat_toNat]

variable (h : m.Holds table b.file)

include h

theorem readEntry_of_holds {front rest : List CapEntry} {e : CapEntry}
    (hb : b.entries = front ++ e :: rest) : readEntry m table front.length = some e := by
  -- the words of the table, with those of the entry apart
  have hbytes : b.file.bytes = (u32Bytes magic ++ u32Bytes version ++
      u32Bytes (UInt32.ofNat b.entries.length) ++ u32Bytes 0 ++ front.flatMap entryBytes) ++
      (u32Bytes e.roleId ++ (u32Bytes e.slot ++ (u32Bytes e.rights ++ (u32Bytes e.flags ++
        rest.flatMap entryBytes)))) := by
    simp only [file, bytes, hb, List.flatMap_append, List.flatMap_cons, entryBytes,
      List.append_assoc]
  have hlen : ∀ v, (u32Bytes v).length = 4 := fun v => by simp [u32Bytes, wordBytes]
  have hrole := readU32_of_holds h hbytes
  rw [← List.append_assoc] at hbytes
  have hslot := readU32_of_holds h hbytes
  rw [← List.append_assoc] at hbytes
  have hrights := readU32_of_holds h hbytes
  rw [← List.append_assoc] at hbytes
  have hflags := readU32_of_holds h hbytes
  simp only [List.length_append, hlen, length_flatMap_entryBytes, ← Nat.add_assoc]
    at hrole hslot hrights hflags
  simp only [readEntry, headerSize, hrole, hslot, hrights, hflags, Option.bind_some,
    Option.map_some]

theorem readEntriesFrom_of_holds {front rest : List CapEntry} (hb : b.entries = front ++ rest) :
    readEntriesFrom m table rest.length front.length = some rest := by
  induction rest generalizing front with
  | nil => rfl
  | cons e rest ih =>
    have hb' : b.entries = (front ++ [e]) ++ rest := by
      rw [hb, List.append_assoc, List.singleton_append]
    have hrest := ih hb'
    rw [List.length_append, List.length_singleton] at hrest
    rw [List.length_cons, readEntriesFrom, readEntry_of_holds h hb, Option.bind_some, hrest]
    rfl

/-- A table that a builder has written is understood, and its entries are those of the
    builder. -/
theorem readEntries_of_holds (htable : table ≠ 0) :
    validate m table = some true ∧ readEntries m table = some b.entries := by
  have hbytes : b.file.bytes = [] ++ (u32Bytes magic ++ (u32Bytes version ++
      (u32Bytes (UInt32.ofNat b.entries.length) ++ (u32Bytes 0 ++
        b.entries.flatMap entryBytes)))) := by
    simp only [file, bytes, List.append_assoc, List.nil_append]
  have hlen : ∀ v, (u32Bytes v).length = 4 := fun v => by simp [u32Bytes, wordBytes]
  have hmagic := readU32_of_holds h hbytes
  rw [← List.append_assoc] at hbytes
  have hversion := readU32_of_holds h hbytes
  rw [← List.append_assoc] at hbytes
  have hcount := readU32_of_holds h hbytes
  simp only [List.length_append, hlen, List.length_nil, Nat.zero_add, Nat.reduceAdd, Nat.add_zero]
    at hmagic hversion hcount
  have hle := b.length_le
  rw [maxCapTableEntries] at hle
  constructor
  · rw [validate, if_neg htable, hmagic, Option.bind_some, if_pos rfl, hversion]
    rfl
  · rw [readEntries, readCount, hcount, Option.bind_some, UInt32.toNat_ofNat_of_lt' (by
      rw [UInt32.size]; omega)]
    have hnil : b.entries = [] ++ b.entries := rfl
    exact readEntriesFrom_of_holds h hnil

end

end CapTableBuilder

/-! ## What the readers find -/

/-- The first entry with a role. -/
def firstOf (entries : List CapEntry) (role : UInt32) : Option CapEntry :=
  entries.find? (·.roleId = role)

/-- The last entry with a role. -/
def lastOf (entries : List CapEntry) (role : UInt32) : Option CapEntry :=
  entries.reverse.find? (·.roleId = role)

section

variable {m : Memory} {table n i : ℕ} {entries : List CapEntry} {role : UInt32}

theorem lookupFrom_eq (h : readEntriesFrom m table n i = some entries) :
    lookupFrom m table role n i = some (firstOf entries role) := by
  induction n generalizing i entries with
  | zero =>
    obtain rfl := Option.some.inj h
    rfl
  | succ n ih =>
    obtain ⟨e, he, hmap⟩ := Option.bind_eq_some_iff.1 h
    obtain ⟨rest, hrest, rfl⟩ := Option.map_eq_some_iff.1 hmap
    rw [lookupFrom, he, Option.bind_some, ih hrest, firstOf, firstOf, List.find?_cons]
    by_cases hrole : e.roleId = role <;> simp [hrole]

theorem lookup_eq (hvalid : validate m table = some true)
    (hread : readEntries m table = some entries) :
    lookup m table role = some (firstOf entries role) := by
  obtain ⟨count, hcount, hfrom⟩ := Option.bind_eq_some_iff.1 hread
  rw [lookup, hvalid, Option.bind_some, if_pos rfl, hcount, Option.bind_some, lookupFrom_eq hfrom]

variable {κ : Type} [DecidableEq κ] {target : UInt32 → Option κ} {slots : κ → UInt64}

theorem walkFrom_eq (h : readEntriesFrom m table n i = some entries) :
    walkFrom m table target n i slots = some (entries.foldl (record target) slots) := by
  induction n generalizing i entries slots with
  | zero =>
    obtain rfl := Option.some.inj h
    rfl
  | succ n ih =>
    obtain ⟨e, he, hmap⟩ := Option.bind_eq_some_iff.1 h
    obtain ⟨rest, hrest, rfl⟩ := Option.map_eq_some_iff.1 hmap
    rw [walkFrom, he, Option.bind_some, ih hrest, List.foldl_cons]

/-- A walk reads all entries. -/
theorem readEntriesFrom_of_walkFrom (h : (walkFrom m table target n i slots).isSome) :
    ∃ entries, readEntriesFrom m table n i = some entries := by
  induction n generalizing i slots with
  | zero => exact ⟨[], rfl⟩
  | succ n ih =>
    cases he : readEntry m table i with
    | none => simp [walkFrom, he] at h
    | some e =>
      rw [walkFrom, he, Option.bind_some] at h
      obtain ⟨rest, hrest⟩ := ih h
      exact ⟨e :: rest, by rw [readEntriesFrom, he, Option.bind_some, hrest, Option.map_some]⟩

section

variable (hvalid : validate m table = some true)

include hvalid

theorem readEntries_of_walk {slots' : κ → UInt64} (h : walk m table target slots = some slots') :
    ∃ entries, readEntries m table = some entries := by
  rw [walk, hvalid, Option.bind_some, if_pos rfl] at h
  obtain ⟨count, hcount, hfrom⟩ := Option.bind_eq_some_iff.1 h
  rw [readEntries, hcount, Option.bind_some]
  exact readEntriesFrom_of_walkFrom (Option.isSome_of_mem hfrom)

theorem walk_eq (hread : readEntries m table = some entries) :
    walk m table target slots = some (entries.foldl (record target) slots) := by
  obtain ⟨count, hcount, hfrom⟩ := Option.bind_eq_some_iff.1 hread
  rw [walk, hvalid, Option.bind_some, if_pos rfl, hcount, Option.bind_some, walkFrom_eq hfrom]

theorem installWellKnownCaps_eq {caps : CapSymbol → UInt64}
    (hread : readEntries m table = some entries) :
    (installWellKnownCaps m table caps).map Prod.fst =
      some (entries.foldl (record systemRoleTarget) caps) := by
  obtain ⟨count, hcount, hfrom⟩ := Option.bind_eq_some_iff.1 hread
  rw [installWellKnownCaps, hvalid, Option.bind_some, if_pos rfl, hcount, Option.bind_some,
    walkFrom_eq hfrom]
  rfl

end

/-- The slot of an entry, or what was there before if there is no entry. -/
def slotOr (found : Option CapEntry) (before : UInt64) : UInt64 :=
  (found.map (·.slot.toUInt64)).getD before

end

/-! ## When the readers agree -/

/-- What a walk has recorded for a role is what `lookup` has found, and the variable is as
    before if it has found nothing. -/
def Agrees {κ : Type} (target : UInt32 → Option κ) (role : UInt32) (found : Option CapEntry)
    (before after : κ → UInt64) : Prop :=
  ∀ k, target role = some k → after k = slotOr found (before k)

/-- All readers return, and for every role the walks have recorded what `lookup` finds. -/
def ReadersAgree (m : Memory) (table : ℕ) (caps : CapSymbol → UInt64) (elf : ElfSlot → UInt64)
    (pe : PeSlot → UInt64) : Prop :=
  ∃ caps' elf' pe', (installWellKnownCaps m table caps).map Prod.fst = some caps' ∧
    rtldWalk m table elf = some elf' ∧ peRtldWalk m table pe = some pe' ∧
    ∀ role, ∃ found, lookup m table role = some found ∧
      Agrees systemRoleTarget role found caps caps' ∧ Agrees elfRoleTarget role found elf elf' ∧
      Agrees peRoleTarget role found pe pe'

/-- The role of a variable. -/
def CapSymbol.role : CapSymbol → UInt32
  | .procmgrEp => 0x01
  | .serviceEp => 0x02
  | .namesrvEp => 0x03
  | .vfsEp => 0x04
  | .mmsrvEp => 0x05
  | .rsrcsrvEp => 0x07
  | .consoleEp => 0x09
  | .signalNtfn => 0x0A
  | .readinessNtfn => 0x0B
  | .initrdUntyped => 0x0C
  | .fbUntyped => 0x0D
  | .pciIoport => 0x0E
  | .com1Ioport => 0x0F
  | .win32srvEp => 0x10
  | .cspaceNtfn => 0x11
  | .scCap => 0x12

/-- The first and the last entry with a public system role have the same slot. -/
def SameEnds (entries : List CapEntry) : Prop :=
  ∀ k : CapSymbol,
    (firstOf entries k.role).map CapEntry.slot = (lastOf entries k.role).map CapEntry.slot

/-- The variables of a walk, by those for the public system roles. -/
def IsWalk {κ : Type} (target : UInt32 → Option κ) (symbol : κ → CapSymbol) : Prop :=
  ∀ role k, target role = some k ↔ role = (symbol k).role

theorem isWalk_system : IsWalk systemRoleTarget id := by
  intro role k
  constructor
  · intro h
    rw [systemRoleTarget] at h
    iterate 16
      rcases ite_eq_iff.1 h with ⟨hrole, hk⟩ | ⟨-, h⟩
      · rw [← Option.some.inj hk]
        exact hrole
    cases h
  · rintro rfl
    cases k <;> rfl

def ElfSlot.symbol : ElfSlot → CapSymbol
  | .procmgrEp => .procmgrEp
  | .initrdUntyped => .initrdUntyped

theorem isWalk_elf : IsWalk elfRoleTarget ElfSlot.symbol := by
  intro role k
  constructor
  · intro h
    rw [elfRoleTarget] at h
    split_ifs at h <;> obtain rfl := Option.some.inj h <;> assumption
  · rintro rfl
    cases k <;> rfl

def PeSlot.symbol : PeSlot → CapSymbol
  | .procmgrEp => .procmgrEp
  | .mmsrvEp => .mmsrvEp
  | .vfsEp => .vfsEp

theorem isWalk_pe : IsWalk peRoleTarget PeSlot.symbol := by
  intro role k
  constructor
  · intro h
    rw [peRoleTarget] at h
    split_ifs at h <;> obtain rfl := Option.some.inj h <;> assumption
  · rintro rfl
    cases k <;> rfl

section

variable {m : Memory} {table : ℕ} {entries : List CapEntry} {role : UInt32} {κ : Type}
  [DecidableEq κ] {target : UInt32 → Option κ} {symbol : κ → CapSymbol} {slots : κ → UInt64}

/-- A variable has the slot of the last entry with its role. -/
theorem foldl_record (hwalk : IsWalk target symbol) {k : κ} :
    entries.foldl (record target) slots k =
      slotOr (lastOf entries (symbol k).role) (slots k) := by
  induction entries using List.reverseRec with
  | nil => rfl
  | append_singleton entries e ih =>
    rw [List.foldl_append, List.foldl_cons, List.foldl_nil, lastOf, List.reverse_concat,
      List.find?_cons, record]
    by_cases he : e.roleId = (symbol k).role
    · rw [(hwalk e.roleId k).2 he]
      simp [he, slotOr]
    · -- the entry is for another variable, or for none
      have hother : ∀ k', target e.roleId = some k' → k ≠ k' := by
        rintro k' hk' rfl
        exact he ((hwalk e.roleId k).1 hk')
      simp only [he, decide_false]
      cases htarget : target e.roleId with
      | none => exact ih
      | some k' =>
        dsimp only
        rw [Function.update_of_ne (hother k' htarget)]
        exact ih

theorem slotOr_congr {e e' : Option CapEntry} {before : UInt64}
    (h : e.map CapEntry.slot = e'.map CapEntry.slot) : slotOr e before = slotOr e' before := by
  cases e <;> cases e' <;> simp_all [slotOr]

theorem firstOf_eq_none : firstOf entries role = none ↔ lastOf entries role = none := by
  simp [firstOf, lastOf]

theorem SameEnds.agrees (h : SameEnds entries) (hwalk : IsWalk target symbol) :
    Agrees target role (firstOf entries role) slots (entries.foldl (record target) slots) := by
  intro k hk
  obtain rfl := (hwalk role k).1 hk
  rw [foldl_record hwalk]
  exact (slotOr_congr (h (symbol k))).symm

/-- In a table that is understood, the four readers agree if and only if all entries can be
    read, and the first and the last one with a public system role have the same slot. -/
theorem readers_agree_iff {caps : CapSymbol → UInt64} {elf : ElfSlot → UInt64}
    {pe : PeSlot → UInt64} (hvalid : validate m table = some true) :
    ReadersAgree m table caps elf pe ↔
      ∃ entries, readEntries m table = some entries ∧ SameEnds entries := by
  constructor
  · rintro ⟨caps', elf', pe', hcaps, helf, -, hagree⟩
    obtain ⟨entries, hread⟩ := readEntries_of_walk hvalid helf
    refine ⟨entries, hread, fun k => ?_⟩
    obtain ⟨found, hfound, hsystem, -⟩ := hagree k.role
    obtain rfl := Option.some.inj ((lookup_eq hvalid hread).symm.trans hfound)
    obtain rfl := Option.some.inj ((installWellKnownCaps_eq hvalid hread).symm.trans hcaps)
    -- The sweep over all entries has kept the last one, `lookup` has stopped at the first.
    have hslot := hsystem k ((isWalk_system k.role k).2 rfl)
    rw [foldl_record isWalk_system, id_eq] at hslot
    cases hfirst : firstOf entries k.role with
    | none => rw [firstOf_eq_none.1 hfirst]
    | some first =>
      obtain ⟨last, hlast⟩ : ∃ last, lastOf entries k.role = some last :=
        Option.ne_none_iff_exists'.1 fun hnone => by simp [firstOf_eq_none.2 hnone] at hfirst
      rw [hfirst, hlast] at hslot
      rw [hlast, Option.map_some, Option.map_some]
      exact congrArg some (UInt32.toUInt64_inj.1 hslot).symm
  · rintro ⟨entries, hread, h⟩
    exact ⟨_, _, _, installWellKnownCaps_eq hvalid hread, walk_eq hvalid hread,
      walk_eq hvalid hread,
      fun role => ⟨_, lookup_eq hvalid hread, h.agrees isWalk_system, h.agrees isWalk_elf,
        h.agrees isWalk_pe⟩⟩

/-- The table of a builder, alone in memory. -/
theorem ofFile_holds_file (b : CapTableBuilder) :
    (Memory.ofFile 0x1000 b.file).Holds 0x1000 b.file := by
  have hle := b.length_le
  have hsize : b.file.size = headerSize + b.entries.length * entrySize := b.length_bytes
  rw [headerSize, entrySize] at hsize
  rw [maxCapTableEntries] at hle
  have hnil : b.file.bytes = [] ++ b.file.bytes := rfl
  exact Memory.ofFile_holds hnil rfl (by omega)

end

/-- A builder with the process manager in slot 5, a file server in slot 7, and the process
    manager in slot 5 once more. -/
def consistent : CapTableBuilder :=
  CapTableBuilder.new.pushAll [(0x01, 5, 0, 0), (0x04, 7, 0, 0), (0x01, 5, 0, 0)]

theorem readers_agree_consistent :
    validate (Memory.ofFile 0x1000 consistent.file) 0x1000 = some true ∧
      readEntries (Memory.ofFile 0x1000 consistent.file) 0x1000 = some consistent.entries ∧
      ReadersAgree (Memory.ofFile 0x1000 consistent.file) 0x1000 (fun _ => 0) (fun _ => 0)
        (fun _ => 0) := by
  obtain ⟨hvalid, hread⟩ :=
    CapTableBuilder.readEntries_of_holds (ofFile_holds_file consistent) (by decide)
  refine ⟨hvalid, hread, (readers_agree_iff hvalid).2 ⟨_, hread, fun k => ?_⟩⟩
  cases k <;> rfl

/-- A builder that is given the role of the process manager twice. -/
def repeated : CapTableBuilder := CapTableBuilder.new.pushAll [(0x01, 5, 0, 0), (0x01, 6, 0, 0)]

theorem readers_disagree :
    (lookup (Memory.ofFile 0x1000 repeated.file) 0x1000 0x01).map (·.map CapEntry.slot) =
        some (some 5) ∧
      (rtldWalk (Memory.ofFile 0x1000 repeated.file) 0x1000 (fun _ => 0)).map (· .procmgrEp) =
        some 6 ∧
      ¬ReadersAgree (Memory.ofFile 0x1000 repeated.file) 0x1000 (fun _ => 0) (fun _ => 0)
        (fun _ => 0) := by
  obtain ⟨hvalid, hread⟩ :=
    CapTableBuilder.readEntries_of_holds (ofFile_holds_file repeated) (by decide)
  refine ⟨?_, ?_, ?_⟩
  · rw [lookup_eq hvalid hread]
    rfl
  · rw [rtldWalk, walk_eq hvalid hread]
    rfl
  · rintro ⟨caps', elf', pe', -, helf, -, hagree⟩
    obtain ⟨found, hfound, -, helfAgrees, -⟩ := hagree 0x01
    obtain rfl := Option.some.inj ((lookup_eq hvalid hread).symm.trans hfound)
    obtain rfl := Option.some.inj ((walk_eq hvalid hread).symm.trans helf)
    exact absurd (helfAgrees .procmgrEp rfl) (by decide)

end CapTable

end Trona
