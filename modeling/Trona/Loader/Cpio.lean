import Mathlib.Data.List.Find
import Mathlib.Data.List.Forall2
import Mathlib.Data.Nat.Digits.Defs
import Trona.Lib.Iterate
import Trona.Rtld.Cpio

/-!
# Reading the initial RAM disk

`loader/cpio.rs`: iteration over the archive that is the initial RAM disk (`cpio_next`,
`cpio_next_ext`) and a search for a file by its name (`cpio_find_file`, `cpio_find_file_ext`);
the dynamic linker has a search of its own (`rtld_cpio_find`, `Rtld.cpioFind`).

An archive in the `newc` format (`IsArchive`) is a sequence of members: a header of 110 bytes
with numbers of eight hexadecimal digits, the name and a zero byte, and the data, the last two
filled up to a multiple of four bytes. A member with the name `TRAILER!!!` ends it.

* Iteration over an archive gives its members up to the trailer (`IsArchive.yields`).
* In any bytes, each of the searches finds the first entry of the iteration that has the name
  (`cpio_reading`).
-/

namespace Trona

namespace Loader

open Rtld

/-! ## The functions -/

/-- `CpioEntryExt`: an entry with what else its header says. -/
structure CpioEntryExt extends CpioEntry where
  ino : ℕ
  mode : ℕ
  uid : ℕ
  gid : ℕ
  nlink : ℕ
  mtime : ℕ
  deriving DecidableEq

/-- `parse_hex8` at an offset of a header. The linker has the same function. -/
def parseHex8 (header : List UInt8) (off : ℕ) : ℕ := cpioParseHex8 ((header.drop off).take 8)

def align4 (n : ℕ) : ℕ := cpioAlign4 n

/-- What a scanner has found at an offset: the header, the name, without the zero byte at its
    end, and where the name and the data are. -/
structure Scanned where
  header : List UInt8
  nameStart : ℕ
  name : List UInt8
  dataStart : ℕ
  filesize : ℕ

section

variable (m : Memory) (archive archiveLen : ℕ)

/-- What all functions do first at an offset: there is an entry if the header, the name and the
    data are within the archive and the name is not that of the trailer. -/
def scanEntry (offset : ℕ) : Option (Option Scanned) :=
  if offset + cpioHeaderSize > archiveLen then some none
  else
    (m.read (archive + offset) cpioHeaderSize).bind fun header =>
      if header.take 6 ≠ cpioMagic then some none
      else
        let namesize := parseHex8 header 94
        let filesize := parseHex8 header 54
        let nameStart := offset + cpioHeaderSize
        if nameStart + namesize > archiveLen then some none
        else
          (m.read (archive + nameStart) namesize).bind fun bytes =>
            let dataStart := align4 (nameStart + namesize)
            if trimName bytes = cpioTrailer then some none
            else if dataStart + filesize > archiveLen then some none
            else some (some ⟨header, nameStart, trimName bytes, dataStart, filesize⟩)

/-- The entry, by pointers into the archive. -/
def Scanned.entry (e : Scanned) : CpioEntry where
  name := (archive + e.nameStart) % 2 ^ 64
  nameLen := e.name.length
  data := (archive + e.dataStart) % 2 ^ 64
  dataLen := e.filesize

def Scanned.entryExt (e : Scanned) : CpioEntryExt where
  toCpioEntry := e.entry archive
  ino := parseHex8 e.header 6
  mode := parseHex8 e.header 14
  uid := parseHex8 e.header 22
  gid := parseHex8 e.header 30
  nlink := parseHex8 e.header 38
  mtime := parseHex8 e.header 46

/-- The offset of the next entry. -/
def Scanned.next (e : Scanned) : ℕ := align4 (e.dataStart + e.filesize)

/-- The entry at an offset and the offset of the next one, if there is an entry. -/
def cpioNext (offset : ℕ) : Option (Option (CpioEntry × ℕ)) :=
  (scanEntry m archive archiveLen offset).map (·.map fun e => (e.entry archive, e.next))

def cpioNextExt (offset : ℕ) : Option (Option (CpioEntryExt × ℕ)) :=
  (scanEntry m archive archiveLen offset).map (·.map fun e => (e.entryExt archive, e.next))

/-- The loop of the searches: from an offset on, the first entry with the name. The fuel is
    enough for all headers of the archive. -/
def findFrom (name : List UInt8) : (fuel offset : ℕ) → Option (Option Scanned)
  | 0, _ => some none
  | fuel + 1, offset => (scanEntry m archive archiveLen offset).bind fun r =>
    match r with
    | none => some none
    | some e => if e.name = name then some (some e) else findFrom name fuel e.next

def cpioFindFile (name : List UInt8) : Option (Option CpioEntry) :=
  (findFrom m archive archiveLen name (archiveLen + 1) 0).map (·.map (Scanned.entry archive))

def cpioFindFileExt (name : List UInt8) : Option (Option CpioEntryExt) :=
  (findFrom m archive archiveLen name (archiveLen + 1) 0).map (·.map (Scanned.entryExt archive))

end

/-! ## The format -/

/-- The characters of a digit. -/
def IsHexChar (b : UInt8) (d : ℕ) : Prop :=
  d < 10 ∧ b.toNat = 0x30 + d ∨
    10 ≤ d ∧ d < 16 ∧ (b.toNat = 0x61 + (d - 10) ∨ b.toNat = 0x41 + (d - 10))

instance (b : UInt8) (d : ℕ) : Decidable (IsHexChar b d) := inferInstanceAs (Decidable (_ ∨ _))

/-- Eight hexadecimal digits, of either case, and the number that they stand for. -/
def Spells (bs : List UInt8) (v : ℕ) : Prop :=
  bs.length = 8 ∧ ∃ ds : List ℕ, List.Forall₂ IsHexChar bs ds ∧ Nat.ofDigits 16 ds.reverse = v

/-- A file in an archive. -/
structure Member where
  ino : ℕ
  mode : ℕ
  uid : ℕ
  gid : ℕ
  nlink : ℕ
  mtime : ℕ
  name : List UInt8
  data : List UInt8

/-- Bytes that fill something up to a multiple of four bytes. -/
def IsPadding (len : ℕ) (pad : List UInt8) : Prop := pad.length < 4 ∧ (len + pad.length) % 4 = 0

/-- A header says what its member is. The numbers of the devices and the checksum, which is not
    used in this format, may be any. -/
def IsHeader (header : List UInt8) (e : Member) : Prop :=
  ∃ fields devMajor devMinor rdevMajor rdevMinor check, header = cpioMagic ++ List.flatten fields ∧
    List.Forall₂ Spells fields [e.ino, e.mode, e.uid, e.gid, e.nlink, e.mtime, e.data.length,
      devMajor, devMinor, rdevMajor, rdevMinor, e.name.length + 1, check]

/-- The bytes of a member. -/
def IsMember (bs : List UInt8) (e : Member) : Prop :=
  ∃ header pad₁ pad₂, bs = header ++ (e.name ++ [0]) ++ pad₁ ++ e.data ++ pad₂ ∧ IsHeader header e ∧
    IsPadding (cpioHeaderSize + (e.name.length + 1)) pad₁ ∧ IsPadding e.data.length pad₂

/-- The bytes of an archive, and its members before the trailer. Anything may come after the
    trailer. -/
inductive IsArchive : List UInt8 → List Member → Prop
  | trailer {bs rest : List UInt8} {e : Member} (h : IsMember bs e) (hname : e.name = cpioTrailer)
    (hdata : e.data = []) : IsArchive (bs ++ rest) []
  | member {bs rest : List UInt8} {e : Member} {es : List Member} (h : IsMember bs e)
    (hnul : 0 ∉ e.name) (hname : e.name ≠ cpioTrailer) (hrest : IsArchive rest es) :
    IsArchive (bs ++ rest) (e :: es)

/-- The entry for a member at an offset. -/
def Member.entryAt (archive : ℕ) (e : Member) (offset : ℕ) : CpioEntryExt where
  name := (archive + (offset + cpioHeaderSize)) % 2 ^ 64
  nameLen := e.name.length
  data := (archive + align4 (offset + cpioHeaderSize + (e.name.length + 1))) % 2 ^ 64
  dataLen := e.data.length
  ino := e.ino
  mode := e.mode
  uid := e.uid
  gid := e.gid
  nlink := e.nlink
  mtime := e.mtime

/-- The entries for members from an offset on. -/
def entriesFrom (archive : ℕ) : List Member → ℕ → List CpioEntryExt
  | [], _ => []
  | e :: es, offset => e.entryAt archive offset :: entriesFrom archive es
    (align4 (align4 (offset + cpioHeaderSize + (e.name.length + 1)) + e.data.length))

/-- An entry points to the name and the data of a member, and says what its header says. -/
structure Describes (m : Memory) (entry : CpioEntryExt) (e : Member) : Prop where
  name : m.read entry.name entry.nameLen = some e.name
  data : m.read entry.data entry.dataLen = some e.data
  ino : entry.ino = e.ino
  mode : entry.mode = e.mode
  uid : entry.uid = e.uid
  gid : entry.gid = e.gid
  nlink : entry.nlink = e.nlink
  mtime : entry.mtime = e.mtime

/-! ## Headers -/

section

variable {bs header : List UInt8} {e : Member} {v : ℕ}

theorem hexDigit_of_isHexChar {b : UInt8} {d : ℕ} (h : IsHexChar b d) : hexDigit b = some d := by
  rcases h with ⟨hd, hb⟩ | ⟨hd₁, hd₂, hb | hb⟩
  · rw [hexDigit, hb, if_pos (by omega)]
    congr 1
    omega
  · rw [hexDigit, hb, if_neg (by omega), if_pos (by omega)]
    congr 1
    omega
  · rw [hexDigit, hb, if_neg (by omega), if_neg (by omega), if_pos (by omega)]
    congr 1
    omega

theorem foldl_hexDigit {ds : List ℕ} (h : List.Forall₂ IsHexChar bs ds) (a : ℕ) :
    bs.foldl (fun val b => val.bind fun val => (hexDigit b).map (val * 16 + ·)) (some a) =
      some (ds.foldl (fun val d => d + 16 * val) a) := by
  induction h generalizing a with
  | nil => rfl
  | @cons b d bs ds hb _ ih =>
    rw [List.foldl_cons, List.foldl_cons, Option.bind_some, hexDigit_of_isHexChar hb,
      Option.map_some, ih, Nat.add_comm, Nat.mul_comm]

theorem Spells.parse (h : Spells bs v) : cpioParseHex8 bs = v := by
  obtain ⟨-, ds, hds, rfl⟩ := h
  rw [cpioParseHex8, foldl_hexDigit hds, Nat.ofDigits_eq_foldr, List.foldr_reverse]
  rfl

/-- One of several lists of the same length, which are joined. -/
theorem take_drop_flatten {α : Type} {n i : ℕ} {ls : List (List α)} (h : ∀ l ∈ ls, l.length = n)
    (hi : i < ls.length) : (ls.flatten.drop (i * n)).take n = ls[i] := by
  induction ls generalizing i with
  | nil => simp at hi
  | cons l ls ih =>
    have hl : l.length = n := h l List.mem_cons_self
    cases i with
    | zero => rw [Nat.zero_mul, List.drop_zero, List.flatten_cons, List.take_left' hl]; rfl
    | succ i =>
      rw [Nat.succ_mul, Nat.add_comm, ← List.drop_drop, List.flatten_cons, List.drop_left' hl,
        ih (fun l' hl' => h l' (List.mem_cons_of_mem l hl')) (Nat.lt_of_succ_lt_succ hi)]
      rfl

theorem length_flatten_of_forall {α : Type} {n : ℕ} {ls : List (List α)}
    (h : ∀ l ∈ ls, l.length = n) : ls.flatten.length = ls.length * n := by
  induction ls with
  | nil => simp
  | cons l ls ih =>
    rw [List.flatten_cons, List.length_append, h l List.mem_cons_self,
      ih fun l' hl' => h l' (List.mem_cons_of_mem l hl'), List.length_cons, Nat.succ_mul,
      Nat.add_comm]

/-- The numbers of a header, in the order of the format. -/
def Member.numbers (e : Member) (devMajor devMinor rdevMajor rdevMinor check : ℕ) : List ℕ :=
  [e.ino, e.mode, e.uid, e.gid, e.nlink, e.mtime, e.data.length, devMajor, devMinor, rdevMajor,
    rdevMinor, e.name.length + 1, check]

/-- What a header is: its length, the magic number, and what is parsed at its offsets. -/
theorem IsHeader.spec (h : IsHeader header e) :
    header.length = cpioHeaderSize ∧ header.take 6 = cpioMagic ∧
      ∃ devMajor devMinor rdevMajor rdevMinor check, ∀ i v,
        (e.numbers devMajor devMinor rdevMajor rdevMinor check)[i]? = some v →
        parseHex8 header (6 + i * 8) = v := by
  obtain ⟨fields, devMajor, devMinor, rdevMajor, rdevMinor, check, rfl, hfields⟩ := h
  have hlen : ∀ l ∈ fields, l.length = 8 := by
    intro l hl
    obtain ⟨i, rfl⟩ := List.mem_iff_get.1 hl
    exact (hfields.get i.2 (hfields.length_eq ▸ i.2)).1
  have hcount : fields.length = 13 := hfields.length_eq
  refine ⟨?_, by simp [cpioMagic], devMajor, devMinor, rdevMajor, rdevMinor, check, ?_⟩
  · rw [List.length_append, length_flatten_of_forall hlen, hcount]
    rfl
  · intro i v hv
    obtain ⟨hi, hv⟩ := List.getElem?_eq_some_iff.1 hv
    have hi' : i < fields.length := by
      rw [hcount]
      exact hi
    rw [parseHex8, ← List.drop_drop, List.drop_left' (by rfl), take_drop_flatten hlen hi', ← hv]
    exact (hfields.get hi' hi).parse

end

/-! ## Members -/

theorem align4_of_padding {n len : ℕ} {pad : List UInt8} (h : IsPadding len pad) (hn : n % 4 = 0) :
    align4 (n + len) = n + len + pad.length := by
  obtain ⟨hlt, hmod⟩ := h
  rw [align4, cpioAlign4]
  omega

section

variable {m : Memory} {archive : ℕ} {f : File} {front bs rest : List UInt8} {e : Member}
  {offset fuel : ℕ} {name : List UInt8} {s : Scanned}

theorem trimName_concat_zero : trimName (name ++ [0]) = name := by
  simp [trimName]

/-- The parts of a member, and how far it reaches. -/
theorem IsMember.layout (h : IsMember bs e) {n : ℕ} (hn : n % 4 = 0) :
    ∃ header pad₁ pad₂, bs = header ++ ((e.name ++ [0]) ++ (pad₁ ++ (e.data ++ pad₂))) ∧
      IsHeader header e ∧
      align4 (n + cpioHeaderSize + (e.name.length + 1)) =
        n + cpioHeaderSize + (e.name.length + 1) + pad₁.length ∧
      align4 (align4 (n + cpioHeaderSize + (e.name.length + 1)) + e.data.length) = n + bs.length ∧
      bs.length % 4 = 0 := by
  obtain ⟨header, pad₁, pad₂, rfl, hheader, hpad₁, hpad₂⟩ := h
  have hlen := hheader.spec.1
  have hname := align4_of_padding hpad₁ hn
  have hdata := align4_of_padding (n := n + (cpioHeaderSize + (e.name.length + 1)) + pad₁.length)
    hpad₂ (by have := hpad₁.2; omega)
  refine ⟨header, pad₁, pad₂, by simp only [List.append_assoc], hheader, ?_, ?_, ?_⟩
  · rw [Nat.add_assoc, hname]
  · rw [Nat.add_assoc, hname, hdata]
    simp only [List.length_append, List.length_singleton, hlen]
    omega
  · simp only [List.length_append, List.length_singleton, hlen]
    have hmod₁ := hpad₁.2
    have hmod₂ := hpad₂.2
    omega

section

variable (h : IsMember bs e) (hm : m.Holds archive f) (hf : f.bytes = front ++ (bs ++ rest))

include h hm hf

/-- What all functions find at a member: nothing at the trailer, and else its entry. -/
theorem IsMember.scanEntry (hfront : front.length % 4 = 0) :
    (e.name = cpioTrailer → scanEntry m archive f.size front.length = some none) ∧
      (e.name ≠ cpioTrailer → ∃ s, scanEntry m archive f.size front.length = some (some s) ∧
        s.entryExt archive = e.entryAt archive front.length ∧
        s.next = front.length + bs.length) := by
  obtain ⟨header, pad₁, pad₂, rfl, hheader, hdata, hnext, -⟩ := h.layout hfront
  obtain ⟨hlen, hmagic, _, _, _, _, _, hparse⟩ := hheader.spec
  have hsize : f.size = front.length + (cpioHeaderSize + (e.name.length + 1 + (pad₁.length +
      (e.data.length + pad₂.length))) + rest.length) := by
    rw [File.size, hf]
    simp only [List.length_append, List.length_singleton, hlen]
  -- the reads of the header and of the name
  rw [List.append_assoc] at hf
  have hread := hm.read_append hf
  rw [hlen] at hread
  have hfName : f.bytes = (front ++ header) ++ ((e.name ++ [0]) ++ (pad₁ ++ (e.data ++ pad₂) ++
      rest)) := by
    rw [hf]
    simp only [List.append_assoc]
  have hreadName := hm.read_append hfName
  rw [List.length_append, hlen, List.length_append, List.length_singleton] at hreadName
  have hnamesize : parseHex8 header 94 = e.name.length + 1 := hparse 11 _ rfl
  have hfilesize : parseHex8 header 54 = e.data.length := hparse 6 _ rfl
  rw [Loader.scanEntry, if_neg (by omega), hread, Option.bind_some, if_neg (not_not.2 hmagic)]
  simp only [hnamesize, hfilesize]
  rw [if_neg (by omega), hreadName, Option.bind_some, trimName_concat_zero, hdata]
  constructor
  · intro hname
    rw [if_pos hname]
  · intro hname
    refine ⟨_, by rw [if_neg hname, if_neg (by omega)], ?_, ?_⟩
    · simp only [Scanned.entryExt, Scanned.entry, Member.entryAt, hdata]
      congr 1
      exacts [hparse 0 _ rfl, hparse 1 _ rfl, hparse 2 _ rfl, hparse 3 _ rfl, hparse 4 _ rfl,
        hparse 5 _ rfl]
    · rw [← hnext, hdata]
      rfl

/-- The entry for a member points to its name and its data. -/
theorem IsMember.describes (hfront : front.length % 4 = 0) :
    Describes m (e.entryAt archive front.length) e := by
  obtain ⟨header, pad₁, pad₂, rfl, hheader, hdata, -⟩ := h.layout hfront
  have hlen := hheader.spec.1
  have hfName : f.bytes = (front ++ header) ++ (e.name ++ ([0] ++ pad₁ ++ e.data ++ pad₂ ++
      rest)) := by
    rw [hf]
    simp only [List.append_assoc]
  have hfData : f.bytes = (front ++ header ++ e.name ++ [0] ++ pad₁) ++ (e.data ++ (pad₂ ++
      rest)) := by
    rw [hf]
    simp only [List.append_assoc]
  have hname := hm.read_append hfName
  have hread := hm.read_append hfData
  simp only [List.length_append, List.length_singleton, hlen] at hname hread
  refine ⟨?_, ?_, rfl, rfl, rfl, rfl, rfl, rfl⟩
  · rw [Member.entryAt, Memory.read_mod]
    exact hname
  · rw [Member.entryAt, Memory.read_mod, hdata]
    exact hread

/-! ## Archives -/

end

variable (m archive f) in
/-- The iterator that the functions have in common. -/
def scanNext (offset : ℕ) : Option (Option (Scanned × ℕ)) :=
  (scanEntry m archive f.size offset).map (·.map fun s => (s, s.next))

theorem cpioNextExt_eq (offset : ℕ) : cpioNextExt m archive f.size offset =
    (scanNext m archive f offset).map (·.map (Prod.map (Scanned.entryExt archive) id)) := by
  rw [cpioNextExt, scanNext, Option.map_map]
  congr 1
  funext r
  cases r <;> rfl

theorem cpioNext_eq (offset : ℕ) : cpioNext m archive f.size offset =
    (cpioNextExt m archive f.size offset).map (·.map (Prod.map CpioEntryExt.toCpioEntry id)) := by
  rw [cpioNext, cpioNextExt, Option.map_map]
  congr 1
  funext r
  cases r <;> rfl

/-- Iteration over an archive gives its members before the trailer, with their names, data and
    what their headers say. -/
theorem IsArchive.yields {members : List Member} (h : IsArchive bs members) (hm : m.Holds archive f)
    (hf : f.bytes = front ++ bs) (hfront : front.length % 4 = 0) :
    Yields (cpioNextExt m archive f.size) front.length (entriesFrom archive members front.length) ∧
      List.Forall₂ (Describes m) (entriesFrom archive members front.length) members := by
  induction h generalizing front with
  | trailer h hname hdata =>
    refine ⟨.stop ?_, .nil⟩
    rw [cpioNextExt, (h.scanEntry hm hf hfront).1 hname]
    rfl
  | @member bs rest e es h hnul hname hrest ih =>
    obtain ⟨s, hscan, hentry, hnext⟩ := (h.scanEntry hm hf hfront).2 hname
    obtain ⟨_, _, _, -, -, -, hoffset, hmod⟩ := h.layout hfront
    have hf' : f.bytes = (front ++ bs) ++ rest := by rw [hf, List.append_assoc]
    obtain ⟨hyields, hdescribes⟩ := ih hf' (by rw [List.length_append]; omega)
    rw [List.length_append] at hyields hdescribes
    rw [entriesFrom, hoffset]
    refine ⟨.more ?_ hyields, .cons (h.describes hm hf hfront) hdescribes⟩
    rw [cpioNextExt, hscan, Option.map_some, Option.map_some, hentry, hnext]

/-! ## Searches -/

/-- An entry that is found is within the archive, and its name is where it points. -/
theorem scanEntry_spec (h : scanEntry m archive f.size offset = some (some s)) :
    offset + cpioHeaderSize ≤ f.size ∧ offset + cpioHeaderSize ≤ s.next ∧
      s.nameStart + s.name.length ≤ f.size ∧ s.dataStart + s.filesize ≤ f.size ∧
      m.read (s.entry archive).name (s.entry archive).nameLen = some s.name := by
  rw [scanEntry] at h
  split at h
  · cases h
  obtain ⟨header, -, h⟩ := Option.bind_eq_some_iff.1 h
  split at h
  · cases h
  dsimp only at h
  split at h
  · cases h
  obtain ⟨bytes, hbytes, h⟩ := Option.bind_eq_some_iff.1 h
  split at h
  · cases h
  split at h
  · cases h
  obtain rfl := Option.some.inj (Option.some.inj h)
  obtain ⟨hlen, -⟩ := Memory.read_eq_some.1 hbytes
  -- The name is what was read, maybe without its last byte.
  have hhead : trimName bytes = bytes.take (trimName bytes).length := by
    rw [trimName]
    split
    · rw [List.length_dropLast, List.dropLast_eq_take]
    · rw [List.take_length]
  have hle : (trimName bytes).length ≤ bytes.length := by
    rw [hhead]
    exact List.length_take_le' _ _
  refine ⟨by omega, ?_, ?_, by dsimp only; omega, ?_⟩
  · dsimp only [Scanned.next, align4, cpioAlign4]
    omega
  · dsimp only
    omega
  · dsimp only [Scanned.entry]
    rw [Memory.read_mod, Memory.read_take hbytes (hlen ▸ hle), ← hhead]

/-- In an archive that can be read, no step fails. -/
theorem scanEntry_isSome (hm : m.Holds archive f) (offset : ℕ) :
    (scanEntry m archive f.size offset).isSome := by
  rw [scanEntry]
  split
  · rfl
  rw [hm.read (by omega), Option.bind_some]
  split
  · rfl
  dsimp only
  split
  · rfl
  rw [hm.read (by omega), Option.bind_some]
  split
  · rfl
  split <;> rfl

/-- What the iterator gives, and where the next entry is. -/
theorem scanNext_eq_some {next : ℕ} (h : scanNext m archive f offset = some (some (s, next))) :
    scanEntry m archive f.size offset = some (some s) ∧ next = s.next := by
  obtain ⟨r, hr, hmap⟩ := Option.map_eq_some_iff.1 h
  obtain ⟨s', rfl, heq⟩ := Option.map_eq_some_iff.1 hmap
  obtain ⟨rfl, rfl⟩ := Prod.mk.inj heq
  exact ⟨hr, rfl⟩

/-- Iteration ends in any bytes, as every entry takes more bytes than none. -/
theorem exists_yields_scanNext (hm : m.Holds archive f) (offset : ℕ) :
    ∃ ss, Yields (scanNext m archive f) offset ss ∧ ss.length ≤ f.size - offset ∧
      ∀ s ∈ ss, s.nameStart + s.name.length ≤ f.size ∧ s.dataStart + s.filesize ≤ f.size ∧
        m.read (s.entry archive).name (s.entry archive).nameLen = some s.name := by
  have hsome : ∀ offset, (scanNext m archive f offset).isSome := fun offset => by
    rw [scanNext, Option.isSome_map]
    exact scanEntry_isSome hm offset
  have hrank : ∀ offset s next, scanNext m archive f offset = some (some (s, next)) →
      f.size - next < f.size - offset := by
    intro offset s next hnext
    obtain ⟨hscan, rfl⟩ := scanNext_eq_some hnext
    obtain ⟨hsize, hle, -⟩ := scanEntry_spec hscan
    rw [cpioHeaderSize] at hsize hle
    omega
  obtain ⟨ss, hyields, hlen⟩ := exists_yields (f.size - ·) hsome hrank offset
  refine ⟨ss, hyields, hlen, hyields.forall_mem fun offset s next hnext => ?_⟩
  exact (scanEntry_spec (scanNext_eq_some hnext).1).2.2

theorem findFrom_eq_search :
    findFrom m archive f.size name fuel offset =
      search (scanNext m archive f) (·.name = name) fuel offset := by
  induction fuel generalizing offset with
  | zero => rfl
  | succ fuel ih =>
    rw [findFrom, search, scanNext]
    cases hscan : scanEntry m archive f.size offset with
    | none => rfl
    | some r =>
      cases r with
      | none => rfl
      | some s =>
        simp only [Option.bind_some, Option.map_some, decide_eq_true_eq, ih]

/-- The search of the linker is that of `cpio_find_file`. -/
theorem cpioFindFrom_eq_findFrom :
    cpioFindFrom m archive f.size name fuel offset =
      (findFrom m archive f.size name fuel offset).map (·.map (Scanned.entry archive)) := by
  induction fuel generalizing offset with
  | zero => rfl
  | succ fuel ih =>
    rw [cpioFindFrom, findFrom, scanEntry]
    by_cases hoffset : offset + cpioHeaderSize > f.size
    · rw [if_pos hoffset, if_pos hoffset]
      rfl
    rw [if_neg hoffset, if_neg hoffset]
    cases m.read (archive + offset) cpioHeaderSize with
    | none => rfl
    | some header =>
      simp only [Option.bind_some]
      by_cases hmagic : header.take 6 ≠ cpioMagic
      · rw [if_pos hmagic, if_pos hmagic]
        rfl
      rw [if_neg hmagic, if_neg hmagic]
      -- the two functions for numbers are the same
      change (if offset + cpioHeaderSize + parseHex8 header 94 > f.size then _ else _) = _
      by_cases hname : offset + cpioHeaderSize + parseHex8 header 94 > f.size
      · rw [if_pos hname, if_pos hname]
        rfl
      rw [if_neg hname, if_neg hname]
      change (m.read (archive + (offset + cpioHeaderSize)) (parseHex8 header 94)).bind _ = _
      cases m.read (archive + (offset + cpioHeaderSize)) (parseHex8 header 94) with
      | none => rfl
      | some bytes =>
        simp only [Option.bind_some]
        by_cases htrailer : trimName bytes = cpioTrailer
        · rw [if_pos htrailer, if_pos htrailer]
          rfl
        rw [if_neg htrailer, if_neg htrailer]
        by_cases hdata : align4 (offset + cpioHeaderSize + parseHex8 header 94) +
            parseHex8 header 54 > f.size
        · rw [if_pos hdata]
          exact if_pos hdata
        rw [if_neg hdata, Option.bind_some]
        refine (if_neg hdata).trans ?_
        dsimp only
        split
        · rfl
        · exact ih

end

/-- The entry has a name. -/
def Named (m : Memory) (name : List UInt8) (entry : CpioEntry) : Bool :=
  m.read entry.name entry.nameLen = some name

/-- Iteration over an archive gives its members before the trailer, in order, with the places of
    their names and data and with what their headers say. In any bytes, the searches find the
    first entry of the iteration that has the name. -/
theorem cpio_reading {m : Memory} {archive : ℕ} {f : File} (hm : m.Holds archive f) :
    (∀ members, IsArchive f.bytes members →
      Yields (cpioNextExt m archive f.size) 0 (entriesFrom archive members 0) ∧
      Yields (cpioNext m archive f.size) 0
        ((entriesFrom archive members 0).map CpioEntryExt.toCpioEntry) ∧
      List.Forall₂ (Describes m) (entriesFrom archive members 0) members) ∧
    ∃ entries, Yields (cpioNextExt m archive f.size) 0 entries ∧
      Yields (cpioNext m archive f.size) 0 (entries.map CpioEntryExt.toCpioEntry) ∧
      ∀ name,
        cpioFindFileExt m archive f.size name = some (entries.find? (Named m name ·.toCpioEntry)) ∧
        cpioFindFile m archive f.size name =
          some ((entries.map CpioEntryExt.toCpioEntry).find? (Named m name)) ∧
        cpioFind m archive f.size name =
          some ((entries.map CpioEntryExt.toCpioEntry).find? (Named m name)) := by
  constructor
  · intro members h
    have hnil : f.bytes = [] ++ f.bytes := rfl
    obtain ⟨hyields, hdescribes⟩ := h.yields hm hnil rfl
    exact ⟨hyields, hyields.map cpioNext_eq, hdescribes⟩
  · obtain ⟨ss, hyields, hlen, hinside⟩ := exists_yields_scanNext hm 0
    have hyieldsExt : Yields (cpioNextExt m archive f.size) 0 _ := hyields.map cpioNextExt_eq
    refine ⟨_, hyieldsExt, hyieldsExt.map cpioNext_eq, fun name => ?_⟩
    have hfind : findFrom m archive f.size name (f.size + 1) 0 =
        some (ss.find? fun s => Named m name (s.entry archive)) := by
      rw [findFrom_eq_search, hyields.search (by omega)]
      refine congrArg some (List.find?_congr fun s hs => ?_)
      rw [Named, (hinside s hs).2.2]
      simp
    refine ⟨?_, ?_, ?_⟩
    · rw [cpioFindFileExt, hfind, List.find?_map]
      rfl
    · rw [cpioFindFile, hfind, List.map_map, List.find?_map]
      rfl
    · rw [cpioFind, cpioFindFrom_eq_findFrom, hfind, List.map_map, List.find?_map]
      rfl

/-- Eight digits for a small number. -/
def smallField (d : Fin 16) : List UInt8 :=
  List.replicate 7 0x30 ++ [UInt8.ofNat (if d.val < 10 then 0x30 + d.val else 0x41 + (d.val - 10))]

theorem spells_smallField (d : Fin 16) : Spells (smallField d) d := by
  refine ⟨rfl, List.replicate 7 0 ++ [d.val], ?_, ?_⟩
  · refine List.rel_append ?_ (.cons ?_ .nil)
    · exact List.forall₂_of_length_eq_of_get rfl (by decide)
    · revert d
      decide
  · simp [Nat.ofDigits]

/-- A file with a name of one byte and three bytes of data. -/
def smallMember : Member := ⟨1, 8, 0, 0, 1, 5, [0x61], [1, 2, 3]⟩

def smallHeader (ino mode nlink mtime filesize namesize : Fin 16) : List UInt8 :=
  cpioMagic ++ List.flatten ([ino, mode, 0, 0, nlink, mtime, filesize, 0, 0, 0, 0, namesize, 0].map
    smallField)

/-- An archive with the file. -/
def smallArchive : File where
  bytes := (smallHeader 1 8 1 5 3 2 ++ ([0x61] ++ [0]) ++ [] ++ [1, 2, 3] ++ [0]) ++
    ((smallHeader 0 0 0 0 0 0xB ++ (cpioTrailer ++ [0]) ++ [0, 0, 0] ++ [] ++ []) ++ [])
  length_lt := by decide +kernel

theorem isArchive_smallArchive : IsArchive smallArchive.bytes [smallMember] := by
  have hfields : ∀ ds : List (Fin 16), List.Forall₂ Spells (ds.map smallField) (ds.map Fin.val) :=
    fun ds => List.forall₂_map_left_iff.2 (List.forall₂_map_right_iff.2
      (List.forall₂_same.2 fun d _ => spells_smallField d))
  refine .member ⟨_, [], [0], rfl, ⟨_, 0, 0, 0, 0, 0, rfl, hfields _⟩, ?_, ?_⟩ (by decide)
    (by decide) (.trailer (e := ⟨0, 0, 0, 0, 0, 0, cpioTrailer, []⟩)
      ⟨_, [0, 0, 0], [], rfl, ⟨_, 0, 0, 0, 0, 0, rfl, hfields _⟩, ?_, ?_⟩ rfl rfl)
  all_goals exact ⟨by decide, by decide⟩

theorem cpio_reading_smallArchive :
    (Memory.ofFile 0x1000 smallArchive).Holds 0x1000 smallArchive ∧
      Yields (cpioNextExt (.ofFile 0x1000 smallArchive) 0x1000 smallArchive.size) 0
        [⟨⟨0x106E, 1, 0x1070, 3⟩, 1, 8, 0, 0, 1, 5⟩] := by
  have hm : (Memory.ofFile 0x1000 smallArchive).Holds 0x1000 smallArchive :=
    Memory.ofFile_holds (List.nil_append _).symm rfl (by decide +kernel)
  exact ⟨hm, ((cpio_reading hm).1 _ isArchive_smallArchive).1⟩

end Loader

end Trona
