import Trona.Lib.File

/-!
# Memory

The memory of a program that follows pointers: the bytes that can be read, by their
addresses. An address is a word, and one past the last wraps. A structure in memory is
read like one at the start of a file (`Memory.view`); where a whole file is in memory
(`Memory.Holds`), its parts are read as from the file.
-/

namespace Trona

/-- A memory: the byte at an address, if it can be read. -/
abbrev Memory := ℕ → Option UInt8

namespace Memory

variable (m : Memory)

/-- The bytes from an address on, if all of them can be read. -/
def read (a : ℕ) : ℕ → Option (List UInt8)
  | 0 => some []
  | n + 1 => (m (a % 2 ^ 64)).bind fun b => (read (a + 1) n).map (b :: ·)

/-- The bytes from an address on, as a file. -/
def view (a n : ℕ) : Option File :=
  (m.read a n).bind fun bs => if h : bs.length < 2 ^ 63 then some ⟨bs, h⟩ else none

/-- The number spelled by the bytes at an address. -/
def le (a n : ℕ) : Option ℕ := (m.read a n).map leNat

/-- A text is at an address, up to and with the zero byte that ends it. -/
def cstrEq : (s : List UInt8) → (a : ℕ) → Option Bool
  | [], a => (m (a % 2 ^ 64)).map fun b => b == 0
  | c :: s, a => (m (a % 2 ^ 64)).bind fun b => if b = c then cstrEq s (a + 1) else some false

/-- The text at an address, up to the zero byte that ends it, if it has one soon enough. -/
def cstr : (fuel a : ℕ) → Option (List UInt8)
  | 0, _ => none
  | fuel + 1, a => (m (a % 2 ^ 64)).bind fun b =>
      if b = 0 then some [] else (cstr fuel (a + 1)).map (b :: ·)

/-- The bytes of a file are in memory from an address on. -/
def Holds (a : ℕ) (f : File) : Prop := ∀ i < f.size, m ((a + i) % 2 ^ 64) = some (f.byte i)

/-- The memory that has nothing but a file at an address. -/
def ofFile (a : ℕ) (f : File) : Memory := fun b =>
  if a ≤ b ∧ b < a + f.size then some (f.byte (b - a)) else none

/-- The memory after a number is written to the `n` bytes at an address. -/
def writeLe (a n v : ℕ) : Memory := fun b =>
  if wsub b (a % 2 ^ 64) < n then some (wordByte v (wsub b (a % 2 ^ 64))) else m b

variable {m} {a n off : ℕ} {f : File} {bs front : List UInt8}

theorem read_eq_some :
    m.read a n = some bs ↔ bs.length = n ∧ ∀ i < n, m ((a + i) % 2 ^ 64) = bs[i]? := by
  induction n generalizing a bs with
  | zero => simp [read, eq_comm]
  | succ n ih =>
    simp only [read, Option.bind_eq_some_iff, Option.map_eq_some_iff, ih]
    constructor
    · rintro ⟨b, hb, rest, ⟨hlen, hrest⟩, rfl⟩
      refine ⟨by rw [List.length_cons, hlen], fun i hi => ?_⟩
      cases i with
      | zero => simpa using hb
      | succ i =>
        rw [List.getElem?_cons_succ, ← hrest i (by omega), Nat.add_right_comm, Nat.add_assoc]
    · rintro ⟨hlen, hbs⟩
      obtain ⟨b, rest, rfl⟩ := List.exists_cons_of_length_eq_add_one hlen
      refine ⟨b, by simpa using hbs 0 (Nat.succ_pos n), rest, ⟨by simpa using hlen, ?_⟩, rfl⟩
      intro i hi
      rw [Nat.add_right_comm, Nat.add_assoc, hbs (i + 1) (by omega), List.getElem?_cons_succ]

theorem ofFile_holds_self (hlt : a + f.size ≤ 2 ^ 64) : (ofFile a f).Holds a f := by
  intro i hi
  rw [Nat.mod_eq_of_lt (by omega), ofFile, if_pos (by omega), Nat.add_sub_cancel_left]

/-- A file that is the end of another one, which is in memory. -/
theorem ofFile_holds {b : ℕ} {g : File} (hg : g.bytes = front ++ f.bytes)
    (hb : b = a + front.length) (hlt : a + g.size ≤ 2 ^ 64) : (ofFile a g).Holds b f := by
  intro i hi
  have hsize : g.size = front.length + f.size := by
    rw [File.size, hg, List.length_append]
    rfl
  rw [Nat.mod_eq_of_lt (by omega), ofFile, if_pos (by omega), File.byte, hg,
    List.getD_append_right _ _ _ _ (by omega), File.byte]
  congr 2
  omega

/-- Where the bytes of a part of a file are in memory, they are read as from the file. -/
theorem read_file (h : ∀ i < n, m ((a + i) % 2 ^ 64) = some (f.byte (off + i)))
    (hn : off + n ≤ f.size) : m.read a n = some ((f.bytes.drop off).take n) := by
  have hlen : f.bytes.length = f.size := rfl
  refine read_eq_some.2 ⟨?_, fun i hi => ?_⟩
  · rw [List.length_take, List.length_drop]
    omega
  · rw [h i hi, List.getElem?_take_of_lt hi, List.getElem?_drop, File.byte,
      List.getD_eq_getElem?_getD,
      List.getElem?_eq_getElem (show off + i < f.bytes.length by omega), Option.getD_some]

theorem le_file (h : ∀ i < n, m ((a + i) % 2 ^ 64) = some (f.byte (off + i)))
    (hn : off + n ≤ f.size) : m.le a n = some (f.le off n) := by
  rw [Memory.le, read_file h hn, Option.map_some, File.le]

theorem Holds.part (h : m.Holds a f) (hn : off + n ≤ f.size) :
    ∀ i < n, m ((a + off + i) % 2 ^ 64) = some (f.byte (off + i)) := by
  intro i hi
  rw [Nat.add_assoc]
  exact h (off + i) (by omega)

/-- A part of a file in memory is read as from the file. -/
theorem Holds.read (h : m.Holds a f) (hn : off + n ≤ f.size) :
    m.read (a + off) n = some ((f.bytes.drop off).take n) := read_file (h.part hn) hn

/-- Bytes of a file in memory, after others. -/
theorem Holds.read_append {rest : List UInt8} (h : m.Holds a f)
    (hf : f.bytes = front ++ (bs ++ rest)) : m.read (a + front.length) bs.length = some bs := by
  have hsize : f.size = front.length + (bs.length + rest.length) := by
    rw [File.size, hf, List.length_append, List.length_append]
  rw [h.read (by omega), hf, List.drop_left' rfl, List.take_left' rfl]

/-- A number of a file in memory is read as from the file. -/
theorem Holds.le (h : m.Holds a f) (hn : off + n ≤ f.size) :
    m.le (a + off) n = some (f.le off n) := le_file (h.part hn) hn

/-- The number at an address, by its bytes. -/
theorem le_eq_some {b : ℕ → UInt8} (h : ∀ j < n, m ((a + j) % 2 ^ 64) = some (b j)) :
    m.le a n = some (leNat ((List.range n).map b)) := by
  have hread : m.read a n = some ((List.range n).map b) := by
    refine read_eq_some.2 ⟨by simp, fun i hi => ?_⟩
    rw [h i hi, List.getElem?_map, List.getElem?_range hi, Option.map_some]
  rw [Memory.le, hread, Option.map_some]

/-- A number can be read when each of its bytes can. -/
theorem le_isSome_iff :
    (m.le a n).isSome = true ↔ ∀ j < n, (m ((a + j) % 2 ^ 64)).isSome = true := by
  constructor
  · intro h j hj
    rw [le, Option.isSome_map] at h
    obtain ⟨bs, hbs⟩ := Option.isSome_iff_exists.1 h
    obtain ⟨hlen, hbyte⟩ := read_eq_some.1 hbs
    rw [hbyte j hj, List.getElem?_eq_getElem (by omega)]
    rfl
  · intro h
    rw [le_eq_some (b := fun j => (m ((a + j) % 2 ^ 64)).getD 0) fun j hj => ?_]
    · rfl
    · obtain ⟨b, hb⟩ := Option.isSome_iff_exists.1 (h j hj)
      rw [hb, Option.getD_some]

theorem le_lt {v : ℕ} (h : m.le a n = some v) : v < 256 ^ n := by
  obtain ⟨bs, hbs, rfl⟩ := Option.map_eq_some_iff.1 h
  rw [← (read_eq_some.1 hbs).1]
  exact leNat_lt bs

theorem writeLe_inside {v j : ℕ} (hj : j < n) (hn : n ≤ 2 ^ 64) :
    m.writeLe a n v ((a + j) % 2 ^ 64) = some (wordByte v j) := by
  have hdiff : wsub ((a + j) % 2 ^ 64) (a % 2 ^ 64) = j := by
    unfold wsub
    omega
  rw [writeLe, hdiff, if_pos hj]

theorem writeLe_outside {v b : ℕ} (hb : b < 2 ^ 64) (h : ∀ j < n, (a + j) % 2 ^ 64 ≠ b) :
    m.writeLe a n v b = m b := by
  refine if_neg fun hlt => h _ hlt ?_
  unfold wsub
  omega

/-- The first of the bytes that are read. -/
theorem read_take {k : ℕ} (h : m.read a n = some bs) (hk : k ≤ n) :
    m.read a k = some (bs.take k) := by
  obtain ⟨hlen, hbs⟩ := read_eq_some.1 h
  refine read_eq_some.2 ⟨by rw [List.length_take]; omega, fun i hi => ?_⟩
  rw [hbs i (by omega), List.getElem?_take_of_lt hi]

/-- Only the remainder of an address matters. -/
theorem read_mod : m.read (a % 2 ^ 64) n = m.read a n := by
  induction n generalizing a with
  | zero => rfl
  | succ n ih => rw [read, read, Nat.mod_mod, ← ih, Nat.mod_add_mod, ih]

/-- A part of a file in memory, seen as a file. -/
theorem Holds.view (h : m.Holds a f) (hn : off + n ≤ f.size) :
    ∃ v, m.view (a + off) n = some v ∧ v.bytes = (f.bytes.drop off).take n ∧ v.size = n := by
  have hlen : f.bytes.length = f.size := rfl
  have hsize := f.size_lt
  have hview : ((f.bytes.drop off).take n).length = n := by
    rw [List.length_take, List.length_drop]
    omega
  refine ⟨⟨(f.bytes.drop off).take n, by omega⟩, ?_, rfl, hview⟩
  rw [Memory.view, h.read hn, Option.bind_some, dif_pos (by omega)]

/-- What a part of a file spells is what the file spells there. -/
theorem le_view {v : File} {k l : ℕ} (hv : v.bytes = (f.bytes.drop off).take n) (hl : k + l ≤ n) :
    v.le k l = f.le (off + k) l := by
  rw [File.le, File.le, hv, List.drop_take, List.drop_drop, List.take_take,
    Nat.min_eq_left (by omega)]

end Memory

end Trona
