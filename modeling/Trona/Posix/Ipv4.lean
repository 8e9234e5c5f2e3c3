import Mathlib.Data.List.Basic
import Mathlib.Data.List.Induction
import Mathlib.Data.Nat.Digits.Defs
import Mathlib.Tactic.Ring

/-!
# Numeric addresses

`parse_ipv4_numeric` (`posix/dns.rs`) reads a dotted address in one pass. The state between two
bytes stands for the text that is read: the groups before a dot and the digits after the last one
(`Ipv4Scan.of`). `parseIpv4Numeric_eq_some_iff` says which texts are read.
-/

namespace Trona

namespace Posix

/-- The octets that are stored, the number that is read and how many digits it has. -/
structure Ipv4Scan where
  octets : List ℕ := []
  cur : ℕ := 0
  digits : ℕ := 0

/-- The byte `b'.'`. -/
def dot : UInt8 := 0x2E

/-- The bytes from `b'0'` to `b'9'`. -/
def isDigit (b : UInt8) : Bool := 0x30 ≤ b && b ≤ 0x39

/-- The value of a digit. -/
def digitValue (b : UInt8) : ℕ := (b - 0x30).toNat

/-- One byte is read. -/
def Ipv4Scan.step (s : Ipv4Scan) (b : UInt8) : Option Ipv4Scan :=
  if b = dot then
    if s.digits = 0 ∨ 3 ≤ s.octets.length then none
    else if s.cur > 255 then none
    else some { octets := s.octets ++ [s.cur] }
  else if isDigit b then
    let digits := s.digits + 1
    if digits > 3 then none else some { s with cur := s.cur * 10 + digitValue b, digits := digits }
  else none

/-- The end of the text: the last octet is stored. -/
def Ipv4Scan.finish (s : Ipv4Scan) : Option ℕ :=
  if s.digits = 0 ∨ s.octets.length ≠ 3 ∨ s.cur > 255 then none
  else
    let octet := fun i => (s.octets ++ [s.cur]).getD i 0
    some (octet 0 <<< 24 ||| octet 1 <<< 16 ||| octet 2 <<< 8 ||| octet 3)

def parseIpv4Numeric (s : List UInt8) : Option ℕ := (s.foldlM Ipv4Scan.step {}).bind Ipv4Scan.finish

/-- The number that digits stand for. -/
def decimal (g : List UInt8) : ℕ := Nat.ofDigits 10 (g.reverse.map digitValue)

/-- One to three digits for a number up to 255. -/
structure IsOctet (g : List UInt8) : Prop where
  digits : ∀ b ∈ g, isDigit b
  ne_nil : g ≠ []
  length_le : g.length ≤ 3
  decimal_le : decimal g ≤ 255

/-- The state after the groups `gs`, each with its dot, and the digits `g`. -/
def Ipv4Scan.of (gs : List (List UInt8)) (g : List UInt8) : Ipv4Scan :=
  { octets := gs.map decimal, cur := decimal g, digits := g.length }

variable {gs : List (List UInt8)} {g s : List UInt8} {b : UInt8} {st : Ipv4Scan}

theorem decimal_concat : decimal (g ++ [b]) = decimal g * 10 + digitValue b := by
  simp [decimal, Nat.ofDigits_cons, mul_comm, add_comm]

/-- A byte that is read closes a group or is one more digit. -/
theorem Ipv4Scan.step_of_iff : (Ipv4Scan.of gs g).step b = some st ↔
    (b = dot ∧ g ≠ [] ∧ gs.length < 3 ∧ decimal g ≤ 255 ∧ st = .of (gs ++ [g]) []) ∨
      (isDigit b ∧ g.length < 3 ∧ st = .of gs (g ++ [b])) := by
  have hclose : ⟨gs.map decimal ++ [decimal g], 0, 0⟩ = Ipv4Scan.of (gs ++ [g]) [] := by
    simp [Ipv4Scan.of, decimal]
  have hadd : ⟨gs.map decimal, decimal g * 10 + digitValue b, g.length + 1⟩ =
      Ipv4Scan.of gs (g ++ [b]) := by
    simp [Ipv4Scan.of, decimal_concat]
  have hdot : ¬isDigit dot := by decide
  rw [← hclose, ← hadd]
  simp only [step, Ipv4Scan.of, List.length_eq_zero_iff, List.length_map]
  grind

/-- The bytes of a group are digits of it. -/
theorem Ipv4Scan.foldlM_digits {g' : List UInt8} (hdigits : ∀ b ∈ g', isDigit b)
    (hlen : g.length + g'.length ≤ 3) :
    g'.foldlM step (Ipv4Scan.of gs g) = some (.of gs (g ++ g')) := by
  induction g' generalizing g with
  | nil => simp
  | cons b g' ih =>
    rw [List.forall_mem_cons] at hdigits
    rw [List.length_cons] at hlen
    rw [List.foldlM_cons, step_of_iff.2 (.inr ⟨hdigits.1, by omega, rfl⟩)]
    simpa using ih hdigits.2 (g := g ++ [b]) (by simp; omega)

/-- A group with its dot is one more octet. -/
theorem Ipv4Scan.foldlM_octet (hg : IsOctet g) (hlen : gs.length < 3) :
    (g ++ dot :: s).foldlM step (Ipv4Scan.of gs []) = s.foldlM step (.of (gs ++ [g]) []) := by
  rw [List.foldlM_append, foldlM_digits hg.digits (by simpa using hg.length_le)]
  have hstep := step_of_iff.2 (.inl ⟨rfl, hg.ne_nil, hlen, hg.decimal_le, rfl⟩)
  simp [List.foldlM_cons, hstep]

/-- What is read are groups with their dots and some digits. -/
theorem Ipv4Scan.exists_of_foldlM (h : s.foldlM step {} = some st) :
    ∃ gs g, s = gs.flatMap (· ++ [dot]) ++ g ∧ st = .of gs g ∧ (∀ g ∈ gs, IsOctet g) ∧
      (∀ b ∈ g, isDigit b) ∧ g.length ≤ 3 := by
  induction s using List.reverseRecOn generalizing st with
  | nil => exact ⟨[], [], rfl, (Option.some.inj h).symm, by simp⟩
  | append_singleton s b ih =>
    obtain ⟨st₀, hst₀, hstep⟩ := Option.bind_eq_some_iff.1 (List.foldlM_append.symm.trans h)
    obtain ⟨gs, g, rfl, rfl, hgs, hg, hlen⟩ := ih hst₀
    rw [List.foldlM_cons, Option.bind_eq_bind, Option.bind_eq_some_iff] at hstep
    obtain ⟨st₁, hstep, hst₁⟩ := hstep
    obtain rfl := Option.some.inj hst₁
    obtain ⟨rfl, hne, -, hle, rfl⟩ | ⟨hb, hlt, rfl⟩ := step_of_iff.1 hstep
    · refine ⟨gs ++ [g], [], by simp, rfl, ?_, by simp⟩
      simpa [or_imp, forall_and] using ⟨hgs, hg, hne, hlen, hle⟩
    · refine ⟨gs, g ++ [b], by simp, rfl, hgs, ?_, by simp; omega⟩
      simpa [or_imp, forall_and] using ⟨hg, hb⟩

/-- Octets that are shifted do not overlap. -/
theorem shift_or_eq {a b c d : ℕ} (hb : b ≤ 255) (hc : c ≤ 255) (hd : d ≤ 255) :
    a <<< 24 ||| b <<< 16 ||| c <<< 8 ||| d = a * 2 ^ 24 + b * 2 ^ 16 + c * 2 ^ 8 + d := by
  rw [Nat.or_assoc, Nat.or_assoc, ← Nat.shiftLeft_add_eq_or_of_lt (i := 8) (by omega),
    ← Nat.shiftLeft_add_eq_or_of_lt (i := 16) (by simp only [Nat.shiftLeft_eq]; omega),
    ← Nat.shiftLeft_add_eq_or_of_lt (i := 24) (by simp only [Nat.shiftLeft_eq]; omega)]
  simp only [Nat.shiftLeft_eq]
  ring

/-- A text is read exactly when it is four groups of digits with dots between them, each for a
    number up to 255. The address is made of these numbers. -/
theorem parseIpv4Numeric_eq_some_iff {ip : ℕ} : parseIpv4Numeric s = some ip ↔
    ∃ a b c d, s = a ++ dot :: (b ++ dot :: (c ++ dot :: d)) ∧
      (∀ g ∈ [a, b, c, d], IsOctet g) ∧
      ip = decimal a * 2 ^ 24 + decimal b * 2 ^ 16 + decimal c * 2 ^ 8 + decimal d := by
  rw [parseIpv4Numeric, Option.bind_eq_some_iff]
  constructor
  · rintro ⟨st, hrun, hfinish⟩
    obtain ⟨gs, d, rfl, rfl, hgs, hd, hlen⟩ := Ipv4Scan.exists_of_foldlM hrun
    rw [Ipv4Scan.finish, Option.ite_none_left_eq_some, Ipv4Scan.of] at hfinish
    simp only [List.length_eq_zero_iff, List.length_map, not_or, not_not, not_lt] at hfinish
    obtain ⟨⟨hne, hthree, hle⟩, hip⟩ := hfinish
    obtain ⟨a, b, c, rfl⟩ := List.length_eq_three.1 hthree
    simp only [List.forall_mem_cons] at hgs
    obtain ⟨ha, hb, hc, -⟩ := hgs
    refine ⟨a, b, c, d, by simp, ?_, ?_⟩
    · simpa using ⟨ha, hb, hc, hd, hne, hlen, hle⟩
    · rw [← shift_or_eq hb.decimal_le hc.decimal_le hle]
      exact (Option.some.inj hip).symm
  · rintro ⟨a, b, c, d, rfl, hall, rfl⟩
    simp only [List.forall_mem_cons] at hall
    obtain ⟨ha, hb, hc, hd, -⟩ := hall
    refine ⟨.of [a, b, c] d, ?_, ?_⟩
    · refine (@Ipv4Scan.foldlM_octet [] a _ ha (by simp)).trans ?_
      rw [Ipv4Scan.foldlM_octet hb (by simp), Ipv4Scan.foldlM_octet hc (by simp)]
      exact Ipv4Scan.foldlM_digits hd.digits (by simpa using hd.length_le)
    · rw [← shift_or_eq hb.decimal_le hc.decimal_le hd.decimal_le]
      simp [Ipv4Scan.finish, Ipv4Scan.of, hd.ne_nil, hd.decimal_le]

end Posix

end Trona
