import Mathlib.Data.List.Nodup
import Mathlib.Order.Nat

/-!
# A search over a growing list

A list is scanned from some place on, and what each value leads to is appended unless the list
has it. So the list is at once the set of what was found and the queue of what is to be visited
(`scan`).

What the scan finds is closed under the steps of the search (`mem_scan_of_mem`), it stays in every
set that is (`scan_stays`), and it is found once (`nodup_scan`). The order is the breadth-first
one: level by level (`scan_eq_levels`).
-/

namespace Trona

universe u

variable {α : Type u} [DecidableEq α]

/-- Append a value unless the list has it. -/
def addNew (seen : List α) (a : α) : List α := if a ∈ seen then seen else seen ++ [a]

/-- Append the values of a list that are new, one after the other. -/
def addAll (seen l : List α) : List α := l.foldl addNew seen

/-- Scan the list from place `i` on, and append what each of its values leads to. -/
def scan (next : α → List α) : (fuel i : ℕ) → (seen : List α) → List α
  | 0, _, seen => seen
  | fuel + 1, i, seen =>
    match seen[i]? with
    | none => seen
    | some a => scan next fuel (i + 1) (addAll seen (next a))

/-- The list after some rounds, each of which appends what the last level leads to. -/
def levels (next : α → List α) : (rounds : ℕ) → (seen level : List α) → List α
  | 0, seen, _ => seen
  | rounds + 1, seen, level =>
    let all := addAll seen (level.flatMap next)
    levels next rounds all (all.drop seen.length)

variable {next : α → List α} {seen l : List α} {a : α} {fuel i rounds : ℕ}

/-! ## Appending what is new -/

@[simp]
theorem addAll_nil : addAll seen [] = seen := rfl

@[simp]
theorem addAll_cons : addAll seen (a :: l) = addAll (addNew seen a) l := rfl

theorem addAll_append {l' : List α} : addAll seen (l ++ l') = addAll (addAll seen l) l' :=
  List.foldl_append

theorem mem_addNew {b : α} : b ∈ addNew seen a ↔ b ∈ seen ∨ b = a := by
  rw [addNew]
  split
  next ha => exact ⟨.inl, fun h => h.elim id fun h => h ▸ ha⟩
  next => rw [List.mem_append, List.mem_singleton]

theorem mem_addAll {b : α} : b ∈ addAll seen l ↔ b ∈ seen ∨ b ∈ l := by
  induction l generalizing seen with
  | nil => simp
  | cons a l ih => rw [addAll_cons, ih, mem_addNew, List.mem_cons, or_assoc]

/-- Only values of the list are appended. -/
theorem exists_addAll : ∃ t, addAll seen l = seen ++ t ∧ t ⊆ l := by
  induction l generalizing seen with
  | nil => exact ⟨[], (List.append_nil _).symm, List.nil_subset _⟩
  | cons a l ih =>
    obtain ⟨t, ht, hsub⟩ := @ih (addNew seen a)
    rw [addAll_cons, ht, addNew]
    split
    · exact ⟨t, rfl, List.subset_cons_of_subset a hsub⟩
    · exact ⟨a :: t, List.append_assoc .., List.cons_subset_cons a hsub⟩

theorem isPrefix_addAll : seen <+: addAll seen l := by
  obtain ⟨t, ht, -⟩ := @exists_addAll _ _ seen l
  exact ⟨t, ht.symm⟩

theorem nodup_addAll (h : seen.Nodup) : (addAll seen l).Nodup := by
  induction l generalizing seen with
  | nil => exact h
  | cons a l ih =>
    refine ih ?_
    rw [addNew]
    split
    next => exact h
    next ha => exact List.nodup_append_comm.1 (List.nodup_cons.2 ⟨ha, h⟩)

/-! ## What a scan finds -/

theorem scan_of_getElem?_eq_none (h : seen[i]? = none) : scan next fuel i seen = seen := by
  cases fuel with
  | zero => rfl
  | succ fuel => rw [scan, h]

theorem scan_of_getElem?_eq_some (h : seen[i]? = some a) :
    scan next (fuel + 1) i seen = scan next fuel (i + 1) (addAll seen (next a)) := by
  rw [scan, h]

theorem isPrefix_scan : seen <+: scan next fuel i seen := by
  induction fuel generalizing i seen with
  | zero => exact List.prefix_refl _
  | succ fuel ih =>
    cases h : seen[i]? with
    | none => exact ⟨[], by rw [List.append_nil, scan_of_getElem?_eq_none h]⟩
    | some a =>
      rw [scan_of_getElem?_eq_some h]
      exact isPrefix_addAll.trans ih

/-- What is found from a place on is the value at this place, and what is found after it. -/
theorem drop_scan (h : seen[i]? = some a) :
    (scan next (fuel + 1) i seen).drop i =
      a :: (scan next fuel (i + 1) (addAll seen (next a))).drop (i + 1) := by
  obtain ⟨hi, hget⟩ := List.getElem?_eq_some_iff.1 h
  have hpre : seen <+: scan next fuel (i + 1) (addAll seen (next a)) :=
    isPrefix_addAll.trans isPrefix_scan
  rw [scan_of_getElem?_eq_some h, List.drop_eq_getElem_cons (hi.trans_le hpre.length_le),
    ← hpre.getElem hi, hget]

/-- Nothing is found twice. -/
theorem nodup_scan (hnodup : seen.Nodup) : (scan next fuel i seen).Nodup := by
  induction fuel generalizing i seen with
  | zero => exact hnodup
  | succ fuel ih =>
    cases h : seen[i]? with
    | none => rwa [scan_of_getElem?_eq_none h]
    | some a =>
      rw [scan_of_getElem?_eq_some h]
      exact ih (nodup_addAll hnodup)

/-- A scan stays in every set that is closed under the steps of the search. -/
theorem scan_stays {S : α → Prop} (hS : ∀ a, S a → ∀ b ∈ next a, S b)
    (hseen : ∀ a ∈ seen.drop i, S a) : ∀ a ∈ (scan next fuel i seen).drop i, S a := by
  induction fuel generalizing i seen with
  | zero => exact hseen
  | succ fuel ih =>
    cases h : seen[i]? with
    | none => rwa [scan_of_getElem?_eq_none h]
    | some a =>
      obtain ⟨hi, hget⟩ := List.getElem?_eq_some_iff.1 h
      have hdrop : seen.drop i = a :: seen.drop (i + 1) := hget ▸ List.drop_eq_getElem_cons hi
      obtain ⟨t, ht, hsub⟩ := @exists_addAll _ _ seen (next a)
      rw [hdrop, List.forall_mem_cons] at hseen
      have hrest : ∀ b ∈ (addAll seen (next a)).drop (i + 1), S b := by
        intro b hb
        rw [ht, List.drop_append_of_le_length hi] at hb
        rcases List.mem_append.1 hb with hb | hb
        · exact hseen.2 b hb
        · exact hS a hseen.1 b (hsub hb)
      rw [drop_scan h, List.forall_mem_cons]
      exact ⟨hseen.1, ih hrest⟩

/-- With fuel for all that is found, what is found is closed under the steps of the search. -/
theorem mem_scan_of_mem (hfuel : (scan next fuel i seen).length ≤ i + fuel) {b : α}
    (ha : a ∈ (scan next fuel i seen).drop i) (hb : b ∈ next a) : b ∈ scan next fuel i seen := by
  induction fuel generalizing i seen with
  | zero =>
    have hlen : seen.length ≤ i := hfuel
    rw [scan, List.drop_eq_nil_of_le hlen] at ha
    cases ha
  | succ fuel ih =>
    cases h : seen[i]? with
    | none =>
      rw [scan_of_getElem?_eq_none h, List.drop_eq_nil_of_le (List.getElem?_eq_none_iff.1 h)] at ha
      cases ha
    | some a' =>
      rw [drop_scan h, List.mem_cons] at ha
      rw [scan_of_getElem?_eq_some h] at hfuel ⊢
      rcases ha with rfl | ha
      · exact isPrefix_scan.subset (mem_addAll.2 (.inr hb))
      · exact ih (by omega) ha

/-! ## Breadth first -/

theorem levels_nil : levels next rounds seen [] = seen := by
  induction rounds with
  | zero => rfl
  | succ rounds ih => rw [levels, List.flatMap_nil, addAll_nil, List.drop_length, ih]

/-- A scan of a part of the list appends what all of it leads to. -/
theorem scan_append {done todo added : List α} :
    scan next (todo.length + fuel) done.length (done ++ todo ++ added) =
      scan next fuel (done.length + todo.length)
        (addAll (done ++ todo ++ added) (todo.flatMap next)) := by
  induction todo generalizing done added with
  | nil => rw [List.flatMap_nil, addAll_nil, List.length_nil, Nat.zero_add, Nat.add_zero]
  | cons a todo ih =>
    have hget : (done ++ a :: todo ++ added)[done.length]? = some a := by simp
    obtain ⟨t, ht, -⟩ := @exists_addAll _ _ (done ++ a :: todo ++ added) (next a)
    have hlist : done ++ a :: todo ++ added ++ t = (done ++ [a]) ++ todo ++ (added ++ t) := by simp
    have hlen : (done ++ [a]).length = done.length + 1 := by simp
    rw [List.length_cons, Nat.add_right_comm, scan_of_getElem?_eq_some hget, ht, hlist, ← hlen, ih,
      List.flatMap_cons, addAll_append, ht, hlist, hlen]
    congr 1
    omega

/-- A scan of some places appends what is there leads to. -/
theorem scan_take {n : ℕ} (hn : i + n ≤ seen.length) :
    scan next (n + fuel) i seen =
      scan next fuel (i + n) (addAll seen (((seen.drop i).take n).flatMap next)) := by
  have hsplit : seen.take i ++ (seen.drop i).take n ++ (seen.drop i).drop n = seen := by
    rw [List.append_assoc, List.take_append_drop, List.take_append_drop]
  have hdone : (seen.take i).length = i := List.length_take_of_le (by omega)
  have htodo : ((seen.drop i).take n).length = n :=
    List.length_take_of_le (by rw [List.length_drop]; omega)
  have happend := @scan_append _ _ next fuel (seen.take i) ((seen.drop i).take n)
    ((seen.drop i).drop n)
  rwa [hsplit, hdone, htodo] at happend

/-- A scan of all that is left of the list is a round. -/
theorem scan_level (hi : i ≤ seen.length) :
    scan next (seen.length - i + fuel) i seen =
      scan next fuel seen.length (addAll seen ((seen.drop i).flatMap next)) := by
  rw [scan_take (by omega), Nat.add_sub_cancel' hi,
    List.take_of_length_le (by rw [List.length_drop])]

theorem isPrefix_levels {level : List α} : seen <+: levels next rounds seen level := by
  induction rounds generalizing seen level with
  | zero => exact List.prefix_refl _
  | succ rounds ih => exact isPrefix_addAll.trans ih

/-- With a round for each step of the scan, a scan finds no more than there is level by level. -/
theorem scan_isPrefix_levels (hrounds : fuel ≤ rounds) :
    scan next fuel i seen <+: levels next rounds seen (seen.drop i) := by
  induction rounds generalizing fuel i seen with
  | zero =>
    obtain rfl := Nat.le_zero.1 hrounds
    exact List.prefix_refl _
  | succ rounds ih =>
    rcases Nat.lt_or_ge i seen.length with hlevel | hlevel
    · rcases Nat.lt_or_ge fuel (seen.length - i) with hless | hmore
      · -- The scan ends within the level.
        have hscan : scan next (fuel + 0) i seen =
            scan next 0 (i + fuel) (addAll seen (((seen.drop i).take fuel).flatMap next)) :=
          scan_take (by omega)
        rw [Nat.add_zero, scan] at hscan
        have hflat : (seen.drop i).flatMap next =
            ((seen.drop i).take fuel).flatMap next ++ ((seen.drop i).drop fuel).flatMap next := by
          rw [← List.flatMap_append, List.take_append_drop]
        rw [hscan, levels, hflat, addAll_append]
        exact isPrefix_addAll.trans isPrefix_levels
      · obtain ⟨fuel', rfl⟩ := Nat.exists_eq_add_of_le hmore
        rw [scan_level hlevel.le]
        exact ih (by omega)
    · rw [scan_of_getElem?_eq_none (List.getElem?_eq_none hlevel)]
      exact isPrefix_levels

/-- With fuel for all that is found, it is found level by level. -/
theorem scan_eq_levels (hrounds : fuel ≤ rounds)
    (hfuel : (scan next fuel i seen).length ≤ i + fuel) :
    scan next fuel i seen = levels next rounds seen (seen.drop i) := by
  induction rounds generalizing fuel i seen with
  | zero =>
    obtain rfl := Nat.le_zero.1 hrounds
    rfl
  | succ rounds ih =>
    rcases Nat.lt_or_ge i seen.length with hlevel | hlevel
    · have hle : seen.length ≤ i + fuel := isPrefix_scan.length_le.trans hfuel
      obtain ⟨fuel', rfl⟩ := Nat.exists_eq_add_of_le (show seen.length - i ≤ fuel by omega)
      rw [scan_level hlevel.le] at hfuel ⊢
      exact ih (by omega) (by omega)
    · -- Nothing is left to scan, and the level is empty.
      rw [List.drop_eq_nil_of_le hlevel, levels_nil]
      exact scan_of_getElem?_eq_none (List.getElem?_eq_none hlevel)

end Trona
