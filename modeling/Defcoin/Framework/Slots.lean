import Defcoin.Framework.Outcome
import Mathlib.Data.List.Nodup

/-! # Slots

  A vector of slots, some of them filled.
-/

namespace Slots

open Outcome List

/-! ### Access -/

section Access
variable {ε α : Type} {e : ε}

/-- The element at a position, or `e` outside the vector. -/
def getAt (e : ε) (v : List α) (i : Nat) : Except ε α :=
  match v[i]? with
  | some a => .ok a
  | none => .error e

/-- The vector with another element at a position, or `e` outside it. -/
def setAt (e : ε) (v : List α) (i : Nat) (a : α) : Except ε (List α) :=
  if i < v.length then .ok (v.set i a) else .error e

theorem getAt_eq_ok {v : List α} {i : Nat} {a : α} : getAt e v i = .ok a ↔ v[i]? = some a := by
  unfold getAt
  cases v[i]? with
  | none => exact iff_of_false nofun nofun
  | some b => exact ⟨fun h => congrArg some (Except.ok.inj h), fun h => congrArg Except.ok (Option.some.inj h)⟩

theorem setAt_of_lt {v : List α} {i : Nat} (h : i < v.length) (a : α) : setAt e v i a = .ok (v.set i a) :=
  if_pos h

theorem getAt_of_lt {v : List α} {i : Nat} (h : i < v.length) : Succeeds (getAt e v i) fun a => v[i]? = some a :=
  ⟨v[i], getAt_eq_ok.mpr (getElem?_eq_getElem h), getElem?_eq_getElem h⟩

end Access

/-! ### Empty slots -/

section Empties
variable {α : Type} {slots : List (Option α)} {p k : Nat}

/-- The empty slots, counted from `p`. -/
def empties : Nat → List (Option α) → List Nat
  | _, [] => []
  | p, none :: slots => p :: empties (p + 1) slots
  | p, some _ :: slots => empties (p + 1) slots

theorem empties_cons (p : Nat) (slot : Option α) (slots : List (Option α)) :
    empties p (slot :: slots) = if slot.isSome then empties (p + 1) slots else p :: empties (p + 1) slots := by
  cases slot with
  | none => rfl
  | some a => rfl

theorem empties_replicate_none (p n : Nat) : (empties p (replicate n (none : Option α))).length = n := by
  induction n generalizing p with
  | zero => rfl
  | succ n ih => rw [replicate_succ, empties, length_cons, ih]

theorem length_empties_set (h : slots[k]? = some none) (a : α) :
    (empties p (slots.set k (some a))).length + 1 = (empties p slots).length := by
  induction slots generalizing k p with
  | nil => cases h
  | cons slot slots ih =>
    cases k with
    | zero =>
      cases h
      rfl
    | succ k =>
      rw [set_cons_succ, empties_cons, empties_cons]
      have hrest := @ih (p + 1) k h
      split
      · exact hrest
      · rw [length_cons, length_cons, hrest]

theorem empties_eq_filter (p : Nat) (slots : List (Option α)) :
    empties p slots = (range' p slots.length).filter fun k => slots[k - p]?.any Option.isNone := by
  induction slots generalizing p with
  | nil => rfl
  | cons slot slots ih =>
    have hrest : (range' (p + 1) slots.length).filter (fun k => (slot :: slots)[k - p]?.any Option.isNone) =
        (range' (p + 1) slots.length).filter fun k => slots[k - (p + 1)]?.any Option.isNone := by
      apply filter_congr
      intro k hk
      have hle := (mem_range'_1.mp hk).1
      have hsub : k - p = (k - (p + 1)) + 1 := by omega
      rw [hsub, getElem?_cons_succ]
    rw [length_cons, range'_succ, filter_cons, Nat.sub_self, hrest, empties_cons, ih]
    cases slot with
    | none => rfl
    | some a => rfl

theorem empties_drop_of_filled {a : α} (h : slots[p]? = some (some a)) :
    empties p (slots.drop p) = empties (p + 1) (slots.drop (p + 1)) := by
  obtain ⟨hlt, heq⟩ := List.getElem?_eq_some_iff.mp h
  rw [drop_eq_getElem_cons hlt, heq, empties]

theorem empties_drop_of_empty (h : slots[p]? = some none) :
    empties p (slots.drop p) = p :: empties (p + 1) (slots.drop (p + 1)) := by
  obtain ⟨hlt, heq⟩ := List.getElem?_eq_some_iff.mp h
  rw [drop_eq_getElem_cons hlt, heq, empties]

theorem lt_of_empties_drop (h : empties p (slots.drop p) ≠ []) : p < slots.length := by
  by_contra hge
  apply h
  rw [drop_eq_nil_of_le (Nat.not_lt.mp hge), empties]

theorem exists_of_all_filled (h : ∀ k < slots.length, ∃ a, slots[k]? = some (some a)) :
    ∃ as : List α, slots = as.map some := by
  induction slots with
  | nil => exact ⟨[], rfl⟩
  | cons slot slots ih =>
    obtain ⟨a, ha⟩ := h 0 (Nat.succ_pos _)
    obtain ⟨as, has⟩ := ih fun k hk => h (k + 1) (Nat.succ_lt_succ hk)
    cases ha
    exact ⟨a :: as, by rw [has, map_cons]⟩

/-! ### Marks -/

/-- How many of some positions are marked. -/
def countMarked (ks : List Nat) (marks : List Bool) : Nat := ks.countP fun k => marks[k]? == some true

theorem countMarked_set {ks : List Nat} {marks : List Bool} (hnodup : ks.Nodup) (hk : k ∈ ks)
    (hlt : k < marks.length) (hnew : marks[k]? ≠ some true) :
    countMarked ks (marks.set k true) = countMarked ks marks + 1 := by
  unfold countMarked
  induction ks with
  | nil => cases hk
  | cons j ks ih =>
    rw [nodup_cons] at hnodup
    rw [countP_cons, countP_cons]
    rcases mem_cons.mp hk with rfl | hk
    · have hrest : ks.countP (fun j => (marks.set k true)[j]? == some true) =
          ks.countP fun j => marks[j]? == some true := by
        apply countP_congr
        intro j hj
        have hne : k ≠ j := fun heq => hnodup.1 (heq ▸ hj)
        rw [getElem?_set_ne hne]
      rw [hrest, getElem?_set_self hlt]
      simp [hnew]
    · have hne : k ≠ j := fun heq => hnodup.1 (heq ▸ hk)
      rw [ih hnodup.2 hk, getElem?_set_ne hne]
      omega

theorem countMarked_eq_length {ks : List Nat} {marks : List Bool} :
    countMarked ks marks = ks.length ↔ ∀ k ∈ ks, marks[k]? = some true := by
  rw [countMarked]
  simp

end Empties

/-! ### Gaps -/

/-- The positions that gaps lead to, from `start` on. -/
def positions : Nat → List Nat → List Nat
  | _, [] => []
  | start, gap :: gaps => (start + gap) :: positions (start + gap + 1) gaps

theorem length_positions (start : Nat) (gaps : List Nat) : (positions start gaps).length = gaps.length := by
  induction gaps generalizing start with
  | nil => rfl
  | cons gap gaps ih => rw [positions, length_cons, length_cons, ih]

theorem le_of_mem_positions {start q : Nat} {gaps : List Nat} (h : q ∈ positions start gaps) : start ≤ q := by
  induction gaps generalizing start with
  | nil => cases h
  | cons gap gaps ih =>
    rcases mem_cons.mp h with rfl | h
    · omega
    · have := ih h
      omega

end Slots
