import Mathlib.Algebra.Order.Ring.Int
import Mathlib.Data.List.Sort
import Mathlib.Data.Prod.Lex

/-! # Sorting by a comparator

  Sorting and the test whether a list is sorted, by a strict comparator as the C++ library takes it.
  A comparator that compares keys in a linear order is all that the rules need.

  The last section is about adding up numbers that are sorted in descending order: the partial sums
  rise first and then fall.
-/

namespace Sorting

open List

variable {α : Type*}

/-- No member comes before the one to its left. -/
def isSorted (lt : α → α → Bool) : List α → Bool
  | a :: b :: rest => !lt b a && isSorted lt (b :: rest)
  | _ => true

/-- Sort by `lt`; members that are equal for `lt` may end up in any order. -/
def sort (lt : α → α → Bool) (l : List α) : List α := l.insertionSort fun a b => lt b a = false

theorem sort_perm (lt : α → α → Bool) (l : List α) : (sort lt l).Perm l := perm_insertionSort _ l

section Keys
variable {κ : Type*} [LinearOrder κ] {lt : α → α → Bool} {key : α → κ}

/-- The comparator compares keys. -/
def ByKey (lt : α → α → Bool) (key : α → κ) : Prop := ∀ a b, lt a b = true ↔ key a < key b

variable (h : ByKey lt key)
include h

theorem ByKey.eq_false_iff {a b : α} : lt b a = false ↔ key a ≤ key b := by
  rw [← not_lt, ← h, Bool.not_eq_true]

theorem ByKey.isSorted_iff (l : List α) :
    isSorted lt l = true ↔ l.Pairwise fun a b => key a ≤ key b := by
  induction l with
  | nil => exact iff_of_true rfl List.Pairwise.nil
  | cons a l ih =>
    rcases l with - | ⟨b, _⟩
    · exact iff_of_true rfl (pairwise_singleton ..)
    · rw [isSorted, Bool.and_eq_true, Bool.not_eq_true', h.eq_false_iff, ih, pairwise_cons (a := a)]
      constructor
      · intro hab
        refine ⟨fun x hx => ?_, hab.2⟩
        rcases mem_cons.mp hx with rfl | hx
        · exact hab.1
        · exact hab.1.trans ((pairwise_cons.mp hab.2).1 x hx)
      · intro hall
        exact ⟨hall.1 b mem_cons_self, hall.2⟩

theorem ByKey.isSorted_sort (l : List α) : isSorted lt (sort lt l) = true := by
  rw [h.isSorted_iff]
  have htotal : Std.Total fun a b : α => lt b a = false := by
    constructor
    intro a b
    rw [h.eq_false_iff, h.eq_false_iff]
    exact le_total ..
  have htrans : IsTrans α fun a b => lt b a = false := by
    constructor
    intro a b c hab hbc
    rw [h.eq_false_iff] at hab hbc ⊢
    exact hab.trans hbc
  apply (pairwise_insertionSort (fun a b : α => lt b a = false) l).imp
  intro a b hab
  exact h.eq_false_iff.mp hab

theorem ByKey.sort_of_isSorted {l : List α} (hl : isSorted lt l = true) :
    sort lt l = l := by
  apply Pairwise.insertionSort_eq
  exact ((h.isSorted_iff l).mp hl).imp h.eq_false_iff.mpr

theorem ByKey.sort_eq_of_perm {l l' : List α} (hperm : l.Perm l')
    (hties : ∀ a ∈ l, ∀ b ∈ l, key a = key b → a = b) : sort lt l = sort lt l' := by
  have hsorted : ∀ l, (sort lt l).Pairwise fun a b => key a ≤ key b :=
    fun l => (h.isSorted_iff _).mp (h.isSorted_sort l)
  refine Perm.eq_of_pairwise ?_ (hsorted l) (hsorted l') ?_
  · intro a b ha hb hab hba
    rw [(sort_perm ..).mem_iff] at ha hb
    exact hties a ha b (hperm.mem_iff.mpr hb) (le_antisymm hab hba)
  · exact ((sort_perm lt l).trans hperm).trans (sort_perm lt l').symm

end Keys

/-! ### Partial sums -/

/-- All partial sums from `total` on lie between `lo` and `hi`. -/
def Stays (lo hi : Int) : Int → List Int → Prop
  | _, [] => True
  | total, a :: rest => lo ≤ total + a ∧ total + a ≤ hi ∧ Stays lo hi (total + a) rest

theorem sum_nonneg_of_map_max (l : List Int) : 0 ≤ (l.map (max 0)).sum := by
  induction l with
  | nil => exact le_rfl
  | cons a l ih =>
    rw [map_cons, sum_cons]
    omega

theorem sums_of_nonpos {l : List Int} (h : ∀ a ∈ l, a ≤ 0) : l.sum ≤ 0 ∧ (l.map (max 0)).sum = 0 := by
  induction l with
  | nil => exact ⟨le_rfl, rfl⟩
  | cons a l ih =>
    have ha := h a mem_cons_self
    obtain ⟨hsum, hmax⟩ := ih fun b hb => h b (mem_cons_of_mem a hb)
    rw [map_cons, sum_cons, sum_cons]
    omega

/-- In descending order the highest partial sum is that of the positive numbers, and the lowest is
    the first or the last. -/
theorem stays_iff_of_descending {lo hi total : Int} {l : List Int} (hl : l.Pairwise (· ≥ ·))
    (hlo : lo ≤ total) (hhi : total ≤ hi) :
    Stays lo hi total l ↔ total + (l.map (max 0)).sum ≤ hi ∧ lo ≤ total + l.sum := by
  induction l generalizing total with
  | nil =>
    apply iff_of_true trivial
    simp [hlo, hhi]
  | cons a l ih =>
    obtain ⟨hle, hl⟩ := pairwise_cons.mp hl
    have hpos := sum_nonneg_of_map_max l
    rw [map_cons, sum_cons, sum_cons]
    by_cases ha : 0 ≤ a
    · constructor
      · intro h
        have := (ih hl h.1 h.2.1).mp h.2.2
        omega
      · intro h
        refine ⟨by omega, by omega, (ih hl (by omega) (by omega)).mpr (by omega)⟩
    · obtain ⟨hsum, hmax⟩ := sums_of_nonpos fun b hb => (hle b hb).le.trans (by omega)
      constructor
      · intro h
        have := (ih hl h.1 h.2.1).mp h.2.2
        omega
      · intro h
        refine ⟨by omega, by omega, (ih hl (by omega) (by omega)).mpr (by omega)⟩

end Sorting
