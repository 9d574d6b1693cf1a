import Mathlib.Data.List.GetD
import Mathlib.Data.List.Sort

/-! # The median of a sliding window

  The upper median of a list of numbers, and why it never falls when the list is a window over a
  sequence whose every new element exceeds the median before it.
-/

namespace SlidingMedian

open List

/-- The element in the middle after sorting, the upper one of two. -/
def median (l : List Nat) : Nat := (l.insertionSort (· ≤ ·)).getD (l.length / 2) 0

theorem le_getElem_iff {α : Type} [LinearOrder α] {s : List α} (hs : s.Pairwise (· ≤ ·)) {k : Nat}
    (hk : k < s.length) (m : α) : m ≤ s[k] ↔ s.countP (· < m) ≤ k := by
  have hsplit := (take_append_drop k s).symm
  have hle : ∀ {i j : Nat} hi (hj : j < s.length), i ≤ j → s[i] ≤ s[j] := by
    intro i j hi hj hij
    rcases Nat.lt_or_eq_of_le hij with hlt | rfl
    · exact pairwise_iff_getElem.mp hs i j hi hj hlt
    · exact le_rfl
  constructor
  · intro hm
    have hrest : (s.drop k).countP (· < m) = 0 := by
      rw [countP_eq_zero]
      intro x hx
      obtain ⟨i, hi, rfl⟩ := getElem_of_mem hx
      rw [length_drop] at hi
      have := hle hk (by omega : k + i < s.length) (by omega)
      simpa using hm.trans this
    rw [hsplit, countP_append]
    have hcount := countP_le_length (p := fun x => decide (x < m)) (l := s.take k)
    rw [length_take] at hcount
    omega
  · intro hcount
    by_contra hlt
    have hall : (s.take (k + 1)).countP (· < m) = (s.take (k + 1)).length := by
      rw [countP_eq_length]
      intro x hx
      obtain ⟨i, hi, rfl⟩ := getElem_of_mem hx
      rw [length_take] at hi
      have := hle (by omega : i < s.length) hk (by omega)
      simpa using this.trans_lt (not_le.mp hlt)
    have htake : (s.take (k + 1)).countP (· < m) ≤ s.countP (· < m) :=
      (take_sublist (k + 1) s).countP_le
    rw [hall, length_take] at htake
    omega

theorem le_median_iff {l : List Nat} (hl : l ≠ []) (m : Nat) :
    m ≤ median l ↔ l.countP (· < m) ≤ l.length / 2 := by
  have hperm := perm_insertionSort (· ≤ ·) l
  have hsorted := pairwise_insertionSort (· ≤ ·) l
  have hpos : 0 < l.length := length_pos_iff.mpr hl
  have hk : l.length / 2 < (l.insertionSort (· ≤ ·)).length := by
    rw [hperm.length_eq]
    omega
  rw [median, getD_eq_getElem _ _ hk, le_getElem_iff hsorted hk, hperm.countP_eq]

/-- **Sliding**: a new element above the median does not lower it, whether or not the oldest element
    leaves the window. -/
theorem median_slide {l : List Nat} (hl : l ≠ []) {n t : Nat} (hn : l.length ≤ n) (ht : median l < t) :
    median l ≤ median ((t :: l).take n) := by
  have hpos : 0 < l.length := length_pos_iff.mpr hl
  have hne : (t :: l).take n ≠ [] := by
    simp
    omega
  have hhalf := (le_median_iff hl (median l)).mp (Nat.le_refl _)
  have hcount : ((t :: l).take n).countP (· < median l) ≤ l.countP (· < median l) := by
    refine ((take_sublist n (t :: l)).countP_le).trans ?_
    rw [countP_cons_of_neg]
    simp only [decide_eq_true_eq]
    omega
  apply (le_median_iff hne (median l)).mpr
  rw [length_take, length_cons]
  omega

end SlidingMedian
