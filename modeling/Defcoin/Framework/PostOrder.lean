import Mathlib.Data.Nat.Bitwise
import Mathlib.Tactic.Ring

/-! # Post-order positions in a forest of perfect binary trees

  Leaves are appended on the right; whenever two trees have the same height they are joined under a
  new node. Nodes are numbered in the order in which they appear, so a forest of `n` leaves occupies
  the positions below `leafPos n`, which depends on the binary digits of `n` only.
-/

namespace PostOrder

open List

/-! ### Binary digits -/

/-- The number of binary digits of `n`. -/
def bitLength (n : Nat) : Nat := if n = 0 then 0 else Nat.log2 n + 1

theorem lt_two_pow_bitLength (n : Nat) : n < 2 ^ bitLength n := by
  unfold bitLength
  split
  · next h => simp [h]
  · exact Nat.lt_log2_self

/-- The number of ones among the `k` low digits. -/
def ones : Nat → Nat → Nat
  | 0, _ => 0
  | k + 1, n => n % 2 + ones k (n / 2)

theorem ones_le (k n : Nat) : ones k n ≤ n := by
  induction k generalizing n with
  | zero => exact Nat.zero_le n
  | succ k ih =>
    have := ih (n / 2)
    simp only [ones]
    omega

theorem ones_eq_of_lt {k m n : Nat} (hk : n < 2 ^ k) (hm : n < 2 ^ m) : ones k n = ones m n := by
  induction k generalizing m n with
  | zero =>
    obtain rfl : n = 0 := by simpa using hk
    exact (Nat.le_zero.mp (ones_le m 0)).symm
  | succ k ih =>
    cases m with
    | zero =>
      obtain rfl : n = 0 := by simpa using hm
      exact Nat.le_zero.mp (ones_le (k + 1) 0)
    | succ m =>
      simp only [ones]
      rw [ih (m := m) (by omega) (by omega)]

theorem ones_two_pow_add {k n : Nat} (hn : n < 2 ^ k) : ones (k + 1) (2 ^ k + n) = ones k n + 1 := by
  induction k generalizing n with
  | zero =>
    obtain rfl : n = 0 := by simpa using hn
    rfl
  | succ k ih =>
    have hdiv : (2 ^ (k + 1) + n) / 2 = 2 ^ k + n / 2 := by
      omega
    rw [ones, hdiv, ih (by omega)]
    simp only [ones]
    omega

section
variable (n : Nat)

/-- The number of ones in binary. -/
def popCount : Nat := ones (bitLength n) n

theorem popCount_eq {k n : Nat} (h : n < 2 ^ k) : popCount n = ones k n :=
  ones_eq_of_lt (lt_two_pow_bitLength n) h

theorem popCount_le : popCount n ≤ n := ones_le _ n

theorem popCount_step : popCount n = n % 2 + popCount (n / 2) := by
  have h := lt_two_pow_bitLength n
  have h1 : n < 2 ^ (bitLength n + 1) := by
    omega
  rw [popCount_eq h1, ones, popCount_eq (k := bitLength n) (by omega)]

/-! ### Positions of leaves -/

/-- The position of the leaf with index `n`: the forest of `n` leaves has as many nodes. -/
def leafPos : Nat := 2 * n - popCount n

theorem leafPos_two_pow_add {k n : Nat} (hn : n < 2 ^ k) :
    leafPos (2 ^ k + n) = leafPos n + (2 ^ (k + 1) - 1) := by
  have hlt : 2 ^ k + n < 2 ^ (k + 1) := by
    omega
  have hle := ones_le k n
  rw [leafPos, leafPos, popCount_eq hlt, popCount_eq hn, ones_two_pow_add hn]
  omega

theorem leafPos_lt_two_pow {k n : Nat} (hn : n < 2 ^ k) : leafPos n + k + 2 ≤ 2 ^ (k + 1) := by
  induction k generalizing n with
  | zero =>
    obtain rfl : n = 0 := by simpa using hn
    decide
  | succ k ih =>
    by_cases hlt : n < 2 ^ k
    · have := ih hlt
      omega
    · obtain ⟨m, rfl⟩ : ∃ m, n = 2 ^ k + m := ⟨n - 2 ^ k, by omega⟩
      have hm : m < 2 ^ k := by
        omega
      have := ih hm
      rw [leafPos_two_pow_add hm]
      omega

theorem leafPos_succ :
    ∃ t, (∀ i < t, n.testBit i = true) ∧ leafPos (n + 1) = leafPos n + t + 1 := by
  induction n using Nat.strong_induction_on with
  | _ n ih =>
    have hstep := popCount_step n
    have hle := popCount_le n
    rcases Nat.mod_two_eq_zero_or_one n with hmod | hmod
    · refine ⟨0, by simp, ?_⟩
      have hnext := popCount_step (n + 1)
      have hdiv : (n + 1) / 2 = n / 2 := by omega
      rw [hdiv] at hnext
      unfold leafPos
      omega
    · obtain ⟨t, ht, heq⟩ := ih (n / 2) (by omega)
      refine ⟨t + 1, ?_, ?_⟩
      · intro i hi
        cases i with
        | zero => simpa [Nat.testBit_zero] using hmod
        | succ i =>
          rw [Nat.testBit_succ]
          exact ht i (by omega)
      · have hnext := popCount_step (n + 1)
        have hdiv : (n + 1) / 2 = n / 2 + 1 := by omega
        rw [hdiv] at hnext
        unfold leafPos at heq ⊢
        omega

theorem leafPos_strictMono : StrictMono leafPos := by
  refine strictMono_nat_of_lt_succ fun n => ?_
  obtain ⟨t, _, h⟩ := leafPos_succ n
  omega

@[simp] theorem leafPos_zero : leafPos 0 = 0 := rfl

/-! ### The greedy walk -/

/-- Walk over the tree sizes `2 ^ k - 1, …, 3, 1`, subtracting each one that fits; the result is
    what remains and the number of leaves of the trees subtracted. -/
def descend : Nat → Nat → Nat × Nat
  | 0, x => (x, 0)
  | k + 1, x =>
    if x ≥ 2 ^ (k + 1) - 1 then
      ((descend k (x - (2 ^ (k + 1) - 1))).1, (descend k (x - (2 ^ (k + 1) - 1))).2 + 2 ^ k)
    else descend k x

/-- The walk finds the height `j` of a node that completes trees of up to `j` levels, and the number
    of leaves before it. -/
theorem descend_leafPos_add {k n j : Nat} (hn : n < 2 ^ k)
    (hj : ∀ i < k, n.testBit i = false → j ≤ i) : descend k (leafPos n + j) = (j, n) := by
  induction k generalizing n with
  | zero =>
    obtain rfl : n = 0 := by simpa using hn
    simp [descend]
  | succ k ih =>
    by_cases hlt : n < 2 ^ k
    · have hbit := Nat.testBit_lt_two_pow hlt
      have hjk := hj k (by omega) hbit
      have hsize := leafPos_lt_two_pow hlt
      rw [descend, if_neg (by omega)]
      exact ih hlt fun i hi => hj i (by omega)
    · obtain ⟨m, rfl⟩ : ∃ m, n = 2 ^ k + m := ⟨n - 2 ^ k, by omega⟩
      have hm : m < 2 ^ k := by
        omega
      have hrest : leafPos (2 ^ k + m) + j - (2 ^ (k + 1) - 1) = leafPos m + j := by
        rw [leafPos_two_pow_add hm]
        omega
      have hih := ih hm fun i hi hbit => hj i (by omega) (by
        rw [Nat.testBit_two_pow_add_gt hi]
        exact hbit)
      rw [descend, if_pos (by rw [leafPos_two_pow_add hm]; omega), hrest, hih]
      rw [Nat.add_comm]

/-- The height of the node at position `p`. -/
def height (p : Nat) : Nat := (descend (bitLength p) p).1

/-- The number of leaves before position `p`. -/
def leafIndex (p : Nat) : Nat := (descend (bitLength p) p).2

theorem le_leafPos : n ≤ leafPos n := by
  have := popCount_le n
  unfold leafPos
  omega

theorem descend_position {n j : Nat} (hj : ∀ i, n.testBit i = false → j ≤ i) :
    descend (bitLength (leafPos n + j)) (leafPos n + j) = (j, n) := by
  have hle := le_leafPos n
  have hlt := lt_two_pow_bitLength (leafPos n + j)
  exact descend_leafPos_add (by omega) fun i _ => hj i

theorem height_leafPos_add {n j : Nat} (hj : ∀ i, n.testBit i = false → j ≤ i) :
    height (leafPos n + j) = j := by
  rw [height, descend_position hj]

@[simp] theorem height_leafPos : height (leafPos n) = 0 :=
  height_leafPos_add (j := 0) fun _ _ => Nat.zero_le _

@[simp] theorem leafIndex_leafPos : leafIndex (leafPos n) = n :=
  congrArg Prod.snd (descend_position (j := 0) fun _ _ => Nat.zero_le _)

end

/-- The nodes between a leaf and the next one have the heights `1, 2, …`. -/
theorem height_parent {n t j : Nat} (ht : ∀ i < t, n.testBit i = true) (hj : j < t) :
    height (leafPos n + j + 1) = j + 1 := by
  rw [Nat.add_assoc]
  refine height_leafPos_add fun i hi => ?_
  by_contra hlt
  rw [ht i (by omega)] at hi
  cases hi

/-! ### Contents -/

section Contents
variable {D H : Type*} (leaf : Nat → D → H) (parent : Nat → H → H → H)

/-- The parents that follow a leaf: while the next position `p` is not a leaf, join the left child,
    which `get` looks up, with the node just made. -/
def parentsFrom (get : Nat → H) : (fuel p : Nat) → H → List H
  | 0, _, _ => []
  | fuel + 1, p, right =>
    if height p = 0 then []
    else
      parent p (get (p - 2 ^ height p)) right ::
        parentsFrom get fuel (p + 1) (parent p (get (p - 2 ^ height p)) right)

variable (get : Nat → H)

/-- The nodes that appending the leaf with index `n` creates. -/
def newNodes (n : Nat) (d : D) : List H :=
  leaf (leafPos n) d :: parentsFrom parent get (n + 2) (leafPos n + 1) (leaf (leafPos n) d)

theorem length_parentsFrom {n t : Nat} (ht : ∀ i < t, n.testBit i = true)
    (hnext : leafPos (n + 1) = leafPos n + t + 1) :
    ∀ (fuel j : Nat) (right : H), j ≤ t → t - j < fuel →
      (parentsFrom parent get fuel (leafPos n + j + 1) right).length = t - j := by
  intro fuel
  induction fuel with
  | zero => intro j right _ hfuel; omega
  | succ fuel ih =>
    intro j right hj hfuel
    rw [parentsFrom]
    rcases Nat.lt_or_eq_of_le hj with hlt | rfl
    · have hnext' : leafPos n + j + 1 + 1 = leafPos n + (j + 1) + 1 := by omega
      rw [height_parent ht hlt, if_neg (by omega), length_cons, hnext',
        ih (j + 1) _ (by omega) (by omega)]
      omega
    · rw [← hnext]
      simp

variable {leaf parent}

theorem length_newNodes (n : Nat) (d : D) :
    leafPos n + (newNodes leaf parent get n d).length = leafPos (n + 1) := by
  obtain ⟨t, ht, hnext⟩ := leafPos_succ n
  have hle := le_leafPos n
  have hub : leafPos (n + 1) ≤ 2 * (n + 1) := by
    unfold leafPos
    omega
  have hlen := length_parentsFrom parent get ht hnext (n + 2) 0 (leaf (leafPos n) d)
    (by omega) (by omega)
  rw [newNodes, length_cons, hlen]
  omega

theorem leftChild_lt {n t j : Nat} (ht : ∀ i < t, n.testBit i = true) (hj : j < t) :
    leafPos n + j + 1 - 2 ^ (j + 1) < leafPos n := by
  have hpow : j + 1 < 2 ^ (j + 1) := Nat.lt_two_pow_self
  have hpos : 0 < leafPos n := by
    have hbit := ht 0 (by omega)
    have hn : n ≠ 0 := by
      rintro rfl
      simp at hbit
    have := le_leafPos n
    omega
  omega

theorem parentsFrom_congr {get get' : Nat → H} {n t : Nat} (ht : ∀ i < t, n.testBit i = true)
    (hnext : leafPos (n + 1) = leafPos n + t + 1) (hget : ∀ p < leafPos n, get p = get' p) :
    ∀ (fuel j : Nat) (right : H), j ≤ t → parentsFrom parent get fuel (leafPos n + j + 1) right =
        parentsFrom parent get' fuel (leafPos n + j + 1) right := by
  intro fuel
  induction fuel with
  | zero => intro j right _; rfl
  | succ fuel ih =>
    intro j right hj
    rw [parentsFrom, parentsFrom]
    rcases Nat.lt_or_eq_of_le hj with hlt | rfl
    · have hnext' : leafPos n + j + 1 + 1 = leafPos n + (j + 1) + 1 := by omega
      have hold := hget _ (leftChild_lt ht hlt)
      rw [height_parent ht hlt, hold, if_neg (by omega), if_neg (by omega), hnext',
        ih (j + 1) _ (by omega)]
    · rw [← hnext, height_leafPos, if_pos rfl, if_pos rfl]

theorem newNodes_congr {get get' : Nat → H} {n : Nat} (hget : ∀ p < leafPos n, get p = get' p)
    (d : D) : newNodes leaf parent get n d = newNodes leaf parent get' n d := by
  obtain ⟨t, ht, hnext⟩ := leafPos_succ n
  exact congrArg _ (parentsFrom_congr ht hnext hget (n + 2) 0 _ (Nat.zero_le t))

variable (parent) in
/-- The same loop over one growing list of all nodes, whose last node is the right child. -/
def growFrom (d₀ : H) : (fuel p : Nat) → List H → List H
  | 0, _, nodes => nodes
  | fuel + 1, p, nodes =>
    if height p = 0 then nodes
    else growFrom d₀ fuel (p + 1)
      (nodes ++ [parent p (nodes.getD (p - 2 ^ height p) d₀) (nodes.getLastD d₀)])

theorem growFrom_eq {d₀ : H} {old : List H} {n t : Nat} (hold : old.length = leafPos n)
    (ht : ∀ i < t, n.testBit i = true) (hnext : leafPos (n + 1) = leafPos n + t + 1) :
    ∀ (fuel j : Nat) (created : List H) (right : H), j ≤ t → created.getLast? = some right →
      growFrom parent d₀ fuel (leafPos n + j + 1) (old ++ created) = old ++ created ++
          parentsFrom parent (fun p => old.getD p d₀) fuel (leafPos n + j + 1) right := by
  intro fuel
  induction fuel with
  | zero =>
    simp [growFrom, parentsFrom]
  | succ fuel ih =>
    intro j created right hj hright
    rw [growFrom, parentsFrom]
    rcases Nat.lt_or_eq_of_le hj with hlt | rfl
    · have hnext' : leafPos n + j + 1 + 1 = leafPos n + (j + 1) + 1 := by omega
      have hleft := leftChild_lt ht hlt
      -- the left child is not among the nodes created for this leaf
      have hget : (old ++ created).getD (leafPos n + j + 1 - 2 ^ (j + 1)) d₀ =
          old.getD (leafPos n + j + 1 - 2 ^ (j + 1)) d₀ := by
        rw [getD_append _ _ _ _ (by omega)]
      have hlast : (old ++ created).getLastD d₀ = right := by
        rw [getLastD_eq_getLast?, getLast?_append, hright]
        rfl
      rw [height_parent ht hlt, hget, hlast, hnext',
        append_assoc, ih (j + 1) _ _ (by omega) getLast?_concat]
      simp
    · rw [← hnext]
      simp

variable (leaf parent)

/-- The nodes of the forest over the leaves `data 0, …, data (n - 1)`; `d₀` stands for positions
    that are not there. -/
def nodesUpTo (d₀ : H) (data : Nat → D) : Nat → List H
  | 0 => []
  | n + 1 =>
    nodesUpTo d₀ data n ++ newNodes leaf parent (fun p => (nodesUpTo d₀ data n).getD p d₀) n (data n)

variable {leaf parent} {d₀ : H}

@[simp] theorem length_nodesUpTo (data : Nat → D) (n : Nat) :
    (nodesUpTo leaf parent d₀ data n).length = leafPos n := by
  induction n with
  | zero => rfl
  | succ n ih => rw [nodesUpTo, length_append, ih, length_newNodes]

theorem take_nodesUpTo (data : Nat → D) {m n : Nat} (h : m ≤ n) :
    (nodesUpTo leaf parent d₀ data n).take (leafPos m) = nodesUpTo leaf parent d₀ data m := by
  induction n with
  | zero =>
    obtain rfl : m = 0 := by omega
    rfl
  | succ n ih =>
    rcases Nat.lt_or_eq_of_le h with hlt | rfl
    · have hle : leafPos m ≤ leafPos n := leafPos_strictMono.monotone (by omega)
      rw [nodesUpTo, take_append_of_le_length (by rw [length_nodesUpTo]; exact hle)]
      exact ih (by omega)
    · exact take_of_length_le (by rw [length_nodesUpTo])

theorem nodesUpTo_congr {data data' : Nat → D} {n : Nat} (h : ∀ i < n, data i = data' i) :
    nodesUpTo leaf parent d₀ data n = nodesUpTo leaf parent d₀ data' n := by
  induction n with
  | zero => rfl
  | succ n ih => rw [nodesUpTo, nodesUpTo, ih fun i hi => h i (by omega), h n (by omega)]

end Contents

end PostOrder
