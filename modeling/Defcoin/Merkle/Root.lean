import Mathlib.Data.List.GetD
import Mathlib.Data.List.Nodup
import Mathlib.Tactic.Ring

/-! # Merkle roots (consensus/merkle.cpp, merkleblock.h)

  A block's Merkle root is computed level by level: a level of odd size repeats its last hash. A
  partial Merkle tree computes the same nodes from the top, one position at a time. Both are modelled
  over an arbitrary type of hashes, and the levels of the first list the nodes of the second.
-/

namespace Defcoin.Merkle

open List

/-- The hashes the trees are made of: `Hash(left, right)` and the null value `uint256()`. -/
structure Hasher (H : Type) where
  Hash : H → H → H
  null : H

/-- No two pairs have one hash. -/
def Hasher.Injective {H : Type} (c : Hasher H) : Prop :=
  ∀ l r l' r', c.Hash l r = c.Hash l' r' → l = l' ∧ r = r'

variable {H : Type} (c : Hasher H)

/-! ### The root, level by level -/

/-- `if (hashes.size() & 1) hashes.push_back(hashes.back())`. -/
def padLevel (hashes : List H) : List H :=
  if hashes.length % 2 = 1 then hashes ++ [hashes.getLastD c.null] else hashes

/-- `SHA256D64` over the pairs of a level, and the resize to half. -/
def hashPairs : List H → List H
  | a :: b :: rest => c.Hash a b :: hashPairs rest
  | _ => []

/-- The scan of a level for a pair of equal hashes. -/
def levelMutated [DecidableEq H] : List H → Bool
  | a :: b :: rest => decide (a = b) || levelMutated rest
  | _ => false

/-- The loop of `ComputeMerkleRoot`, with `mutation` as found so far. -/
def computeMerkleLevels [DecidableEq H] : Nat → List H → Bool → List H × Bool
  | 0, hashes, mutation => (hashes, mutation)
  | fuel + 1, hashes, mutation =>
    if hashes.length > 1 then
      computeMerkleLevels fuel (hashPairs c (padLevel c hashes))
        (mutation || levelMutated hashes)
    else (hashes, mutation)

/-- `ComputeMerkleRoot`: the root and `*mutated`. The size of a level bounds the loop. -/
def computeMerkleRoot [DecidableEq H] (hashes : List H) : H × Bool :=
  let levels := computeMerkleLevels c hashes.length hashes false
  (levels.1.headD c.null, levels.2)

/-! ### The nodes, from the top -/

/-- `CalcTreeWidth`. -/
def calcTreeWidth (nTransactions height : Nat) : Nat :=
  (nTransactions + (1 <<< height) - 1) >>> height

/-- `CalcHash`. -/
def calcHash (vTxid : List H) : Nat → Nat → H
  | 0, pos => vTxid.getD pos c.null
  | height + 1, pos =>
    let left := calcHash vTxid height (pos * 2)
    let right :=
      if pos * 2 + 1 < calcTreeWidth vTxid.length height then
        calcHash vTxid height (pos * 2 + 1)
      else left
    c.Hash left right

/-- `while (CalcTreeWidth(nHeight) > 1) nHeight++`, from `height` on. -/
def climb (nTransactions : Nat) : Nat → Nat → Nat
  | 0, height => height
  | fuel + 1, height =>
    if calcTreeWidth nTransactions height > 1 then climb nTransactions fuel (height + 1)
    else height

/-- The height of the tree. Each level at least halves the width, so that the number of transactions
    bounds the loop. -/
def treeHeight (nTransactions : Nat) : Nat := climb nTransactions nTransactions 0

/-! ### Widths -/

theorem calcTreeWidth_eq (n h : Nat) : calcTreeWidth n h = (n + 2 ^ h - 1) / 2 ^ h := by
  rw [calcTreeWidth, Nat.shiftRight_eq_div_pow, Nat.one_shiftLeft]

@[simp] theorem calcTreeWidth_zero (n : Nat) : calcTreeWidth n 0 = n := by
  simp [calcTreeWidth_eq]

theorem lt_calcTreeWidth_iff (n h pos : Nat) : pos < calcTreeWidth n h ↔ pos * 2 ^ h < n := by
  have hpos : 0 < 2 ^ h := Nat.two_pow_pos h
  rw [calcTreeWidth_eq, Nat.lt_div_iff_mul_lt hpos]
  omega

theorem calcTreeWidth_succ (n h : Nat) : calcTreeWidth n (h + 1) = (calcTreeWidth n h + 1) / 2 := by
  -- both sides bound the same positions
  have hiff : ∀ pos, pos < calcTreeWidth n (h + 1) ↔ pos < (calcTreeWidth n h + 1) / 2 := by
    intro pos
    have hchild := lt_calcTreeWidth_iff n h (pos * 2)
    have hpow : pos * 2 * 2 ^ h = pos * 2 ^ (h + 1) := by ring
    rw [lt_calcTreeWidth_iff]
    omega
  have hle := hiff (calcTreeWidth n (h + 1))
  have hge := hiff ((calcTreeWidth n h + 1) / 2)
  omega

theorem calcTreeWidth_pos {n : Nat} (hn : 0 < n) (h : Nat) : 0 < calcTreeWidth n h := by
  rw [lt_calcTreeWidth_iff]
  omega

theorem left_lt_calcTreeWidth {n h pos : Nat} (hpos : pos < calcTreeWidth n (h + 1)) :
    pos * 2 < calcTreeWidth n h := by
  rw [calcTreeWidth_succ] at hpos
  omega

theorem climb_width (n : Nat) : ∀ (fuel h : Nat), calcTreeWidth n h ≤ fuel + 1 →
    calcTreeWidth n (climb n fuel h) ≤ 1 := by
  intro fuel
  induction fuel with
  | zero => intro h hw; exact hw
  | succ fuel ih =>
    intro h hw
    rw [climb]
    split_ifs with hgt
    · apply ih
      rw [calcTreeWidth_succ]
      omega
    · omega

theorem calcTreeWidth_treeHeight {n : Nat} (hn : 0 < n) : calcTreeWidth n (treeHeight n) = 1 := by
  have hle : calcTreeWidth n (treeHeight n) ≤ 1 := climb_width n n 0 (by simp)
  have hpos := calcTreeWidth_pos hn (treeHeight n)
  omega

/-! ### The levels list the nodes -/

@[simp] theorem hashPairs_length : ∀ hashes : List H,
    (hashPairs c hashes).length = hashes.length / 2
  | [] => by simp [hashPairs]
  | [_] => by simp [hashPairs]
  | _ :: _ :: rest => by
    have ih := hashPairs_length rest
    simp only [hashPairs, length_cons, ih]
    omega

theorem hashPairs_getD : ∀ (hashes : List H) (i : Nat), 2 * i + 1 < hashes.length →
    (hashPairs c hashes).getD i c.null =
      c.Hash (hashes.getD (2 * i) c.null) (hashes.getD (2 * i + 1) c.null)
  | [], i, hi => by simp at hi
  | [_], i, hi => by simp at hi
  | _ :: _ :: _, 0, _ => rfl
  | _ :: _ :: rest, i + 1, hi => by
    have hi' : 2 * i + 1 < rest.length := by
      simp only [length_cons] at hi
      omega
    have ih := hashPairs_getD rest i hi'
    simpa [hashPairs, Nat.mul_add] using ih

theorem padLevel_length (hashes : List H) :
    (padLevel c hashes).length = 2 * ((hashes.length + 1) / 2) := by
  unfold padLevel
  split_ifs with hodd
  · simp only [length_append, length_singleton]
    omega
  · omega

theorem padLevel_getD (hashes : List H) (i : Nat) (hi : i < (padLevel c hashes).length) :
    (padLevel c hashes).getD i c.null =
      if i < hashes.length then hashes.getD i c.null else hashes.getD (hashes.length - 1) c.null := by
  rw [padLevel_length] at hi
  unfold padLevel
  split_ifs with hodd hlt hlt
  · exact getD_append _ _ _ _ hlt
  · have hi' : i = hashes.length := by omega
    rw [hi', getD_append_right _ _ _ _ (le_refl _), Nat.sub_self, getD_cons_zero,
      getLastD_eq_getLast?, List.getLast?_eq_getElem?, getD_eq_getElem?_getD]
  · rfl
  · omega

def nodesAt (vTxid : List H) (height : Nat) : List H :=
  (List.range (calcTreeWidth vTxid.length height)).map (calcHash c vTxid height)

@[simp] theorem nodesAt_length (vTxid : List H) (h : Nat) :
    (nodesAt c vTxid h).length = calcTreeWidth vTxid.length h := by
  simp [nodesAt]

theorem nodesAt_getD (vTxid : List H) {h i : Nat} (hi : i < calcTreeWidth vTxid.length h) :
    (nodesAt c vTxid h).getD i c.null = calcHash c vTxid h i := by
  simp [nodesAt, hi]

theorem nodesAt_zero (vTxid : List H) : nodesAt c vTxid 0 = vTxid := by
  apply ext_getElem
  · simp
  · intro i h₁ h₂
    simp [nodesAt, calcHash, h₂]

theorem hashPairs_padLevel_nodesAt (vTxid : List H) (h : Nat) :
    hashPairs c (padLevel c (nodesAt c vTxid h)) = nodesAt c vTxid (h + 1) := by
  have hlen : (hashPairs c (padLevel c (nodesAt c vTxid h))).length =
      (nodesAt c vTxid (h + 1)).length := by
    rw [hashPairs_length, padLevel_length, nodesAt_length, nodesAt_length, calcTreeWidth_succ]
    omega
  apply ext_getElem hlen
  intro i h₁ h₂
  have hwidth : i < calcTreeWidth vTxid.length (h + 1) := by simpa using h₂
  have hleft := left_lt_calcTreeWidth hwidth
  have hpad : (padLevel c (nodesAt c vTxid h)).length =
      2 * calcTreeWidth vTxid.length (h + 1) := by
    rw [padLevel_length, nodesAt_length, calcTreeWidth_succ]
  have hpair := hashPairs_getD c (padLevel c (nodesAt c vTxid h)) i (by omega)
  rw [padLevel_getD c _ _ (by omega), padLevel_getD c _ _ (by omega), nodesAt_length,
    if_pos (by omega), nodesAt_getD c vTxid (by omega)] at hpair
  rw [← getD_eq_getElem _ c.null h₁, ← getD_eq_getElem _ c.null h₂, hpair,
    nodesAt_getD c vTxid hwidth, calcHash, Nat.mul_comm i 2]
  congr 1
  split_ifs with hright
  · exact nodesAt_getD c vTxid hright
  · have hlast : calcTreeWidth vTxid.length h - 1 = 2 * i := by omega
    rw [hlast]
    exact nodesAt_getD c vTxid (by omega)

theorem calcHash_inj {c : Hasher H} (hinj : c.Injective) {vTxid : List H} (hnodup : vTxid.Nodup) :
    ∀ (h : Nat) {p q : Nat}, p < calcTreeWidth vTxid.length h →
      q < calcTreeWidth vTxid.length h → calcHash c vTxid h p = calcHash c vTxid h q → p = q := by
  intro h
  induction h with
  | zero =>
    intro p q hp hq heq
    rw [calcHash, calcHash, getD_eq_getElem _ _ hp, getD_eq_getElem _ _ hq] at heq
    exact (List.Nodup.getElem_inj_iff hnodup).mp heq
  | succ h ih =>
    intro p q hp hq heq
    have hleft := ih (left_lt_calcTreeWidth hp) (left_lt_calcTreeWidth hq) (hinj _ _ _ _ heq).1
    omega

/-! ### The root is the top node -/

variable [DecidableEq H]

theorem computeMerkleLevels_nodesAt (vTxid : List H) : ∀ (fuel h : Nat) (mutation : Bool),
    (computeMerkleLevels c fuel (nodesAt c vTxid h) mutation).1 =
      nodesAt c vTxid (climb vTxid.length fuel h) := by
  intro fuel
  induction fuel with
  | zero => intro h mutation; rfl
  | succ fuel ih =>
    intro h mutation
    rw [computeMerkleLevels, climb, nodesAt_length]
    split_ifs with hgt
    · rw [hashPairs_padLevel_nodesAt]
      exact ih _ _
    · rfl

omit [DecidableEq H] in
theorem nodesAt_treeHeight {vTxid : List H} (hne : vTxid ≠ []) :
    nodesAt c vTxid (treeHeight vTxid.length) = [calcHash c vTxid (treeHeight vTxid.length) 0] := by
  rw [nodesAt, calcTreeWidth_treeHeight (length_pos_iff.mpr hne)]
  rfl

theorem computeMerkleRoot_eq_calcHash {vTxid : List H} (hne : vTxid ≠ []) :
    (computeMerkleRoot c vTxid).1 = calcHash c vTxid (treeHeight vTxid.length) 0 := by
  have hlevels := computeMerkleLevels_nodesAt c vTxid vTxid.length 0 false
  rw [nodesAt_zero, ← treeHeight, nodesAt_treeHeight c hne] at hlevels
  simp only [computeMerkleRoot, hlevels, headD_cons]

/-! ### The root commits to the list -/

theorem neighbours_of_levelMutated : ∀ {hashes : List H}, levelMutated hashes = true →
    ∃ i, 2 * i + 1 < hashes.length ∧ hashes.getD (2 * i) c.null = hashes.getD (2 * i + 1) c.null
  | [], h => by cases h
  | [_], h => by cases h
  | a :: b :: rest, h => by
    rw [levelMutated, Bool.or_eq_true, decide_eq_true_iff] at h
    rcases h with rfl | h
    · exact ⟨0, by simp, rfl⟩
    · obtain ⟨i, hi, heq⟩ := neighbours_of_levelMutated h
      exact ⟨i + 1, by simp only [length_cons]; omega, heq⟩

theorem levelMutated_of_levels (vTxid : List H) : ∀ (fuel h : Nat) (mutation : Bool),
    (computeMerkleLevels c fuel (nodesAt c vTxid h) mutation).2 = true →
      mutation = true ∨ ∃ k, levelMutated (nodesAt c vTxid k) = true := by
  intro fuel
  induction fuel with
  | zero => exact fun h mutation hm => Or.inl hm
  | succ fuel ih =>
    intro h mutation hm
    rw [computeMerkleLevels] at hm
    split_ifs at hm with hgt
    · rw [hashPairs_padLevel_nodesAt] at hm
      rcases ih _ _ hm with hm | hm
      · rw [Bool.or_eq_true] at hm
        exact hm.imp_right fun hm => ⟨h, hm⟩
      · exact Or.inr hm
    · exact Or.inl hm

theorem levels_not_mutated (vTxid : List H) : ∀ (fuel h : Nat) (mutation : Bool),
    (computeMerkleLevels c fuel (nodesAt c vTxid h) mutation).2 = false → mutation = false ∧
      ∀ k, h ≤ k → k < climb vTxid.length fuel h → levelMutated (nodesAt c vTxid k) = false := by
  intro fuel
  induction fuel with
  | zero => exact fun h mutation hm => ⟨hm, fun k hk hk' => absurd hk' (Nat.not_lt.mpr hk)⟩
  | succ fuel ih =>
    intro h mutation hm
    rw [computeMerkleLevels, nodesAt_length] at hm
    rw [climb]
    split_ifs at hm ⊢ with hgt
    · rw [hashPairs_padLevel_nodesAt] at hm
      obtain ⟨hm, hrest⟩ := ih _ _ hm
      rw [Bool.or_eq_false_iff] at hm
      refine ⟨hm.1, fun k hk hk' => ?_⟩
      rcases Nat.eq_or_lt_of_le hk with rfl | hlt
      · exact hm.2
      · exact hrest k hlt hk'
    · exact ⟨hm, fun k hk hk' => absurd hk' (Nat.not_lt.mpr hk)⟩

/-- A level without equal pairs can be read back from the level above it: a pair of equal hashes is
    the repeated last one. -/
theorem exists_pairs : ∀ {hashes : List H}, levelMutated hashes = false → ∃ pairs : List (H × H),
    hashPairs c (padLevel c hashes) = pairs.map (fun p => c.Hash p.1 p.2) ∧
      hashes = pairs.flatMap fun p => if p.1 = p.2 then [p.1] else [p.1, p.2]
  | [], _ => ⟨[], rfl, rfl⟩
  | [a], _ => ⟨[(a, a)], rfl, by simp⟩
  | a :: b :: rest, h => by
    rw [levelMutated, Bool.or_eq_false_iff, decide_eq_false_iff_not] at h
    obtain ⟨pairs, hup, hrest⟩ := exists_pairs h.2
    refine ⟨(a, b) :: pairs, ?_, ?_⟩
    · rw [map_cons, ← hup]
      unfold padLevel
      rw [show (a :: b :: rest).length % 2 = rest.length % 2 from Nat.add_mod_right rest.length 2]
      split_ifs with hodd
      · cases rest with
        | nil => cases hodd
        | cons d rest => rfl
      · rfl
    · rw [flatMap_cons, ← hrest, if_neg h.1]
      rfl

theorem level_inj {c : Hasher H} (hinj : c.Injective) {xs ys : List H} (hx : levelMutated xs = false)
    (hy : levelMutated ys = false) (heq : hashPairs c (padLevel c xs) = hashPairs c (padLevel c ys)) :
    xs = ys := by
  obtain ⟨_, hup, rfl⟩ := exists_pairs c hx
  obtain ⟨_, hup', rfl⟩ := exists_pairs c hy
  rw [hup, hup'] at heq
  rw [map_injective_iff.mpr (fun p q h => Prod.ext_iff.mpr (hinj _ _ _ _ h)) heq]

theorem nodesAt_inj {c : Hasher H} (hinj : c.Injective) {xs ys : List H} {a b : Nat} : ∀ j : Nat,
    (∀ h < a + j, levelMutated (nodesAt c xs h) = false) →
    (∀ h < b + j, levelMutated (nodesAt c ys h) = false) →
    nodesAt c xs (a + j) = nodesAt c ys (b + j) → nodesAt c xs a = nodesAt c ys b := by
  intro j
  induction j with
  | zero => exact fun _ _ heq => heq
  | succ j ih =>
    intro hx hy heq
    rw [← Nat.add_assoc, ← Nat.add_assoc, ← hashPairs_padLevel_nodesAt, ← hashPairs_padLevel_nodesAt] at heq
    exact ih (fun h hh => hx h (by omega)) (fun h hh => hy h (by omega))
      (level_inj hinj (hx _ (by omega)) (hy _ (by omega)) heq)

theorem eq_of_root_eq {c : Hasher H} (hinj : c.Injective) {xs ys : List H} (hxs : xs ≠ []) (hys : ys ≠ [])
    (hleaf : ∀ leaf ∈ xs, ∀ l r, c.Hash l r ≠ leaf)
    (hroot : (computeMerkleRoot c xs).1 = (computeMerkleRoot c ys).1)
    (hx : (computeMerkleRoot c xs).2 = false) (hy : (computeMerkleRoot c ys).2 = false)
    (hle : treeHeight xs.length ≤ treeHeight ys.length) : xs = ys := by
  have hclean : ∀ {v : List H}, (computeMerkleRoot c v).2 = false →
      ∀ h < treeHeight v.length, levelMutated (nodesAt c v h) = false := by
    intro v hv h hh
    exact (levels_not_mutated c v _ 0 false (by rw [nodesAt_zero]; exact hv)).2 h (Nat.zero_le h) hh
  obtain ⟨d, hd⟩ := Nat.exists_eq_add_of_le' hle
  rw [computeMerkleRoot_eq_calcHash c hxs, computeMerkleRoot_eq_calcHash c hys] at hroot
  have hlevel : nodesAt c xs 0 = nodesAt c ys d := by
    apply nodesAt_inj hinj (treeHeight xs.length)
    · rw [Nat.zero_add]
      exact hclean hx
    · rw [← hd]
      exact hclean hy
    · rw [Nat.zero_add, ← hd, nodesAt_treeHeight c hxs, nodesAt_treeHeight c hys, hroot]
  rw [nodesAt_zero] at hlevel
  cases d with
  | zero => rw [hlevel, nodesAt_zero]
  | succ d =>
    -- a node above the leaves is the hash of a pair
    have hmem : calcHash c ys (d + 1) 0 ∈ xs := by
      rw [hlevel]
      exact mem_map.mpr ⟨0, mem_range.mpr (calcTreeWidth_pos (length_pos_iff.mpr hys) _), rfl⟩
    exact absurd rfl (hleaf _ hmem _ _)

/-- **Merkle root commitment.** No two non-empty lists that are not reported as mutated have one root.
    A list that is reported has a level with two equal neighbours. -/
theorem computeMerkleRoot_commits : (c.Injective → ∀ xs ys : List H, xs ≠ [] → ys ≠ [] →
      (∀ leaf ∈ xs ++ ys, ∀ l r, c.Hash l r ≠ leaf) →
      (computeMerkleRoot c xs).1 = (computeMerkleRoot c ys).1 →
      (computeMerkleRoot c xs).2 = false → (computeMerkleRoot c ys).2 = false → xs = ys) ∧
    ∀ xs : List H, (computeMerkleRoot c xs).2 = true →
      ∃ height i, 2 * i + 1 < calcTreeWidth xs.length height ∧
        calcHash c xs height (2 * i) = calcHash c xs height (2 * i + 1) := by
  constructor
  · intro hinj xs ys hxs hys hleaf hroot hx hy
    rcases le_total (treeHeight xs.length) (treeHeight ys.length) with hle | hle
    · exact eq_of_root_eq hinj hxs hys (fun x hm => hleaf x (mem_append_left _ hm)) hroot hx hy hle
    · exact (eq_of_root_eq hinj hys hxs (fun x hm => hleaf x (mem_append_right _ hm)) hroot.symm hy hx hle).symm
  · intro xs hmutated
    rw [← nodesAt_zero c xs] at hmutated
    obtain ⟨h, hm⟩ := (levelMutated_of_levels c xs _ 0 false hmutated).resolve_left Bool.false_ne_true
    obtain ⟨i, hi, heq⟩ := neighbours_of_levelMutated c hm
    rw [nodesAt_length] at hi
    rw [nodesAt_getD c xs (by omega), nodesAt_getD c xs hi] at heq
    exact ⟨h, i, hi, heq⟩

/-- Hashes as the trees they stand for. -/
inductive Node where
  | txid (n : Nat)
  | pair (left right : Node)
  deriving DecidableEq

def nodeHasher : Hasher Node where
  Hash := .pair
  null := .txid 0

theorem nodeHasher_injective : nodeHasher.Injective := by
  intro l r l' r' h
  injection h with hl hr
  exact ⟨hl, hr⟩

/-- Another order has another root; a repeated last txid does not, and is reported. -/
theorem computeMerkleRoot_commits_three :
    (computeMerkleRoot nodeHasher [.txid 1, .txid 2, .txid 3]).1 ≠
      (computeMerkleRoot nodeHasher [.txid 1, .txid 3, .txid 2]).1 ∧
    computeMerkleRoot nodeHasher [.txid 1, .txid 2, .txid 3, .txid 3] =
      ((computeMerkleRoot nodeHasher [.txid 1, .txid 2, .txid 3]).1, true) := by
  refine ⟨fun hroot => ?_, by decide⟩
  have heq := (computeMerkleRoot_commits nodeHasher).1 nodeHasher_injective _ _ (by decide) (by decide)
    (by simp [nodeHasher]) hroot (by decide) (by decide)
  revert heq
  decide

end Defcoin.Merkle
