import Defcoin.Framework.Forest
import Defcoin.Framework.SlidingMedian

/-! # The tree of block headers

  `CBlockIndex` entries, reached through pointers of any type. Beside its parent an entry points to
  an older ancestor, which `GetAncestor` uses to go back in fewer steps.
-/

namespace Defcoin

open SlidingMedian Forest

/-! ### Entries -/

/-- The members of the `CBlockIndex` behind each pointer. -/
structure BlockMap (ι : Type) where
  pprev : ι → Option ι
  pskip : ι → Option ι
  nHeight : ι → Nat
  nVersion : ι → BitVec 32
  nTime : ι → Nat

/-- `InvertLowestOne` -/
def invertLowestOne (n : Nat) : Nat := n &&& (n - 1)

/-- `GetSkipHeight` -/
def getSkipHeight (height : Nat) : Nat :=
  if height < 2 then 0
  else if height &&& 1 ≠ 0 then invertLowestOne (invertLowestOne (height - 1)) + 1
  else invertLowestOne height

namespace BlockMap
variable {ι : Type} (m : BlockMap ι)

/-- The loop of `GetAncestor`; `none` if the assertion on `pprev` fails. -/
def ancestorWalk (height : Nat) : (fuel heightWalk : Nat) → ι → Option ι
  | 0, heightWalk, pindexWalk => if heightWalk > height then none else some pindexWalk
  | fuel + 1, heightWalk, pindexWalk =>
    if heightWalk > height then
      let heightSkip := getSkipHeight heightWalk
      let heightSkipPrev := getSkipHeight (heightWalk - 1)
      -- follow pskip unless pprev's pskip is better than pskip's pprev
      if (m.pskip pindexWalk).isSome ∧ (heightSkip = height ∨
          (heightSkip > height ∧ ¬(heightSkipPrev + 2 < heightSkip ∧ heightSkipPrev ≥ height))) then
        (m.pskip pindexWalk).bind (ancestorWalk height fuel heightSkip)
      else (m.pprev pindexWalk).bind (ancestorWalk height fuel (heightWalk - 1))
    else some pindexWalk

/-- `CBlockIndex::GetAncestor` -/
def getAncestor (p : ι) (height : Int) : Option ι :=
  if height > m.nHeight p ∨ height < 0 then none
  else m.ancestorWalk height.toNat (m.nHeight p) (m.nHeight p) p

/-- The times that `GetMedianTimePast` collects. -/
def timesBack : Nat → Option ι → List Nat
  | 0, _ => []
  | _ + 1, none => []
  | n + 1, some p => m.nTime p :: timesBack n (m.pprev p)

/-- `CBlockIndex::GetMedianTimePast` -/
def getMedianTimePast (p : ι) : Nat := median (m.timesBack 11 (some p))

/-- The check of `ContextualCheckBlockHeader` that refuses a header as "time-too-old". -/
def timeTooOld (nTime : Nat) (pindexPrev : ι) : Bool := decide (nTime ≤ m.getMedianTimePast pindexPrev)

end BlockMap

/-! ### Trees -/

/-- A tree of headers: heights count from the first block, skip pointers are those of `BuildSkip`,
    and every header is younger than the median time of its parent. -/
structure BlockTree (ι : Type) extends BlockMap ι where
  height_genesis : ∀ p, pprev p = none → nHeight p = 0
  height_child : ∀ p q, pprev p = some q → nHeight p = nHeight q + 1
  buildSkip : ∀ p, pskip p =
    (pprev p).bind fun q => toBlockMap.getAncestor q (getSkipHeight (nHeight p))
  median_time : ∀ p q, pprev p = some q → toBlockMap.getMedianTimePast q < nTime p

/-- Heights and skip pointers are as in a tree, whatever the times are. An entry that is not in the
    index, such as that of a block to be checked, has no skip pointer. -/
structure BlockMap.SkipTree {ι : Type} (m : BlockMap ι) : Prop where
  height_genesis : ∀ p, m.pprev p = none → m.nHeight p = 0
  height_child : ∀ p q, m.pprev p = some q → m.nHeight p = m.nHeight q + 1
  buildSkip : ∀ p q, m.pskip p = some q →
    ∃ r, m.pprev p = some r ∧ m.getAncestor r (getSkipHeight (m.nHeight p)) = some q

theorem getSkipHeight_lt {height : Nat} (h : 0 < height) : getSkipHeight height < height := by
  have hle : ∀ n, invertLowestOne n ≤ n - 1 := fun n => Nat.and_le_right
  unfold getSkipHeight
  by_cases hsmall : height < 2
  · rw [if_pos hsmall]
    exact h
  · rw [if_neg hsmall]
    have h1 := hle (height - 1)
    have h2 := hle (invertLowestOne (height - 1))
    have h3 := hle height
    split
    · omega
    · omega

/-! ### GetAncestor -/

namespace BlockMap
variable {ι : Type} {m : BlockMap ι}

theorem getAncestor_neg (m : BlockMap ι) (p : ι) {height : Int} (h : height < 0) :
    m.getAncestor p height = none := by
  unfold getAncestor
  rw [if_pos (Or.inr h)]

namespace SkipTree

def forest (t : m.SkipTree) : Forest ι where
  parent := m.pprev
  height := m.nHeight
  height_root := t.height_genesis
  height_child := t.height_child

/-- The skip pointers of all entries up to a height lead where they should. -/
def SkipsUpTo (t : m.SkipTree) (n : Nat) : Prop :=
  ∀ p q, m.nHeight p ≤ n → m.pskip p = some q →
    ∃ r, m.pprev p = some r ∧ t.forest.ancestor r (getSkipHeight (m.nHeight p)) = some q

variable (t : m.SkipTree)

theorem ancestorWalk_eq {n : Nat} (hskip : t.SkipsUpTo n) (height : Nat) :
    ∀ (fuel : Nat) (p : ι), m.nHeight p ≤ n → height ≤ m.nHeight p → m.nHeight p ≤ height + fuel →
      m.ancestorWalk height fuel (m.nHeight p) p = t.forest.ancestor p height := by
  intro fuel
  induction fuel with
  | zero =>
    intro p _ hle hfuel
    have heq : m.nHeight p = height := by omega
    rw [ancestorWalk, if_neg (by omega)]
    exact (ancestor_of_height heq).symm
  | succ fuel ih =>
    intro p hp hle hfuel
    rw [ancestorWalk]
    by_cases hdone : m.nHeight p > height
    · rw [if_pos hdone]
      cases hprev : m.pprev p with
      | none =>
        have := t.height_genesis p hprev
        omega
      | some q =>
        have hq := t.height_child p q hprev
        have hup := ancestor_parent (F := t.forest) hprev (show height < m.nHeight p from hdone)
        have hlower := getSkipHeight_lt (show 0 < m.nHeight p by omega)
        have hstep : m.ancestorWalk height fuel (m.nHeight p - 1) q = t.forest.ancestor p height := by
          have hbelow : m.nHeight p - 1 = m.nHeight q := by omega
          rw [hbelow, ih q (by omega) (by omega) (by omega), hup]
        dsimp only
        cases hpskip : m.pskip p with
        | none =>
          rw [if_neg (by simp)]
          exact hstep
        | some r =>
          obtain ⟨_, hq', hr⟩ := hskip p r hp hpskip
          cases hprev.symm.trans hq'
          have hheight : m.nHeight r = getSkipHeight (m.nHeight p) := (height_of_ancestor hr).1
          split
          · next hfollow =>
            have hge : height ≤ getSkipHeight (m.nHeight p) := by omega
            show m.ancestorWalk height fuel (getSkipHeight (m.nHeight p)) r = _
            rw [← hheight, ih r (by omega) (by omega) (by omega), hup]
            exact ancestor_trans hr hge
          · exact hstep
    · rw [if_neg hdone]
      exact (ancestor_of_height (show m.nHeight p = height by omega)).symm

theorem getAncestor_of_skips {n : Nat} (hskip : t.SkipsUpTo n) {p : ι} (hp : m.nHeight p ≤ n)
    (height : Nat) : m.getAncestor p height = t.forest.ancestor p height := by
  unfold getAncestor
  by_cases hle : height ≤ m.nHeight p
  · rw [if_neg (by omega)]
    exact t.ancestorWalk_eq hskip height _ p hp hle (by omega)
  · rw [if_pos (by omega)]
    exact (ancestor_eq_none (show m.nHeight p < height by omega)).symm

theorem skipsUpTo (n : Nat) : t.SkipsUpTo n := by
  induction n with
  | zero =>
    intro p q hp hq
    obtain ⟨r, hr, -⟩ := t.buildSkip p q hq
    have := t.height_child p r hr
    omega
  | succ n ih =>
    intro p q hp hq
    obtain ⟨r, hr, hq⟩ := t.buildSkip p q hq
    have hheight := t.height_child p r hr
    exact ⟨r, hr, (t.getAncestor_of_skips ih (by omega) _).symm.trans hq⟩

/-- **GetAncestor** gives the ancestor at a height, if there is one. -/
theorem getAncestor_eq (p : ι) (height : Nat) : m.getAncestor p height = t.forest.ancestor p height :=
  t.getAncestor_of_skips (t.skipsUpTo (m.nHeight p)) (Nat.le_refl _) height

end SkipTree

/-! ### Median times -/

variable (m)

theorem length_timesBack (n : Nat) (p : Option ι) : (m.timesBack n p).length ≤ n := by
  induction n generalizing p with
  | zero => exact Nat.le_refl 0
  | succ n ih =>
    cases p with
    | none => exact Nat.zero_le _
    | some p =>
      rw [BlockMap.timesBack, List.length_cons]
      have := ih (m.pprev p)
      omega

/-- The window of a child is that of its parent with the child's time in front. -/
theorem timesBack_take {k n : Nat} (h : k ≤ n) (p : Option ι) :
    (m.timesBack n p).take k = m.timesBack k p := by
  induction n generalizing k p with
  | zero =>
    obtain rfl : k = 0 := by omega
    rfl
  | succ n ih =>
    cases k with
    | zero => rfl
    | succ k =>
      cases p with
      | none => rfl
      | some p =>
        rw [BlockMap.timesBack, List.take_succ_cons, ih (by omega)]
        rfl

variable {m}

theorem median_child {p q : ι} (h : m.pprev p = some q) (htime : m.getMedianTimePast q < m.nTime p) :
    m.getMedianTimePast q ≤ m.getMedianTimePast p := by
  have hwindow : m.timesBack 11 (some p) = (m.nTime p :: m.timesBack 11 (some q)).take 11 := by
    rw [List.take_succ_cons, timesBack_take m (by omega)]
    show m.nTime p :: m.timesBack 10 (m.pprev p) = _
    rw [h]
  unfold getMedianTimePast
  rw [hwindow]
  have hne : m.timesBack 11 (some q) ≠ [] := List.cons_ne_nil _ _
  exact median_slide hne (length_timesBack m 11 (some q)) htime

/-- **Median times** never fall from a block to its child, if no header is too old. -/
theorem getMedianTimePast_parent_le (m : BlockMap ι)
    (hcheck : ∀ p q, m.pprev p = some q → m.timeTooOld (m.nTime p) q = false) {p q : ι}
    (h : m.pprev p = some q) : m.getMedianTimePast q ≤ m.getMedianTimePast p := by
  have hyoung := hcheck p q h
  rw [timeTooOld, decide_eq_false_iff_not, Nat.not_le] at hyoung
  exact median_child h hyoung

/-- A chain of 14 blocks in which block 12 is dated before its parent. -/
def backdated : BlockMap (Fin 14) where
  pprev p := if h : 0 < p.val then some ⟨p.val - 1, by omega⟩ else none
  pskip _ := none
  nHeight p := p.val
  nVersion _ := 1
  nTime p := if p.val = 12 then 90 else 10 * p.val

theorem getMedianTimePast_parent_le_backdated : backdated.getMedianTimePast 12 ≤ backdated.getMedianTimePast 13 :=
  getMedianTimePast_parent_le backdated (by decide +kernel) rfl

end BlockMap

namespace BlockTree
variable {ι : Type} (t : BlockTree ι)

theorem skipTree : t.toBlockMap.SkipTree := ⟨t.height_genesis, t.height_child, fun p _ hq =>
  Option.bind_eq_some_iff.mp ((t.buildSkip p).symm.trans hq)⟩

def forest : Forest ι where
  parent := t.pprev
  height := t.nHeight
  height_root := t.height_genesis
  height_child := t.height_child

variable {t}

/-- **GetAncestor** gives the ancestor at a height, if there is one. -/
theorem getAncestor_eq (p : ι) (height : Nat) : t.getAncestor p height = t.forest.ancestor p height :=
  t.skipTree.getAncestor_eq p height

theorem median_mono {p q : ι} {height : Nat} (h : t.forest.ancestor p height = some q) :
    t.getMedianTimePast q ≤ t.getMedianTimePast p :=
  branch_rule (F := t.forest) (R := fun q p => t.getMedianTimePast q ≤ t.getMedianTimePast p)
    (fun _ => Nat.le_refl _) (fun _ _ _ => Nat.le_trans)
    (fun p q hq => BlockMap.median_child hq (t.median_time p q hq)) h

/-! ### Branches -/

variable (t)

def nextHeight : Option ι → Nat
  | none => 0
  | some p => t.nHeight p + 1

/-- On the branch that ends with `p`, the parent of the block at height `h`. -/
def blockBefore (p : Option ι) (h : Nat) : Option ι := p.bind fun p => t.getAncestor p ((h : Int) - 1)

variable {t}

theorem blockBefore_zero (p : Option ι) : t.blockBefore p 0 = none := by
  cases p with
  | none => rfl
  | some p =>
    have hneg : ((0 : Nat) : Int) - 1 < 0 := by omega
    exact t.getAncestor_neg p hneg

theorem blockBefore_succ (p : ι) (h : Nat) :
    t.blockBefore (some p) (h + 1) = t.forest.ancestor p h := by
  rw [← getAncestor_eq]
  show t.getAncestor p ((h + 1 : Nat) - 1) = _
  congr 1
  omega

theorem blockBefore_self (p : Option ι) : t.blockBefore p (t.nextHeight p) = p := by
  cases p with
  | none => rfl
  | some p => exact (blockBefore_succ p _).trans (ancestor_self p)

theorem nextHeight_blockBefore {p : Option ι} {h : Nat} (hle : h ≤ t.nextHeight p) :
    t.nextHeight (t.blockBefore p h) = h := by
  cases h with
  | zero => rw [blockBefore_zero]; rfl
  | succ h =>
    cases p with
    | none => exact absurd hle (Nat.not_succ_le_zero h)
    | some p =>
      obtain ⟨q, hq, hheight⟩ := exists_ancestor (F := t.forest)
        (Nat.le_of_succ_le_succ hle)
      rw [blockBefore_succ, hq]
      exact congrArg (· + 1) hheight

theorem blockBefore_blockBefore {p : Option ι} {h h' : Nat} (hle : h ≤ t.nextHeight p) (hle' : h' ≤ h) :
    t.blockBefore (t.blockBefore p h) h' = t.blockBefore p h' := by
  cases h' with
  | zero => rw [blockBefore_zero, blockBefore_zero]
  | succ h' =>
    obtain ⟨k, rfl⟩ : ∃ k, h = k + 1 := ⟨h - 1, by omega⟩
    cases p with
    | none => exact absurd hle (Nat.not_succ_le_zero k)
    | some p =>
      obtain ⟨q, hq, _⟩ := exists_ancestor (F := t.forest)
        (Nat.le_of_succ_le_succ hle)
      rw [blockBefore_succ, hq, blockBefore_succ, blockBefore_succ]
      exact ancestor_trans hq (by omega)

theorem exists_blockBefore {p : Option ι} {h : Nat} (hle : h + 1 ≤ t.nextHeight p) :
    ∃ b, t.blockBefore p (h + 1) = some b ∧ t.nHeight b = h ∧ t.pprev b = t.blockBefore p h := by
  cases hb : t.blockBefore p (h + 1) with
  | none =>
    have := nextHeight_blockBefore hle
    rw [hb] at this
    cases this
  | some b =>
    have hheight := nextHeight_blockBefore hle
    rw [hb] at hheight
    have hb' : t.nHeight b = h := Nat.succ.inj hheight
    refine ⟨b, rfl, hb', ?_⟩
    rw [← blockBefore_blockBefore hle (Nat.le_succ h), hb]
    cases hprev : t.pprev b with
    | none =>
      have := t.height_genesis b hprev
      obtain rfl : h = 0 := by omega
      rw [blockBefore_zero]
    | some q =>
      have hq := t.height_child b q hprev
      obtain ⟨k, rfl⟩ : ∃ k, h = k + 1 := ⟨h - 1, by omega⟩
      rw [blockBefore_succ, ancestor_parent hprev (show k < t.nHeight b by omega)]
      exact (ancestor_of_height (show t.nHeight q = k by omega)).symm

theorem median_blockBefore {p : Option ι} {h h' : Nat} {b b' : ι} (hle : h ≤ h')
    (hle' : h' ≤ t.nextHeight p) (hb : t.blockBefore p h = some b) (hb' : t.blockBefore p h' = some b') :
    t.nHeight b ≤ t.nHeight b' ∧ t.getMedianTimePast b ≤ t.getMedianTimePast b' := by
  obtain ⟨k, rfl⟩ : ∃ k, h = k + 1 := by
    cases h with
    | zero => rw [blockBefore_zero] at hb; cases hb
    | succ k => exact ⟨k, rfl⟩
  have hbranch : t.forest.ancestor b' k = some b := by
    rw [← blockBefore_succ, ← hb', blockBefore_blockBefore hle' hle, hb]
  obtain ⟨hheight, hbelow⟩ := height_of_ancestor hbranch
  refine ⟨?_, median_mono hbranch⟩
  have hb : t.nHeight b = k := hheight
  rw [hb]
  exact hbelow

end BlockTree

end Defcoin
