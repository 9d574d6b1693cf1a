import Defcoin.Mempool.Pool

/-! # The walk to the ancestors

  `CalculateMemPoolAncestors` with limits, for an entry whose parents are looked for. The walk stops
  at the first limit that is exceeded by what it has seen so far. A walk that ends has seen all the
  ancestors, and they are within the limits.
-/

namespace Defcoin.Mempool

open List OrderedSet Uint256 Outcome

/-! ### The walk -/

/-- The limits that are passed to `CalculateMemPoolAncestors`. -/
structure AncestorLimits where
  limitAncestorCount : Nat
  limitAncestorSize : Nat
  limitDescendantCount : Nat
  limitDescendantSize : Nat

/-- How `CalculateMemPoolAncestors` fails. -/
inductive LimitError where
  | parents (limit : Nat)
  | descendantSize (hash : Uint256) (limit : Nat)
  | descendants (hash : Uint256) (limit : Nat)
  | ancestorSize (limit : Nat)
  | ancestors (limit : Nat)
  deriving DecidableEq

namespace CTxMemPool

/-- `GetIter` of an input. -/
def getIter (p : CTxMemPool) (input : OutputIndex) : Option Uint256 :=
  (p.parentOf input).filter fun hash => p.contains hash

def withDescendants (p : CTxMemPool) (hash : Uint256) : DescendantTotals :=
  ((p.entry hash).map CTxMemPoolEntry.withDescendants).getD 0

/-- The parents of an entry are staged, which is not in the pool yet. -/
def stageInputs (p : CTxMemPool) (limits : AncestorLimits) :
    List OutputIndex → List Uint256 → Except LimitError (List Uint256)
  | [], staged => .ok staged
  | input :: rest, staged =>
    match p.getIter input with
    | none => p.stageInputs limits rest staged
    | some hash =>
      let staged := insertEntry hash staged
      if staged.length + 1 > limits.limitAncestorCount then .error (.parents limits.limitAncestorCount)
      else p.stageInputs limits rest staged

/-- The parents of an ancestor are staged, as far as they are new. -/
def stageParents (limits : AncestorLimits) (setAncestors : List Uint256) :
    List Uint256 → List Uint256 → Except LimitError (List Uint256)
  | [], staged => .ok staged
  | parent :: rest, staged =>
    let staged := if parent ∈ setAncestors then staged else insertEntry parent staged
    if staged.length + setAncestors.length + 1 > limits.limitAncestorCount then
      .error (.ancestors limits.limitAncestorCount)
    else stageParents limits setAncestors rest staged

def checkAncestor (p : CTxMemPool) (limits : AncestorLimits) (txSize : Nat) (hash : Uint256)
    (totalSizeWithAncestors : Int) : Except LimitError Unit :=
  if p.withDescendants hash ⟨.size, CTxMemPoolEntry.size_ne_sigOps⟩ + txSize > limits.limitDescendantSize then
    .error (.descendantSize hash limits.limitDescendantSize)
  else if p.withDescendants hash ⟨.count, CTxMemPoolEntry.count_ne_sigOps⟩ + 1 > limits.limitDescendantCount then
    .error (.descendants hash limits.limitDescendantCount)
  else if totalSizeWithAncestors > limits.limitAncestorSize then
    .error (.ancestorSize limits.limitAncestorSize)
  else .ok ()

/-- The loop over what is staged. Each round takes one entry of the pool, so there are at most as
    many as entries. -/
def ancestorLoop (p : CTxMemPool) (limits : AncestorLimits) (txSize : Nat) :
    Nat → List Uint256 → List Uint256 → Int → Except LimitError (List Uint256)
  | 0, _, setAncestors, _ => .ok setAncestors
  | _ + 1, [], setAncestors, _ => .ok setAncestors
  | fuel + 1, stage :: staged, setAncestors, total => do
    let setAncestors := insertEntry stage setAncestors
    let total := total + p.own stage .size
    p.checkAncestor limits txSize stage total
    let staged ← stageParents limits setAncestors (p.parents stage) staged
    p.ancestorLoop limits txSize fuel staged setAncestors total

/-- `CalculateMemPoolAncestors`, with `fSearchForParents` and an empty `setAncestors`. -/
def calculateLimitedAncestors (p : CTxMemPool) (limits : AncestorLimits) (e : CTxMemPoolEntry) :
    Except LimitError (List Uint256) := do
  let staged ← p.stageInputs limits (getInputs e.tx) []
  p.ancestorLoop limits e.txSize p.size staged [] e.txSize

/-! ### Partial sums -/

variable {p : CTxMemPool} {limits : AncestorLimits} {txSize : Nat} {stage done : List Uint256} {total : Int}

/-- An ancestor allows one more descendant. -/
def HasRoom (p : CTxMemPool) (limits : AncestorLimits) (txSize : Nat) (hash : Uint256) : Prop :=
  p.withDescendants hash ⟨.size, CTxMemPoolEntry.size_ne_sigOps⟩ + txSize ≤ limits.limitDescendantSize ∧
    p.withDescendants hash ⟨.count, CTxMemPoolEntry.count_ne_sigOps⟩ + 1 ≤ limits.limitDescendantCount

/-- A list of ancestors that is within the limits. -/
structure Fits (p : CTxMemPool) (limits : AncestorLimits) (txSize : Nat) (set : List Uint256) : Prop where
  room : ∀ a ∈ set, p.HasRoom limits txSize a
  size : set ≠ [] → txSize + (set.map fun a => p.own a .size).sum ≤ limits.limitAncestorSize
  count : set ≠ [] → set.length + 1 ≤ limits.limitAncestorCount

structure Walking (p : CTxMemPool) (txSize : Nat) (stage done : List Uint256) (total : Int) : Prop where
  stage_nodup : stage.Nodup
  done_nodup : done.Nodup
  disjoint : ∀ a ∈ stage, a ∉ done
  total_eq : total = txSize + (done.map fun a => p.own a .size).sum

variable {hash : Uint256} {r set staged : List Uint256}

theorem checkAncestor_eq_ok_iff : p.checkAncestor limits txSize hash total = .ok () ↔
      p.HasRoom limits txSize hash ∧ total ≤ limits.limitAncestorSize := by
  unfold checkAncestor HasRoom
  split_ifs with hsize hcount htotal
  · simp only [false_iff]
    omega
  · simp only [false_iff]
    omega
  · simp only [false_iff]
    omega
  · simp only [true_iff]
    omega

/-- What is staged only grows, so that the last check decides. -/
theorem stageParents_eq_ok_iff {parents : List Uint256}
    (h : staged.length + done.length + 1 ≤ limits.limitAncestorCount) :
    stageParents limits done parents staged = .ok r ↔
      r = insertUnless memcmpKey (fun y => decide (y ∈ done)) parents staged ∧
        r.length + done.length + 1 ≤ limits.limitAncestorCount := by
  induction parents generalizing staged with
  | nil =>
    simp only [stageParents, Except.ok.injEq]
    constructor
    · intro heq
      subst heq
      exact ⟨rfl, h⟩
    · intro hr
      exact hr.1.symm
  | cons parent rest ih =>
    have hstep : insertUnless memcmpKey (fun y => decide (y ∈ done)) (parent :: rest) staged =
        insertUnless memcmpKey (fun y => decide (y ∈ done)) rest
          (if parent ∈ done then staged else insertEntry parent staged) := by
      simp only [insertUnless, decide_eq_true_eq]
      rfl
    rw [stageParents, hstep]
    by_cases hlimit : (if parent ∈ done then staged else insertEntry parent staged).length + done.length + 1 >
        limits.limitAncestorCount
    · rw [if_pos hlimit]
      simp only [reduceCtorEq, false_iff]
      intro hr
      obtain ⟨heq, hlength⟩ := hr
      have hgrow : (if parent ∈ done then staged else insertEntry parent staged).length ≤ r.length := by
        rw [heq]
        exact length_le_insertUnless memcmpKey
      omega
    · rw [if_neg hlimit]
      exact ih (by omega)

def parentsInPool (p : CTxMemPool) (tx : CTransaction) : List Uint256 :=
  ((getInputs tx).filterMap p.getIter).foldl (fun set hash => insertEntry hash set) []

theorem stageInputs_eq_ok_iff {inputs : List OutputIndex}
    (h : staged ≠ [] → staged.length + 1 ≤ limits.limitAncestorCount) :
    p.stageInputs limits inputs staged = .ok r ↔
      r = (inputs.filterMap p.getIter).foldl (fun set hash => insertEntry hash set) staged ∧
        (r ≠ [] → r.length + 1 ≤ limits.limitAncestorCount) := by
  induction inputs generalizing staged with
  | nil =>
    simp only [stageInputs, Except.ok.injEq]
    constructor
    · intro heq
      subst heq
      exact ⟨rfl, h⟩
    · intro hr
      exact hr.1.symm
  | cons input rest ih =>
    rw [stageInputs]
    cases hparent : p.getIter input with
    | none =>
      rw [filterMap_cons_none hparent]
      exact ih h
    | some hash =>
      rw [filterMap_cons_some hparent, foldl_cons]
      dsimp only
      by_cases hlimit : (insertEntry hash staged).length + 1 > limits.limitAncestorCount
      · rw [if_pos hlimit]
        simp only [reduceCtorEq, false_iff]
        intro hr
        obtain ⟨heq, hlength⟩ := hr
        have hgrow : (insertEntry hash staged).length ≤ r.length := by
          rw [heq]
          exact length_le_insertAll memcmpKey
        have hmem : hash ∈ r := by
          rw [heq]
          exact (mem_insertAll _).mpr (Or.inl ((mem_insert _).mpr (Or.inl rfl)))
        have hfits := hlength (ne_nil_of_mem hmem)
        omega
      · rw [if_neg hlimit]
        exact ih (by omega)

theorem Walking.round (h : p.Walking txSize (hash :: stage) done total) : p.Walking txSize
      (insertUnless memcmpKey (fun y => decide (y ∈ insertEntry hash done)) (p.parents hash)
        stage) (insertEntry hash done) (total + p.own hash .size) := by
  have hnew : hash ∉ done := h.disjoint hash mem_cons_self
  obtain ⟨hout, hstage⟩ := nodup_cons.mp h.stage_nodup
  constructor
  · exact nodup_insertUnless _ hstage
  · exact nodup_insert _ h.done_nodup
  · intro a ha hdone
    rcases (mem_insertUnless _).mp ha with hstaged | ⟨-, hskip⟩
    · rcases (mem_insert _).mp hdone with rfl | hdone
      · exact hout hstaged
      · exact h.disjoint a (mem_cons_of_mem _ hstaged) hdone
    · exact of_decide_eq_false hskip hdone
  · have hsum : ((insertEntry hash done).map fun a => p.own a .size).sum =
        p.own hash .size + (done.map fun a => p.own a .size).sum := by
      have hperm : (insertEntry hash done).Perm (hash :: done) := perm_insert _ hnew
      rw [(hperm.map _).sum_eq, map_cons, sum_cons]
    rw [hsum, h.total_eq]
    ring

/-- **Soundness**: a walk that ends has found the closure, and that is within the limits. -/
theorem fits_of_ancestorLoop (fuel : Nat) (stage done : List Uint256) (total : Int)
    (hwalk : p.Walking txSize stage done total) (hfits : p.Fits limits txSize done)
    (hcount : stage ≠ [] → stage.length + done.length + 1 ≤ limits.limitAncestorCount)
    (hloop : p.ancestorLoop limits txSize fuel stage done total = .ok r) :
    r = closure memcmpKey p.parents fuel stage done ∧ p.Fits limits txSize r := by
  induction fuel generalizing stage done total with
  | zero =>
    cases hloop
    exact ⟨rfl, hfits⟩
  | succ fuel ih =>
    cases stage with
    | nil =>
      cases hloop
      exact ⟨rfl, hfits⟩
    | cons hash stage =>
      obtain ⟨⟨⟩, hcheck, hloop⟩ := bind_eq_ok.mp hloop
      obtain ⟨_, hstaged, hloop⟩ := bind_eq_ok.mp hloop
      obtain ⟨hroom, htotal⟩ := checkAncestor_eq_ok_iff.mp hcheck
      have hnew : hash ∉ done := hwalk.disjoint hash mem_cons_self
      have hlength : (insertEntry hash done).length = done.length + 1 := length_insert _ hnew
      -- what has been seen is as much as before, one entry moved
      have hseen : stage.length + (insertEntry hash done).length + 1 ≤ limits.limitAncestorCount := by
        have hbefore := hcount (cons_ne_nil _ _)
        rw [length_cons] at hbefore
        omega
      obtain ⟨rfl, hstaged⟩ := (stageParents_eq_ok_iff hseen).mp hstaged
      have hround := hwalk.round
      apply ih _ _ _ hround _ (fun _ => hstaged) hloop
      constructor
      · intro a ha
        rcases (mem_insert _).mp ha with rfl | ha
        · exact hroom
        · exact hfits.room a ha
      · intro _
        rw [← hround.total_eq]
        exact htotal
      · omega

theorem nodup_parentsInPool (tx : CTransaction) : (p.parentsInPool tx).Nodup :=
  nodup_insertAll _ nodup_nil

theorem walking_parentsInPool (e : CTxMemPoolEntry) :
    p.Walking e.txSize (p.parentsInPool e.tx) [] e.txSize :=
  ⟨nodup_parentsInPool e.tx, nodup_nil, by simp, by simp⟩

def searchAncestors (p : CTxMemPool) (tx : CTransaction) : List Uint256 :=
  closure memcmpKey p.parents p.size (p.parentsInPool tx) []

theorem calculateLimitedAncestors_eq_ok {e : CTxMemPoolEntry} (h : p.calculateLimitedAncestors limits e = .ok set) :
    set = p.searchAncestors e.tx ∧ p.Fits limits e.txSize set := by
  obtain ⟨_, hstaged, hloop⟩ := bind_eq_ok.mp h
  obtain ⟨rfl, hcount⟩ := (stageInputs_eq_ok_iff (by simp)).mp hstaged
  exact fits_of_ancestorLoop p.size _ _ _ (walking_parentsInPool e) ⟨by simp, by simp, by simp⟩ hcount hloop

end CTxMemPool

end Defcoin.Mempool
