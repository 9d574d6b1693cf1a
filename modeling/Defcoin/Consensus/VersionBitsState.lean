import Defcoin.Consensus.VersionBits

/-! # Deployment states are what the periods of the branch say

  The state of a block by recursion over the periods of its branch, from the first block on and
  without a cache. `GetStateFor` computes it from any cache that earlier calls filled, whatever
  branches these were on.
-/

namespace Defcoin

open BlockTree Nat Option

/-! ### The recursion over periods -/

/-- The order of the states; LOCKED_IN and FAILED exclude each other. -/
def ThresholdState.Precedes (s s' : ThresholdState) : Prop :=
  s = s' ∨ s = .DEFINED ∨ (s = .STARTED ∧ s' ≠ .DEFINED) ∨ (s = .LOCKED_IN ∧ s' = .ACTIVE)

instance (s s' : ThresholdState) : Decidable (s.Precedes s') :=
  inferInstanceAs (Decidable (_ ∨ _ ∨ (_ ∧ _) ∨ (_ ∧ _)))

namespace ThresholdState.Precedes

theorem trans {s₁ s₂ s₃ : ThresholdState} (h : s₁.Precedes s₂) (h' : s₂.Precedes s₃) : s₁.Precedes s₃ := by
  cases s₁ <;> cases s₂ <;> cases s₃ <;> revert h h' <;> decide

theorem antisymm {s s' : ThresholdState} (h : s.Precedes s') (h' : s'.Precedes s) : s = s' := by
  cases s <;> cases s' <;> revert h h' <;> decide

end ThresholdState.Precedes

namespace ThresholdChecker
variable {ι : Type} (c : ThresholdChecker ι) (t : BlockTree ι)

/-- The state after a period that ends with `b` and had `count` signalling blocks. -/
def transition (b : ι) (count : Nat) : ThresholdState → ThresholdState
  | .DEFINED => if c.reachedStart t.toBlockMap b then .STARTED else .DEFINED
  | .STARTED => c.startedNext t.toBlockMap b count
  | .LOCKED_IN => .ACTIVE
  | .FAILED => .FAILED
  | .ACTIVE => .ACTIVE

/-- The signalling blocks among the `n` blocks from height `h` on. -/
def signals (p : Option ι) (h n : Nat) : Nat :=
  (List.range n).countP fun i => (t.blockBefore p (h + i + 1)).any c.condition

/-- The state of the period with a number, on the branch that ends with `p`. -/
def stateOfPeriod (p : Option ι) : Nat → ThresholdState
  | 0 => .DEFINED
  | k + 1 =>
    match t.blockBefore p ((k + 1) * c.nPeriod) with
    | some b => c.transition t b (c.signals t p (k * c.nPeriod) c.nPeriod) (stateOfPeriod p k)
    | none => stateOfPeriod p k

/-- The state of the block after `p` that is not always the same. -/
def periodState (p : Option ι) : ThresholdState := c.stateOfPeriod t p (t.nextHeight p / c.nPeriod)

/-- **The direct recursion**: the state of the block after `p`. -/
def directState (p : Option ι) : ThresholdState :=
  if c.nTimeStart = ALWAYS_ACTIVE then .ACTIVE
  else if c.nTimeStart = NEVER_ACTIVE then .FAILED
  else c.periodState t p

variable {c t}

theorem transition_forward (b : ι) (count : Nat) (s : ThresholdState) :
    s.Precedes (c.transition t b count s) := by
  cases s with
  | DEFINED => exact .inr (.inl rfl)
  | STARTED =>
    refine .inr (.inr (.inl ⟨rfl, ?_⟩))
    show c.startedNext t.toBlockMap b count ≠ .DEFINED
    unfold startedNext
    split
    · decide
    · split
      · split <;> decide
      · decide
  | LOCKED_IN => exact .inr (.inr (.inr ⟨rfl, rfl⟩))
  | ACTIVE => exact .inl rfl
  | FAILED => exact .inl rfl

variable {p : Option ι}

theorem stateOfPeriod_succ {k : Nat} {b : ι} (hb : t.blockBefore p ((k + 1) * c.nPeriod) = some b) :
    c.stateOfPeriod t p (k + 1) =
      c.transition t b (c.signals t p (k * c.nPeriod) c.nPeriod) (c.stateOfPeriod t p k) := by
  rw [stateOfPeriod, hb]

theorem stateOfPeriod_blockBefore {h : Nat} (hle : h ≤ t.nextHeight p) (k : Nat) (hk : k * c.nPeriod ≤ h) :
    c.stateOfPeriod t (t.blockBefore p h) k = c.stateOfPeriod t p k := by
  induction k with
  | zero => rfl
  | succ k ih =>
    have hstep : (k + 1) * c.nPeriod = k * c.nPeriod + c.nPeriod := succ_mul _ _
    have hsignals : c.signals t (t.blockBefore p h) (k * c.nPeriod) c.nPeriod =
        c.signals t p (k * c.nPeriod) c.nPeriod := by
      apply List.countP_congr
      intro i hi
      have hi := List.mem_range.mp hi
      rw [blockBefore_blockBefore hle (by omega)]
    rw [stateOfPeriod, stateOfPeriod, blockBefore_blockBefore hle hk, hsignals, ih (by omega)]

theorem periodState_blockBefore {h : Nat} (hle : h ≤ t.nextHeight p) :
    c.periodState t (t.blockBefore p h) = c.stateOfPeriod t p (h / c.nPeriod) := by
  rw [periodState, nextHeight_blockBefore hle]
  exact stateOfPeriod_blockBefore hle _ (div_mul_le_self h c.nPeriod)

theorem stateOfPeriod_step (p : Option ι) (k : Nat) :
    (c.stateOfPeriod t p k).Precedes (c.stateOfPeriod t p (k + 1)) := by
  cases hb : t.blockBefore p ((k + 1) * c.nPeriod) with
  | none =>
    rw [stateOfPeriod, hb]
    exact .inl rfl
  | some b =>
    rw [stateOfPeriod_succ hb]
    exact transition_forward b _ _

theorem stateOfPeriod_mono (p : Option ι) {k k' : Nat} (h : k ≤ k') :
    (c.stateOfPeriod t p k).Precedes (c.stateOfPeriod t p k') := by
  induction k', h using le_induction with
  | base => exact .inl rfl
  | succ k' _ ih => exact ih.trans (stateOfPeriod_step p k')

theorem reachedStart_mono {h h' : Nat} {b b' : ι} (hle : h ≤ h') (hle' : h' ≤ t.nextHeight p)
    (hb : t.blockBefore p h = some b) (hb' : t.blockBefore p h' = some b')
    (hstart : c.reachedStart t.toBlockMap b = true) : c.reachedStart t.toBlockMap b' = true := by
  obtain ⟨hheight, hmedian⟩ := median_blockBefore hle hle' hb hb'
  unfold reachedStart at hstart ⊢
  split
  · next hbased =>
    rw [if_pos hbased, decide_eq_true_eq] at hstart
    rw [decide_eq_true_eq]
    omega
  · next hbased =>
    rw [if_neg hbased, decide_eq_true_eq] at hstart
    rw [decide_eq_true_eq]
    omega

theorem stateOfPeriod_before {p : ι} (hstart : ¬c.reachedStart t.toBlockMap p = true) (k : Nat)
    (hk : k * c.nPeriod ≤ t.nextHeight (some p)) : c.stateOfPeriod t (some p) k = .DEFINED := by
  induction k with
  | zero => rfl
  | succ k ih =>
    have hstep : (k + 1) * c.nPeriod = k * c.nPeriod + c.nPeriod := succ_mul _ _
    cases hb : t.blockBefore (some p) ((k + 1) * c.nPeriod) with
    | none => rw [stateOfPeriod, hb, ih (by omega)]
    | some b =>
      have hbefore : ¬c.reachedStart t.toBlockMap b = true := fun h =>
        hstart (reachedStart_mono hk (le_refl _) hb (blockBefore_self (some p)) h)
      rw [stateOfPeriod_succ hb, ih (by omega)]
      exact if_neg hbefore

/-! ### One period -/

theorem countLoop_eq (h : Nat) : ∀ (n count : Nat), h + n ≤ t.nextHeight p →
      c.countLoop t.toBlockMap n (t.blockBefore p (h + n)) count = some (count + c.signals t p h n) := by
  intro n
  induction n with
  | zero =>
    intro count _
    rfl
  | succ n ih =>
    intro count hle
    obtain ⟨b, hb, _, hprev⟩ := exists_blockBefore (h := h + n) hle
    have hsignals : c.signals t p h (n + 1) =
        c.signals t p h n + if c.condition b then 1 else 0 := by
      rw [signals, List.range_succ, List.countP_append, List.countP_singleton, hb]
      rfl
    rw [← Nat.add_assoc, hb, countLoop, hprev, ih _ (by omega), hsignals]
    split
    · congr 1
      omega
    · congr 1

def Boundary (c : ThresholdChecker ι) (t : BlockTree ι) (p : Option ι) : Prop :=
  c.nPeriod ∣ t.nextHeight p

theorem ancestor_of_boundary {p : ι} (hp : c.Boundary t (some p)) :
    c.nPeriod ≤ t.nextHeight (some p) ∧ t.getAncestor p (t.nHeight p - c.nPeriod) =
        t.blockBefore (some p) (t.nextHeight (some p) - c.nPeriod) := by
  have hle := le_of_dvd (succ_pos _) hp
  refine ⟨hle, ?_⟩
  show _ = t.getAncestor p ((t.nHeight p + 1 - c.nPeriod : Nat) - 1)
  congr 1
  omega

theorem boundary_blockBefore {h : Nat} (hle : h ≤ t.nextHeight p) (hh : c.nPeriod ∣ h) :
    c.Boundary t (t.blockBefore p h) := by
  unfold Boundary
  rwa [nextHeight_blockBefore hle]

/-- **One period**: the switch gives the state after a boundary block from the state after the
    boundary block before it. -/
theorem stateNext_eq {p : ι} (hp : c.Boundary t (some p)) : c.stateNext t.toBlockMap p
        (c.periodState t (t.blockBefore (some p) (t.nextHeight (some p) - c.nPeriod))) =
      some (c.periodState t (some p)) := by
  obtain ⟨k, hk⟩ := hp
  have hpos := c.period_pos
  cases k with
  | zero => exact absurd hk (Nat.succ_ne_zero _)
  | succ k =>
    have hheight : t.nextHeight (some p) = k * c.nPeriod + c.nPeriod := by
      rw [hk, Nat.mul_comm, Nat.succ_mul]
    have hself : t.blockBefore (some p) ((k + 1) * c.nPeriod) = some p := by
      rw [Nat.mul_comm, ← hk, blockBefore_self]
    have hprev : c.periodState t (t.blockBefore (some p) (t.nextHeight (some p) - c.nPeriod)) =
        c.stateOfPeriod t (some p) k := by
      rw [periodState_blockBefore (Nat.sub_le _ _), hheight, Nat.add_sub_cancel,
        Nat.mul_div_cancel _ hpos]
    have hnext : c.periodState t (some p) =
        c.transition t p (c.signals t (some p) (k * c.nPeriod) c.nPeriod)
          (c.stateOfPeriod t (some p) k) := by
      rw [← stateOfPeriod_succ hself, periodState, hk, Nat.mul_div_cancel_left _ hpos]
    rw [hprev, hnext]
    cases c.stateOfPeriod t (some p) k with
    | STARTED =>
      -- the loop starts at the boundary block and ends with the period
      have hcount := countLoop_eq (c := c) (k * c.nPeriod) c.nPeriod 0
        (Nat.le_of_eq hheight.symm)
      rw [← hheight, blockBefore_self, Nat.zero_add] at hcount
      rw [stateNext, hcount]
      rfl
    | DEFINED => rfl
    | LOCKED_IN => rfl
    | ACTIVE => rfl
    | FAILED => rfl

theorem periodParent_eq (p : ι) : c.periodParent t.toBlockMap p =
      t.blockBefore (some p) (t.nextHeight (some p) / c.nPeriod * c.nPeriod) := by
  have hmod := div_add_mod' (t.nHeight p + 1) c.nPeriod
  show t.getAncestor p _ = t.getAncestor p (((t.nHeight p + 1) / c.nPeriod * c.nPeriod : Nat) - 1)
  congr 1
  omega

theorem bind_periodParent (p : Option ι) : p.bind (c.periodParent t.toBlockMap) =
      t.blockBefore p (t.nextHeight p / c.nPeriod * c.nPeriod) := by
  cases p with
  | none => rfl
  | some p => exact periodParent_eq p

theorem periodState_periodParent (p : Option ι) :
    c.periodState t (t.blockBefore p (t.nextHeight p / c.nPeriod * c.nPeriod)) = c.periodState t p := by
  rw [periodState_blockBefore (Nat.div_mul_le_self _ _), Nat.mul_div_cancel _ c.period_pos]
  rfl

/-! ### The cache -/

variable [DecidableEq ι]

def CacheValid (c : ThresholdChecker ι) (t : BlockTree ι) (cache : ThresholdConditionCache ι) : Prop :=
  ∀ p s, cache.lookup p = some s → s = c.periodState t p

variable {top : Option ι} (p : Option ι) {cache : ThresholdConditionCache ι}

theorem CacheValid.insert (h : c.CacheValid t cache) (p : Option ι) :
    c.CacheValid t (cache.insert p (c.periodState t p)) := by
  intro q s hq
  by_cases hqp : q = p
  · subst hqp
    rw [AList.lookup_insert] at hq
    cases hq
    rfl
  · rw [AList.lookup_insert_ne hqp] at hq
    exact h q s hq

/-- The blocks put aside are the boundary blocks between the first and the last, in order. -/
def Climbs (c : ThresholdChecker ι) (t : BlockTree ι) : Option ι → List ι → Option ι → Prop
  | p, [], top => p = top
  | p, q :: rest, top =>
    c.Boundary t (some q) ∧ p = t.blockBefore (some q) (t.nextHeight (some q) - c.nPeriod) ∧
      Climbs c t (some q) rest top

theorem walkBack_spec (hcache : c.CacheValid t cache) :
    ∀ (fuel : Nat) (p : Option ι) (stack : List ι), t.nextHeight p < fuel → c.Boundary t p →
      c.Climbs t p stack top →
      ∃ p' cache' stack', c.walkBack t.toBlockMap fuel p cache stack = some (p', cache', stack') ∧
        c.CacheValid t cache' ∧ cache'.lookup p' = some (c.periodState t p') ∧
        c.Climbs t p' stack' top := by
  intro fuel
  induction fuel with
  | zero =>
    omega
  | succ fuel ih =>
    intro p stack hfuel hp hclimb
    unfold walkBack
    by_cases hknown : (cache.lookup p).isSome = true
    · obtain ⟨s, hs⟩ := isSome_iff_exists.mp hknown
      rw [if_pos hknown]
      exact ⟨p, cache, stack, rfl, hcache, by rw [hs, hcache p s hs], hclimb⟩
    · rw [if_neg hknown]
      cases p with
      | none =>
        have hstate : c.periodState t none = .DEFINED := by
          rw [periodState, nextHeight, Nat.zero_div]
          rfl
        refine ⟨none, _, stack, rfl, ?_, ?_, hclimb⟩
        · rw [← hstate]
          exact hcache.insert none
        · rw [AList.lookup_insert, hstate]
      | some p =>
        dsimp only
        by_cases hstart : c.reachedStart t.toBlockMap p = true
        -- one period further back, with the block remembered
        · obtain ⟨hle, hanc⟩ := ancestor_of_boundary hp
          have hpos := c.period_pos
          have hsub : t.nextHeight (some p) - c.nPeriod ≤ t.nextHeight (some p) := Nat.sub_le _ _
          rw [if_neg (not_not_intro hstart), hanc]
          apply ih
          · rw [nextHeight_blockBefore hsub]
            omega
          · exact boundary_blockBefore hsub (Nat.dvd_sub hp (Nat.dvd_refl _))
          · exact ⟨hp, rfl, hclimb⟩
        · have hstate : c.periodState t (some p) = .DEFINED :=
            stateOfPeriod_before hstart _ (Nat.div_mul_le_self _ _)
          rw [if_pos hstart]
          refine ⟨some p, _, stack, rfl, ?_, ?_, hclimb⟩
          · rw [← hstate]
            exact hcache.insert (some p)
          · rw [AList.lookup_insert, hstate]

theorem walkForward_spec :
    ∀ (stack : List ι) (p : Option ι) (cache : ThresholdConditionCache ι), c.CacheValid t cache →
      c.Climbs t p stack top →
      ∃ cache', c.walkForward t.toBlockMap stack (c.periodState t p) cache =
          some (c.periodState t top, cache') ∧ c.CacheValid t cache' := by
  intro stack
  induction stack with
  | nil =>
    intro p cache hcache hclimb
    obtain rfl : p = top := hclimb
    exact ⟨cache, rfl, hcache⟩
  | cons q rest ih =>
    intro p cache hcache hclimb
    obtain ⟨hq, rfl, hrest⟩ := hclimb
    rw [walkForward, stateNext_eq hq]
    exact ih (some q) _ (hcache.insert (some q)) hrest

/-! ### GetStateFor -/

/-- **GetStateFor** gives the state of the recursion and leaves a valid cache. -/
theorem getStateFor_spec (hcache : c.CacheValid t cache) :
    ∃ cache', c.getStateFor t.toBlockMap p cache = some (c.directState t p, cache') ∧
      c.CacheValid t cache' := by
  unfold getStateFor directState
  by_cases halways : c.nTimeStart = ALWAYS_ACTIVE
  · rw [if_pos halways, if_pos halways]
    exact ⟨cache, rfl, hcache⟩
  · rw [if_neg halways, if_neg halways]
    by_cases hnever : c.nTimeStart = NEVER_ACTIVE
    · rw [if_pos hnever, if_pos hnever]
      exact ⟨cache, rfl, hcache⟩
    · rw [if_neg hnever, if_neg hnever, bind_periodParent, ← periodState_periodParent p]
      generalize hq : t.blockBefore p (t.nextHeight p / c.nPeriod * c.nPeriod) = q
      have hboundary : c.Boundary t q := by
        rw [← hq]
        exact boundary_blockBefore (Nat.div_mul_le_self _ _) (Nat.dvd_mul_left _ _)
      have hfuel : t.nextHeight q < (q.elim 0 fun p => t.nHeight p + 1) + 1 := by
        cases q with
        | none => exact Nat.zero_lt_one
        | some q => exact Nat.lt_succ_self _
      obtain ⟨q', cache', stack, hback, hcache', hknown, hclimb⟩ :=
        walkBack_spec hcache _ q [] hfuel hboundary rfl
      obtain ⟨cache'', hforward, hcache''⟩ := walkForward_spec stack q' cache' hcache' hclimb
      refine ⟨cache'', ?_, hcache''⟩
      dsimp only
      rw [hback, bind_some, hknown, bind_some, hforward]

/-! ### Branches -/

/-- The state of the block at height `h` on the branch that ends with `p`. -/
def stateAt (c : ThresholdChecker ι) (t : BlockTree ι) (p : Option ι) (h : Nat) : ThresholdState :=
  c.directState t (t.blockBefore p h)

omit [DecidableEq ι] in
theorem stateAt_eq {p : Option ι} {h : Nat} (hle : h ≤ t.nextHeight p) : c.stateAt t p h =
      if c.nTimeStart = ALWAYS_ACTIVE then .ACTIVE else if c.nTimeStart = NEVER_ACTIVE then .FAILED
      else c.stateOfPeriod t p (h / c.nPeriod) := by
  rw [stateAt, directState, periodState_blockBefore hle]

omit [DecidableEq ι] in
theorem stateAt_mono {p : Option ι} {h h' : Nat} (hle : h ≤ h') (hle' : h' ≤ t.nextHeight p) :
    (c.stateAt t p h).Precedes (c.stateAt t p h') := by
  rw [stateAt_eq (hle.trans hle'), stateAt_eq hle']
  split
  · exact .inl rfl
  · split
    · exact .inl rfl
    · exact stateOfPeriod_mono p (Nat.div_le_div_right hle)

omit [DecidableEq ι] in
theorem stateAt_period {p p' : Option ι} {h h' : Nat} (hle : h ≤ t.nextHeight p) (hle' : h' ≤ t.nextHeight p')
    (hperiod : h / c.nPeriod = h' / c.nPeriod)
    (hbranch : t.blockBefore p (h / c.nPeriod * c.nPeriod) =
      t.blockBefore p' (h / c.nPeriod * c.nPeriod)) : c.stateAt t p h = c.stateAt t p' h' := by
  have hbelow := (div_mul_le_self h c.nPeriod).trans hle
  have hbelow' := (div_mul_le_self h' c.nPeriod).trans hle'
  have hstate : c.stateOfPeriod t p (h / c.nPeriod) = c.stateOfPeriod t p' (h' / c.nPeriod) := by
    rw [← stateOfPeriod_blockBefore hbelow _ (le_refl _), hbranch, hperiod,
      stateOfPeriod_blockBefore hbelow' _ (le_refl _)]
  rw [stateAt_eq hle, stateAt_eq hle', hstate]

/-! ### GetStateSinceHeightFor -/

theorem sinceLoop_spec {p : Option ι} {s : ThresholdState} (hs : s ≠ .DEFINED)
    (hnormal : ∀ q, c.directState t q = c.periodState t q) :
    ∀ (fuel k : Nat) (b : ι) (cache : ThresholdConditionCache ι), k * c.nPeriod ≤ t.nextHeight p →
      t.blockBefore p (k * c.nPeriod) = some b → t.nHeight b < fuel → c.stateOfPeriod t p k = s →
      c.CacheValid t cache →
      ∃ j cache', c.sinceLoop t.toBlockMap s fuel b cache = some (j * c.nPeriod, cache') ∧ j ≤ k ∧
        ∀ i ≤ k, c.stateOfPeriod t p i = s ↔ j ≤ i := by
  intro fuel
  induction fuel with
  | zero =>
    omega
  | succ fuel ih =>
    intro k b cache hk hb hfuel hstate hcache
    have hpos := c.period_pos
    have hheight : t.nextHeight (some b) = k * c.nPeriod := by
      rw [← hb, nextHeight_blockBefore hk]
    obtain ⟨k, rfl⟩ : ∃ k', k = k' + 1 := by
      cases k with
      | zero => exact absurd hstate.symm hs
      | succ k => exact ⟨k, rfl⟩
    have hstep : (k + 1) * c.nPeriod = k * c.nPeriod + c.nPeriod := Nat.succ_mul _ _
    have hprev : t.getAncestor b (t.nHeight b - c.nPeriod) = t.blockBefore p (k * c.nPeriod) := by
      rw [(ancestor_of_boundary ⟨k + 1, by rw [hheight, Nat.mul_comm]⟩).2, hheight, hstep,
        Nat.add_sub_cancel, ← hb, blockBefore_blockBefore hk (by omega)]
    -- the loop ends here unless the period before has the state as well
    have hstop : c.stateOfPeriod t p k ≠ s →
        ∀ i ≤ k + 1, c.stateOfPeriod t p i = s ↔ k + 1 ≤ i := by
      intro hne i hi
      constructor
      · intro his
        by_contra hlt
        have hbefore := stateOfPeriod_mono (c := c) (t := t) p (show i ≤ k by omega)
        have hafter := stateOfPeriod_step (c := c) (t := t) p k
        rw [his] at hbefore
        rw [hstate] at hafter
        exact hne (hafter.antisymm hbefore)
      · intro hle
        obtain rfl : i = k + 1 := by omega
        exact hstate
    rw [sinceLoop, hprev]
    cases hr : t.blockBefore p (k * c.nPeriod) with
    | none =>
      have hzero : k * c.nPeriod = 0 := by
        rw [← nextHeight_blockBefore (show k * c.nPeriod ≤ t.nextHeight p by omega), hr]
        rfl
      obtain rfl : k = 0 := (Nat.mul_eq_zero.mp hzero).resolve_right (Nat.ne_of_gt hpos)
      exact ⟨1, cache, by rw [← hheight]; rfl, Nat.le_refl _, hstop hs.symm⟩
    | some r =>
      obtain ⟨cache', hget, hcache'⟩ := getStateFor_spec (some r) hcache
      have hr' : c.directState t (some r) = c.stateOfPeriod t p k := by
        rw [hnormal, ← hr, periodState_blockBefore (by omega), Nat.mul_div_cancel _ hpos]
      dsimp only
      rw [hget, hr', bind_some]
      by_cases hsame : c.stateOfPeriod t p k = s
      · have hlower : t.nHeight r < fuel := by
          have hr'' := nextHeight_blockBefore (show k * c.nPeriod ≤ t.nextHeight p by omega)
          rw [hr] at hr''
          have hb' : t.nHeight b + 1 = (k + 1) * c.nPeriod := hheight
          have hr''' : t.nHeight r + 1 = k * c.nPeriod := hr''
          omega
        obtain ⟨j, cache'', hloop, hjk, hj⟩ :=
          ih k r cache' (by omega) hr hlower hsame hcache'
        rw [if_pos hsame]
        refine ⟨j, cache'', hloop, by omega, fun i hi => ?_⟩
        rcases Nat.lt_or_eq_of_le hi with hlt | rfl
        · exact hj i (by omega)
        · exact ⟨fun _ => by omega, fun _ => hstate⟩
      · rw [if_neg hsame]
        exact ⟨k + 1, cache', by rw [← hheight]; rfl, Nat.le_refl _, hstop hsame⟩

/-- **GetStateSinceHeightFor** gives the first height of the branch with the state. -/
theorem getStateSinceHeightFor_spec (hcache : c.CacheValid t cache) :
    ∃ n cache', c.getStateSinceHeightFor t.toBlockMap p cache = some (n, cache') ∧
      n ≤ t.nextHeight p ∧ ∀ h ≤ t.nextHeight p, c.stateAt t p h = c.directState t p ↔ n ≤ h := by
  have hlast : c.stateAt t p (t.nextHeight p) = c.directState t p := by
    rw [stateAt, blockBefore_self]
  rw [← hlast]
  unfold getStateSinceHeightFor
  by_cases hfixed : c.nTimeStart = ALWAYS_ACTIVE ∨ c.nTimeStart = NEVER_ACTIVE
  · rw [if_pos hfixed]
    refine ⟨0, cache, rfl, Nat.zero_le _, fun h hle => ⟨fun _ => Nat.zero_le _, fun _ => ?_⟩⟩
    rw [stateAt_eq hle, stateAt_eq (Nat.le_refl _)]
    rcases hfixed with halways | hnever
    · rw [if_pos halways, if_pos halways]
    · rw [hnever]
      rfl
  · obtain ⟨halways, hnever⟩ := not_or.mp hfixed
    have hnormal : ∀ q, c.directState t q = c.periodState t q := by
      intro q
      rw [directState, if_neg halways, if_neg hnever]
    obtain ⟨cache', hget, hcache'⟩ := getStateFor_spec p hcache
    rw [if_neg hfixed, hget, bind_some]
    dsimp only
    by_cases hdefined : c.directState t p = .DEFINED
    -- DEFINED is the first state, and states only advance
    · rw [if_pos hdefined]
      refine ⟨0, cache', rfl, Nat.zero_le _, fun h hle => ⟨fun _ => Nat.zero_le _, fun _ => ?_⟩⟩
      have hforward := stateAt_mono (c := c) hle (Nat.le_refl _)
      rw [hlast, hdefined] at hforward ⊢
      exact hforward.antisymm (.inr (.inl rfl))
    · have hstate : c.stateOfPeriod t p (t.nextHeight p / c.nPeriod) = c.directState t p := (hnormal p).symm
      have hbelow : t.nextHeight p / c.nPeriod * c.nPeriod ≤ t.nextHeight p := Nat.div_mul_le_self _ _
      have hparent := bind_periodParent (c := c) (t := t) p
      rw [hlast, if_neg hdefined]
      cases hb : t.blockBefore p (t.nextHeight p / c.nPeriod * c.nPeriod) with
      | none =>
        -- in the first period the state would be DEFINED
        have hzero : t.nextHeight p / c.nPeriod * c.nPeriod = 0 := by
          rw [← nextHeight_blockBefore hbelow, hb]
          rfl
        have hfirst := (Nat.mul_eq_zero.mp hzero).resolve_right (Nat.ne_of_gt c.period_pos)
        rw [hfirst] at hstate
        exact absurd hstate.symm hdefined
      | some b =>
        obtain ⟨j, cache'', hloop, hjk, hj⟩ := sinceLoop_spec hdefined hnormal (t.nHeight b + 1) _ b cache'
          hbelow hb (Nat.lt_succ_self _) hstate hcache'
        rw [hb] at hparent
        obtain ⟨q, rfl, hq⟩ := bind_eq_some_iff.mp hparent
        refine ⟨j * c.nPeriod, cache'', ?_, (Nat.mul_le_mul_right _ hjk).trans hbelow, ?_⟩
        · rw [bind_some, hq, bind_some, hloop]
        · intro h hle
          rw [stateAt_eq hle, if_neg halways, if_neg hnever, hj _ (Nat.div_le_div_right hle),
            Nat.le_div_iff_mul_le c.period_pos]

/-! ### Deployments -/

/-- The cache after a sequence of `GetStateFor` calls. -/
def cacheAfter (c : ThresholdChecker ι) (m : BlockMap ι) (calls : List (Option ι)) :
    Option (ThresholdConditionCache ι) :=
  calls.foldlM (fun cache p => (c.getStateFor m p cache).map Prod.snd) ∅

theorem calls_spec (calls : List (Option ι)) (hcache : c.CacheValid t cache) :
    ∃ cache', calls.foldlM (fun cache p => (c.getStateFor t.toBlockMap p cache).map Prod.snd) cache =
      some cache' ∧ c.CacheValid t cache' := by
  induction calls generalizing cache with
  | nil => exact ⟨cache, rfl, hcache⟩
  | cons p calls ih =>
    obtain ⟨cache', hget, hcache'⟩ := getStateFor_spec p hcache
    rw [List.foldlM_cons, hget]
    exact ih hcache'

/-- **Deployment states.** After any calls, `GetStateFor` returns the state of the recursion over
    periods, states never move backwards along a branch, the blocks of one period share one state,
    and `GetStateSinceHeightFor` returns the first height with the state. -/
theorem getStateFor_eq_directState (c : ThresholdChecker ι) (t : BlockTree ι) (calls : List (Option ι)) :
    ∃ cache, c.cacheAfter t.toBlockMap calls = some cache ∧
      (∀ p, ∃ cache', c.getStateFor t.toBlockMap p cache = some (c.directState t p, cache')) ∧
      (∀ p h h', h ≤ h' → h' ≤ t.nextHeight p → (c.stateAt t p h).Precedes (c.stateAt t p h')) ∧
      (∀ p p' h h', h ≤ t.nextHeight p → h' ≤ t.nextHeight p' → h / c.nPeriod = h' / c.nPeriod →
        t.blockBefore p (h / c.nPeriod * c.nPeriod) = t.blockBefore p' (h / c.nPeriod * c.nPeriod) →
        c.stateAt t p h = c.stateAt t p' h') ∧
      ∀ p, ∃ n cache', c.getStateSinceHeightFor t.toBlockMap p cache = some (n, cache') ∧
        n ≤ t.nextHeight p ∧ ∀ h ≤ t.nextHeight p, c.stateAt t p h = c.directState t p ↔ n ≤ h := by
  have hempty : c.CacheValid t ∅ := by
    intro p s hp
    cases hp
  obtain ⟨cache, hcalls, hcache⟩ := calls_spec calls hempty
  refine ⟨cache, hcalls, ?_, ?_, ?_, ?_⟩
  · intro p
    obtain ⟨cache', hget, _⟩ := getStateFor_spec p hcache
    exact ⟨cache', hget⟩
  · intro p h h' hle hle'
    exact stateAt_mono hle hle'
  · intro p p' h h' hle hle' hperiod hbranch
    exact stateAt_period hle hle' hperiod hbranch
  · intro p
    exact getStateSinceHeightFor_spec p hcache

/-- Six blocks, one every minute, that all signal bit 4. -/
def sixBlocks : BlockTree (Fin 6) where
  pprev p := if p = 0 then none else some (p - 1)
  pskip p := match p with
    | 0 => none
    | 1 | 2 | 4 => some 0
    | 3 | 5 => some 1
  nHeight p := p
  nVersion _ := 0x20000010
  nTime p := 60 * (p + 1)
  height_genesis := by decide
  height_child := by decide
  buildSkip := by decide
  median_time := by decide

/-- Bit 4, from the second block on, in periods of two blocks. -/
def bitFour : ThresholdChecker (Fin 6) :=
  versionBitsConditionChecker sixBlocks.toBlockMap
    { bit := 4, nStartTime := 100, nTimeout := 1000, nStartHeight := 0, nTimeoutHeight := 0 } 2 2 (by decide)

theorem getStateFor_eq_directState_bitFour : bitFour.directState sixBlocks (some 5) = .ACTIVE ∧
    ∃ cache, bitFour.cacheAfter sixBlocks.toBlockMap [some 3] = some cache ∧
      ∀ p, ∃ cache', bitFour.getStateFor sixBlocks.toBlockMap p cache =
        some (bitFour.directState sixBlocks p, cache') := by
  obtain ⟨cache, hcalls, hget, _⟩ := getStateFor_eq_directState bitFour sixBlocks [some 3]
  exact ⟨by decide, cache, hcalls, hget⟩

end ThresholdChecker

end Defcoin
