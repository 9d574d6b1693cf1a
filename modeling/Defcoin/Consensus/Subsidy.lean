import Defcoin.Consensus.ConnectBlock
import Mathlib.Algebra.BigOperators.Intervals
import Mathlib.Tactic.Linarith

/-! # The sum of all subsidies

  The subsidy is halved, rounding down, after every halving interval. So what is still to come is at
  most twice the current subsidy for every block of an interval, and as no network's interval is
  longer than 840000 blocks the subsidies never exceed MAX_MONEY.
-/

namespace Defcoin

theorem halvedSubsidy_nonneg (halvings : Nat) : 0 ≤ halvedSubsidy halvings := by
  unfold halvedSubsidy
  split
  · exact le_rfl
  · rw [Int.shiftRight_eq_div_pow]
    apply Int.ediv_nonneg
    · decide
    · positivity

variable (params : ConsensusParams) (nHeight : Nat)

theorem halvedSubsidy_zero : halvedSubsidy 0 = 50 * coinUnit := rfl

theorem halvedSubsidy_succ (halvings : Nat) :
    2 * halvedSubsidy (halvings + 1) ≤ halvedSubsidy halvings := by
  by_cases h : halvings + 1 ≥ 64
  · have hzero : halvedSubsidy (halvings + 1) = 0 := if_pos h
    rw [hzero]
    exact halvedSubsidy_nonneg halvings
  · rw [halvedSubsidy, halvedSubsidy, Int.shiftRight_eq_div_pow, Int.shiftRight_eq_div_pow]
    have hstep : (50 * coinUnit) / (2 ^ (halvings + 1) : Nat) =
        (50 * coinUnit) / (2 ^ halvings : Nat) / 2 := by
      rw [Int.ediv_ediv_of_nonneg (by positivity)]
      rfl
    omega

theorem halvedSubsidy_le (halvings : Nat) : halvedSubsidy halvings ≤ 50 * coinUnit := by
  induction halvings with
  | zero => exact le_of_eq halvedSubsidy_zero
  | succ n ih =>
    have hhalf := halvedSubsidy_succ n
    have hnonneg := halvedSubsidy_nonneg (n + 1)
    omega

theorem getBlockSubsidy_range : moneyRange (getBlockSubsidy params nHeight) = true := by
  have hle := halvedSubsidy_le (nHeight / params.nSubsidyHalvingInterval)
  rw [moneyRange_iff]
  exact ⟨halvedSubsidy_nonneg _, le_trans hle (by decide)⟩

theorem sum_halvedSubsidy_le {interval : Nat} (hpos : 0 < interval) (n : Nat) :
    ∑ i ∈ Finset.range n, halvedSubsidy (i / interval) ≤
      interval * (2 * halvedSubsidy 0 - 2 * halvedSubsidy (n / interval)) +
        (n % interval : Nat) * halvedSubsidy (n / interval) := by
  induction n with
  | zero => simp
  | succ n ih =>
    rw [Finset.sum_range_succ]
    by_cases hlast : n % interval + 1 < interval
    · have hdiv : (n + 1) / interval = n / interval := by
        rw [Nat.succ_div_of_not_dvd]
        intro hdvd
        have := Nat.mod_eq_zero_of_dvd hdvd
        rw [Nat.add_mod, Nat.mod_eq_of_lt (show 1 < interval by omega), Nat.mod_eq_of_lt hlast] at this
        omega
      have hmod : (n + 1) % interval = n % interval + 1 := by
        rw [Nat.add_mod, Nat.mod_eq_of_lt (show 1 < interval by omega), Nat.mod_eq_of_lt hlast]
      rw [hdiv, hmod, Nat.cast_add, Nat.cast_one]
      linarith
    · have hlt := Nat.mod_lt n hpos
      have hdvd : interval ∣ n + 1 := by
        refine ⟨n / interval + 1, ?_⟩
        have := Nat.div_add_mod n interval
        rw [Nat.mul_add]
        omega
      have hdiv := Nat.succ_div_of_dvd hdvd
      have hmod := Nat.mod_eq_zero_of_dvd hdvd
      rw [hdiv, hmod]
      have hhalf := halvedSubsidy_succ (n / interval)
      have hcast : ((n % interval : Nat) : Int) = interval - 1 := by omega
      rw [hcast] at ih
      have hmul : interval * (2 * halvedSubsidy (n / interval + 1)) ≤
          interval * halvedSubsidy (n / interval) := Int.mul_le_mul_of_nonneg_left hhalf (by positivity)
      push_cast
      linarith

/-- The subsidies of the heights 1 to `h`. -/
def subsidySum (params : ConsensusParams) (h : Nat) : Int :=
  ∑ i ∈ Finset.range h, getBlockSubsidy params (i + 1)

theorem subsidySum_succ (h : Nat) :
    subsidySum params (h + 1) = subsidySum params h + getBlockSubsidy params (h + 1) :=
  Finset.sum_range_succ ..

theorem ConsensusParams.nSubsidyHalvingInterval_pos : 0 < params.nSubsidyHalvingInterval := by
  unfold nSubsidyHalvingInterval
  split <;> decide

theorem ConsensusParams.nSubsidyHalvingInterval_le : params.nSubsidyHalvingInterval ≤ 840000 := by
  unfold nSubsidyHalvingInterval
  split <;> decide

theorem subsidySum_le_maxMoney (h : Nat) : subsidySum params h ≤ maxMoney := by
  have hsum := sum_halvedSubsidy_le params.nSubsidyHalvingInterval_pos (h + 1)
  generalize hq : (h + 1) / params.nSubsidyHalvingInterval = q at hsum
  have hmod := Nat.mod_lt (h + 1) params.nSubsidyHalvingInterval_pos
  have hle := params.nSubsidyHalvingInterval_le
  rw [Finset.sum_range_succ'] at hsum
  have heq : subsidySum params h =
      ∑ i ∈ Finset.range h, halvedSubsidy ((i + 1) / params.nSubsidyHalvingInterval) := rfl
  have hfirst := halvedSubsidy_nonneg (0 / params.nSubsidyHalvingInterval)
  have hnow := halvedSubsidy_nonneg q
  -- the rest of the interval costs no more than what is left
  have hrest : ((h + 1) % params.nSubsidyHalvingInterval : Nat) * halvedSubsidy q ≤
      params.nSubsidyHalvingInterval * halvedSubsidy q :=
    Int.mul_le_mul_of_nonneg_right (by omega) hnow
  have hnonneg : 0 ≤ params.nSubsidyHalvingInterval * halvedSubsidy q := by positivity
  have hbound : params.nSubsidyHalvingInterval * (2 * halvedSubsidy 0) ≤ maxMoney := by
    rw [halvedSubsidy_zero, show 2 * (50 * coinUnit) = 10000000000 by decide,
      show maxMoney = 8400000000000000 by decide]
    omega
  linarith

end Defcoin
