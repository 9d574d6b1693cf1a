import Mathlib.Data.List.AList
import Defcoin.Consensus.BlockTree

/-! # Deployment states and their cache

  `AbstractThresholdConditionChecker`: the state of a soft fork for the block after a given one.
  States change at period boundaries only; they are remembered per boundary block in a map that all
  branches share.

  A result of `none` stands for a null dereference, a failed assertion or a loop that did not end
  within its fuel.
-/

namespace Defcoin

/-- `ThresholdState` -/
inductive ThresholdState where
  | DEFINED
  | STARTED
  | LOCKED_IN
  | ACTIVE
  | FAILED
deriving DecidableEq

/-- `ThresholdConditionCache`; a null pointer is the parent of the first block. -/
abbrev ThresholdConditionCache (ι : Type) := AList fun _ : Option ι => ThresholdState

/-- What the virtual functions of a checker return. -/
structure ThresholdChecker (ι : Type) where
  condition : ι → Bool
  nPeriod : Nat
  nThreshold : Int
  nTimeStart : Int
  nTimeTimeout : Int
  nHeightStart : Int
  nHeightTimeout : Int
  period_pos : 0 < nPeriod

namespace ThresholdChecker
variable {ι : Type} (c : ThresholdChecker ι) (m : BlockMap ι)

/-- `BIP9Deployment::ALWAYS_ACTIVE` -/
def ALWAYS_ACTIVE : Int := -1

/-- `BIP9Deployment::NEVER_ACTIVE` -/
def NEVER_ACTIVE : Int := -2

def fHeightBased : Bool := c.nTimeStart == 0 && c.nTimeTimeout == 0

/-- The test for the start, after the given block. -/
def reachedStart (p : ι) : Bool :=
  if c.fHeightBased then decide ((m.nHeight p + 1 : Int) ≥ c.nHeightStart)
  else decide ((m.getMedianTimePast p : Int) ≥ c.nTimeStart)

/-- The test for the timeout, after the given block. -/
def reachedTimeout (p : ι) : Bool :=
  if c.fHeightBased then decide ((m.nHeight p + 1 : Int) ≥ c.nHeightTimeout)
  else decide ((m.getMedianTimePast p : Int) ≥ c.nTimeTimeout)

/-- Count the signalling blocks among `i` blocks, going back. -/
def countLoop : (i : Nat) → (pindexCount : Option ι) → (count : Nat) → Option Nat
  | 0, _, count => some count
  | _ + 1, none, _ => none
  | i + 1, some p, count => countLoop i (m.pprev p) (if c.condition p then count + 1 else count)

/-- What STARTED becomes at the end of a period with `count` signalling blocks. -/
def startedNext (p : ι) (count : Nat) : ThresholdState :=
  if (count : Int) ≥ c.nThreshold then .LOCKED_IN
  else if c.reachedTimeout m p then (if c.fHeightBased then .LOCKED_IN else .FAILED)
  else .STARTED

/-- The switch over the state. -/
def stateNext (p : ι) : ThresholdState → Option ThresholdState
  | .DEFINED => some (if c.reachedStart m p then .STARTED else .DEFINED)
  | .STARTED => (c.countLoop m c.nPeriod (some p) 0).map (c.startedNext m p)
  | .LOCKED_IN => some .ACTIVE
  | .FAILED => some .FAILED
  | .ACTIVE => some .ACTIVE

/-- The last block before the period of the block after `p`. -/
def periodParent (p : ι) : Option ι :=
  m.getAncestor p (m.nHeight p - ((m.nHeight p + 1) % c.nPeriod : Nat))

variable [DecidableEq ι]

/-- The walk back, in steps of a period, to a block whose state is known. -/
def walkBack : Nat → Option ι → ThresholdConditionCache ι → List ι →
    Option (Option ι × ThresholdConditionCache ι × List ι)
  | 0, _, _, _ => none
  | fuel + 1, pindexPrev, cache, vToCompute =>
    if (cache.lookup pindexPrev).isSome then some (pindexPrev, cache, vToCompute)
    else match pindexPrev with
      | none => some (none, cache.insert none .DEFINED, vToCompute)
      | some p =>
        -- every earlier block is before the start as well
        if ¬c.reachedStart m p then some (some p, cache.insert (some p) .DEFINED, vToCompute)
        else walkBack fuel (m.getAncestor p (m.nHeight p - c.nPeriod)) cache (p :: vToCompute)

/-- The walk forward through the blocks put aside, the last one first. -/
def walkForward : List ι → ThresholdState → ThresholdConditionCache ι →
    Option (ThresholdState × ThresholdConditionCache ι)
  | [], state, cache => some (state, cache)
  | p :: vToCompute, state, cache =>
    (c.stateNext m p state).bind fun next => walkForward vToCompute next (cache.insert (some p) next)

/-- `GetStateFor` -/
def getStateFor (pindexPrev : Option ι) (cache : ThresholdConditionCache ι) :
    Option (ThresholdState × ThresholdConditionCache ι) :=
  if c.nTimeStart = ALWAYS_ACTIVE then some (.ACTIVE, cache)
  else if c.nTimeStart = NEVER_ACTIVE then some (.FAILED, cache)
  else
    let pindexPrev := pindexPrev.bind (c.periodParent m)
    let fuel := (pindexPrev.elim 0 fun p => m.nHeight p + 1) + 1
    (c.walkBack m fuel pindexPrev cache []).bind fun (pindexPrev, cache, vToCompute) =>
      (cache.lookup pindexPrev).bind fun state => c.walkForward m vToCompute state cache

/-- The loop of `GetStateSinceHeightFor`. -/
def sinceLoop (initialState : ThresholdState) : Nat → ι → ThresholdConditionCache ι →
    Option (Nat × ThresholdConditionCache ι)
  | 0, _, _ => none
  | fuel + 1, pindexPrev, cache =>
    match m.getAncestor pindexPrev (m.nHeight pindexPrev - c.nPeriod) with
    | none => some (m.nHeight pindexPrev + 1, cache)
    | some previousPeriodParent =>
      (c.getStateFor m (some previousPeriodParent) cache).bind fun (state, cache) =>
        if state = initialState then sinceLoop initialState fuel previousPeriodParent cache
        else some (m.nHeight pindexPrev + 1, cache)

/-- `GetStateSinceHeightFor` -/
def getStateSinceHeightFor (pindexPrev : Option ι) (cache : ThresholdConditionCache ι) :
    Option (Nat × ThresholdConditionCache ι) :=
  if c.nTimeStart = ALWAYS_ACTIVE ∨ c.nTimeStart = NEVER_ACTIVE then some (0, cache)
  else
    (c.getStateFor m pindexPrev cache).bind fun (initialState, cache) =>
      if initialState = .DEFINED then some (0, cache)
      else pindexPrev.bind fun p => (c.periodParent m p).bind fun p =>
        c.sinceLoop m initialState (m.nHeight p + 1) p cache

end ThresholdChecker

/-! ### The version bits of a deployment -/

/-- `BIP9Deployment` -/
structure BIP9Deployment where
  bit : Nat
  nStartTime : Int
  nTimeout : Int
  nStartHeight : Int
  nTimeoutHeight : Int

def VERSIONBITS_TOP_BITS : BitVec 32 := 0x20000000

def VERSIONBITS_TOP_MASK : BitVec 32 := 0xE0000000

/-- `VersionBitsConditionChecker::Mask` -/
def BIP9Deployment.mask (d : BIP9Deployment) : BitVec 32 := 1#32 <<< d.bit

/-- `VersionBitsConditionChecker`; the window is a consensus parameter, never zero. -/
def versionBitsConditionChecker {ι : Type} (m : BlockMap ι) (d : BIP9Deployment)
    (nMinerConfirmationWindow nRuleChangeActivationThreshold : Nat)
    (hwindow : 0 < nMinerConfirmationWindow) : ThresholdChecker ι where
  condition p := (m.nVersion p &&& VERSIONBITS_TOP_MASK == VERSIONBITS_TOP_BITS) &&
    (m.nVersion p &&& d.mask != 0)
  nPeriod := nMinerConfirmationWindow
  nThreshold := nRuleChangeActivationThreshold
  nTimeStart := d.nStartTime
  nTimeTimeout := d.nTimeout
  nHeightStart := d.nStartHeight
  nHeightTimeout := d.nTimeoutHeight
  period_pos := hwindow

end Defcoin
