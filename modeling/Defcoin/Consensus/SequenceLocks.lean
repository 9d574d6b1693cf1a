import Defcoin.Consensus.BlockTree
import Defcoin.Transaction

/-! # Relative lock times

  `SequenceLocks` folds the inputs of a transaction into two maxima, the last height and the last
  time at which it is not yet valid. Every input has a lock of its own, and a block may contain the
  transaction exactly if each of them is met.
-/

namespace Defcoin

open Option

/-! ### Code -/

/-- `LOCKTIME_VERIFY_SEQUENCE` -/
def locktimeVerifySequence : BitVec 32 := 1

namespace CTxIn

/-- `CTxIn::SEQUENCE_LOCKTIME_DISABLE_FLAG` -/
def sequenceLocktimeDisableFlag : BitVec 32 := 1 <<< 31

/-- `CTxIn::SEQUENCE_LOCKTIME_TYPE_FLAG` -/
def sequenceLocktimeTypeFlag : BitVec 32 := 1 <<< 22

/-- `CTxIn::SEQUENCE_LOCKTIME_MASK` -/
def sequenceLocktimeMask : BitVec 32 := 0xffff

/-- `CTxIn::SEQUENCE_LOCKTIME_GRANULARITY` -/
def sequenceLocktimeGranularity : Nat := 9

/-- The masked value of `nSequence`. -/
def relativeLock (txin : CTxIn) : Nat := (txin.nSequence &&& sequenceLocktimeMask).toNat

end CTxIn

open CTxIn

/-- A result of `int` arithmetic; `none` if it overflows. -/
def toInt (value : Int) : Option Int := if -2 ^ 31 ≤ value ∧ value < 2 ^ 31 then some value else none

namespace BlockMap
variable {ι : Type} (m : BlockMap ι) (block : ι)

/-- One turn of the loop of `CalculateSequenceLocks`: the new entry of `prevHeights`, `nMinHeight` and
    `nMinTime`. `none` stands for undefined behaviour: an `int` overflows, or there is no ancestor.
    Times are of 32 bits, so that their 64-bit sums do not overflow. -/
def sequenceStep (txin : CTxIn) (nCoinHeight : Int) (nMin : Int × Int) : Option (Int × Int × Int) := do
  if txin.nSequence &&& sequenceLocktimeDisableFlag ≠ 0 then return (0, nMin)
  if txin.nSequence &&& sequenceLocktimeTypeFlag ≠ 0 then
    let ancestor ← m.getAncestor block (max (← toInt (nCoinHeight - 1)) 0)
    let nCoinTime : Int := m.getMedianTimePast ancestor
    let lock := ((txin.nSequence &&& sequenceLocktimeMask) <<< sequenceLocktimeGranularity).toNat
    return (nCoinHeight, nMin.1, max nMin.2 (nCoinTime + lock - 1))
  let first ← toInt (nCoinHeight + txin.relativeLock)
  return (nCoinHeight, max nMin.1 (← toInt (first - 1)), nMin.2)

def sequenceLoop : List (CTxIn × Int) → Int × Int → Option (List Int × Int × Int)
  | [], nMin => some ([], nMin)
  | (txin, nCoinHeight) :: rest, nMin => do
    let (height, nMin) ← m.sequenceStep block txin nCoinHeight nMin
    let (heights, nMin) ← sequenceLoop rest nMin
    return (height :: heights, nMin)

/-- `CalculateSequenceLocks`; `none` also if the assertion on the sizes fails. -/
def calculateSequenceLocks (tx : CTransaction) (flags : BitVec 32) (prevHeights : List Int) :
    Option (List Int × Int × Int) :=
  if prevHeights.length ≠ tx.vin.length then none
  else if 2 ≤ tx.nVersion.toNat ∧ flags &&& locktimeVerifySequence ≠ 0 then
    m.sequenceLoop block (tx.vin.zip prevHeights) (-1, -1)
  else some (prevHeights, -1, -1)

/-- `EvaluateSequenceLocks`; `none` if the assertion on `pprev` fails. -/
def evaluateSequenceLocks (lockPair : Int × Int) : Option Bool := do
  let nBlockTime : Int := m.getMedianTimePast (← m.pprev block)
  return !(decide (lockPair.1 ≥ m.nHeight block) || decide (lockPair.2 ≥ nBlockTime))

/-- `SequenceLocks`, with what it leaves in `prevHeights`. -/
def sequenceLocks (tx : CTransaction) (flags : BitVec 32) (prevHeights : List Int) :
    Option (List Int × Bool) := do
  let (prevHeights, lockPair) ← m.calculateSequenceLocks block tx flags prevHeights
  return (prevHeights, ← m.evaluateSequenceLocks block lockPair)

/-! ### The lock of each input -/

/-- **Relative lock**: so many blocks after the coin's own, or so many times 512 seconds after the
    median time past of the block before the coin's (of the first block, if the coin is in that
    one). -/
def LockMet {m : BlockMap ι} (t : m.SkipTree) (block parent : ι) (txin : CTxIn) (nCoinHeight : Int) : Prop :=
  if txin.nSequence &&& sequenceLocktimeTypeFlag ≠ 0 then
    ∃ before, t.forest.ancestor block (nCoinHeight - 1).toNat = some before ∧
      m.getMedianTimePast before + 512 * txin.relativeLock ≤ m.getMedianTimePast parent
  else nCoinHeight + txin.relativeLock ≤ m.nHeight block

section
variable {m block} {t : m.SkipTree} {parent : ι} {txin : CTxIn} {nCoinHeight : Int} {nMin : Int × Int}

def Below (m : BlockMap ι) (block parent : ι) (nMin : Int × Int) : Prop :=
  nMin.1 < m.nHeight block ∧ nMin.2 < m.getMedianTimePast parent

def Passes {α : Type} (m : BlockMap ι) (block parent : ι) (x : Option (α × Int × Int)) : Prop :=
  ∃ r ∈ x, Below m block parent r.2

@[simp] theorem passes_none {α : Type} : ¬Passes m block parent (none : Option (α × Int × Int)) := nofun

@[simp] theorem passes_some {α : Type} {r : α × Int × Int} :
    Passes m block parent (some r) ↔ Below m block parent r.2 := by
  simp [Passes]

theorem toNat_lock (txin : CTxIn) :
    ((txin.nSequence &&& sequenceLocktimeMask) <<< sequenceLocktimeGranularity).toNat = 512 * txin.relativeLock := by
  have hmask : txin.relativeLock ≤ 65535 := by
    exact Nat.and_le_right
  rw [BitVec.toNat_shiftLeft, ← relativeLock, sequenceLocktimeGranularity]
  omega

theorem toInt_of_range {value : Int} (hlo : -2 ^ 31 ≤ value) (hhi : value < 2 ^ 31) : toInt value = some value :=
  if_pos ⟨hlo, hhi⟩

theorem sequenceStep_iff (hheight : m.nHeight block < 2 ^ 31)
    (hint : -2 ^ 31 < nCoinHeight ∧ nCoinHeight < 2 ^ 31) :
    Passes m block parent (m.sequenceStep block txin nCoinHeight nMin) ↔ Below m block parent nMin ∧
      (txin.nSequence &&& sequenceLocktimeDisableFlag = 0 → LockMet t block parent txin nCoinHeight) := by
  unfold sequenceStep LockMet
  by_cases hdisabled : txin.nSequence &&& sequenceLocktimeDisableFlag = 0
  · rw [if_neg (not_not.mpr hdisabled), forall_prop_of_true hdisabled]
    split_ifs
    · rw [toInt_of_range (by omega) (by omega), bind_eq_bind, bind_some, toNat_lock,
        ← t.getAncestor_eq, Int.toNat_eq_max]
      cases m.getAncestor block (max (nCoinHeight - 1) 0) with
      | none => simp
      | some before =>
        simp [Below]
        omega
    · by_cases hfits : nCoinHeight + txin.relativeLock < 2 ^ 31
      · rw [toInt_of_range (by omega) hfits, bind_eq_bind, bind_some,
          toInt_of_range (by omega) (by omega)]
        simp [Below]
        omega
      · rw [toInt, if_neg (by omega)]
        simp
        omega
  · rw [if_pos hdisabled, forall_prop_of_false hdisabled, and_true]
    exact passes_some

theorem sequenceLoop_iff (hheight : m.nHeight block < 2 ^ 31) {ins : List (CTxIn × Int)}
    (hints : ∀ p ∈ ins, -2 ^ 31 < p.2 ∧ p.2 < 2 ^ 31) :
    Passes m block parent (m.sequenceLoop block ins nMin) ↔ Below m block parent nMin ∧ ∀ p ∈ ins,
      p.1.nSequence &&& sequenceLocktimeDisableFlag = 0 → LockMet t block parent p.1 p.2 := by
  induction ins generalizing nMin with
  | nil => simp [sequenceLoop]
  | cons p rest ih =>
    rw [List.forall_mem_cons] at hints
    rw [List.forall_mem_cons, ← and_assoc, ← sequenceStep_iff hheight hints.1, sequenceLoop]
    cases hstep : m.sequenceStep block p.1 p.2 nMin with
    | none => simp
    | some r =>
      rw [passes_some, ← ih hints.2, bind_eq_bind, bind_some]
      dsimp only
      cases m.sequenceLoop block rest r.2 with
      | none => simp
      | some q => simp

end

/-- **Acceptance**: the two maxima let a block contain a transaction exactly if every input without
    the disable flag meets its own lock. -/
theorem sequenceLocks_accepts_iff {m : BlockMap ι} (t : m.SkipTree) {block parent : ι} (tx : CTransaction)
    (flags : BitVec 32) (prevHeights : List Int) (hparent : m.pprev block = some parent)
    (hheight : m.nHeight block < 2 ^ 31) (hsize : prevHeights.length = tx.vin.length)
    (hints : ∀ h ∈ prevHeights, -2 ^ 31 < h ∧ h < 2 ^ 31) (hversion : 2 ≤ tx.nVersion.toNat)
    (hflags : flags &&& locktimeVerifySequence ≠ 0) :
    (∃ heights, m.sequenceLocks block tx flags prevHeights = some (heights, true)) ↔
      ∀ p ∈ tx.vin.zip prevHeights, p.1.nSequence &&& sequenceLocktimeDisableFlag = 0 →
        LockMet t block parent p.1 p.2 := by
  have hstart : Below m block parent (-1, -1) := ⟨by simp; omega, by simp; omega⟩
  have hloop : Passes m block parent (m.sequenceLoop block (tx.vin.zip prevHeights) (-1, -1)) ↔ _ :=
    sequenceLoop_iff (t := t) hheight fun p hp => hints p.2 (List.of_mem_zip hp).2
  rw [sequenceLocks, calculateSequenceLocks, if_neg (not_not.mpr hsize), if_pos ⟨hversion, hflags⟩,
    ← hloop.trans (and_iff_right hstart)]
  cases m.sequenceLoop block (tx.vin.zip prevHeights) (-1, -1) with
  | none => simp
  | some r => simp [evaluateSequenceLocks, hparent, Below]

/-- Three blocks, 1000 seconds apart; the last one is being checked. -/
def threeBlocks : BlockMap (Fin 3) where
  pprev p := if p = 0 then none else some (p - 1)
  pskip p := if p = 1 then some 0 else none
  nHeight p := p
  nVersion _ := 1
  nTime p := 1000 * p

theorem threeBlocks_skipTree : threeBlocks.SkipTree := ⟨by decide, by decide, by decide⟩

/-- One input is locked for a block, the other for 512 seconds. -/
def lockedTx : CTransaction where
  vin := [{ prevout := ⟨7, 0⟩, scriptSig := [], nSequence := 1, scriptWitness := [] },
    { prevout := ⟨8, 0⟩, scriptSig := [], nSequence := 0x400001, scriptWitness := [] }]
  vout := []
  nVersion := 2
  nLockTime := 0
  mweb_tx := none
  m_hogEx := false
  hash := 9

theorem sequenceLocks_accepts_iff_threeBlocks : threeBlocks.pprev 2 = some 1 ∧
    ∀ p ∈ lockedTx.vin.zip [1, 1], p.1.nSequence &&& sequenceLocktimeDisableFlag = 0 →
      LockMet threeBlocks_skipTree 2 1 p.1 p.2 :=
  ⟨rfl, (sequenceLocks_accepts_iff threeBlocks_skipTree lockedTx 1 [1, 1] rfl (by decide) rfl (by decide)
    (by decide) (by decide)).mp ⟨[1, 1], by decide +kernel⟩⟩

end BlockMap
end Defcoin
