import Defcoin.Compact

/-! # Difficulty retargeting (pow.cpp)

  The bits a block must carry: those of its parent, except at every `DifficultyAdjustmentInterval`,
  where the target is scaled by the time the last interval took. The scaling is done in 256 bits;
  the lemmas below compare it with the same scaling of whole numbers.
-/

namespace Defcoin.Pow

open BaseUint Defcoin.Compact

/-! ### Parameters and headers -/

/-- The members of `Consensus::Params` that retargeting reads. -/
structure Params where
  powLimit : ArithUint256
  fPowAllowMinDifficultyBlocks : Bool
  fPowNoRetargeting : Bool
  nPowTargetSpacing : Int
  nPowTargetTimespan : Int

variable (params : Params)

def Params.difficultyAdjustmentInterval : Int :=
  Int.tdiv params.nPowTargetTimespan params.nPowTargetSpacing

/-- The parameters of `CMainParams`. -/
def mainParams : Params where
  powLimit :=
    { pn := [0xffffffff#32, 0xffffffff#32, 0xffffffff#32, 0xffffffff#32, 0xffffffff#32,
        0xffffffff#32, 0xffffffff#32, 0x00000fff#32]
      width := rfl }
  fPowAllowMinDifficultyBlocks := false
  fPowNoRetargeting := false
  nPowTargetSpacing := 2 * 60
  nPowTargetTimespan := 1 * 24 * 60 * 60

/-- The members of `CBlockIndex` that retargeting reads. A block and its ancestors along `pprev` are
    a list, the block itself first. -/
structure CBlockIndex where
  nHeight : Nat
  nTime : BitVec 32
  nBits : BitVec 32
  deriving DecidableEq

def CBlockIndex.getBlockTime (pindex : CBlockIndex) : Int := pindex.nTime.toNat

def HeaderChain : List CBlockIndex → Prop
  | [] => True
  | pindex :: pprev => pindex.nHeight = pprev.length ∧ HeaderChain pprev

/-! ### CalculateNextWorkRequired -/

/-- The limits on the adjustment step. -/
def clampTimespan (nActualTimespan : Int) : Int :=
  let nActualTimespan :=
    if nActualTimespan < Int.tdiv params.nPowTargetTimespan 4 then
      Int.tdiv params.nPowTargetTimespan 4
    else nActualTimespan
  if nActualTimespan > params.nPowTargetTimespan * 4 then params.nPowTargetTimespan * 4
  else nActualTimespan

/-- `bnNew.bits() > bnPowLimit.bits() - 1`, in `unsigned int`. -/
def fShift (bnNew : ArithUint256) : Bool :=
  decide (bnNew.bits > (params.powLimit.bits + (2 ^ 32 - 1)) % 2 ^ 32)

/-- The old target, halved if it would overflow, times the timespan. -/
def scaled (bnOld : ArithUint256) (nActualTimespan : Int) : ArithUint256 :=
  let bnNew := if fShift params bnOld then bnOld.shiftRight 1 else bnOld
  bnNew.mul32 (BitVec.ofInt 32 nActualTimespan)

/-- The retarget itself. -/
def retarget (bnOld : ArithUint256) (nActualTimespan : Int) :
    Except String ArithUint256 := do
  let bnNew ← (scaled params bnOld nActualTimespan).divide
    (ofUInt64 (BitVec.ofInt 64 params.nPowTargetTimespan))
  let bnNew := if fShift params bnOld then bnNew.shiftLeft 1 else bnNew
  return if bnNew.gt params.powLimit then params.powLimit else bnNew

/-- `CalculateNextWorkRequired`. -/
def calculateNextWorkRequired (pindexLast : CBlockIndex) (nFirstBlockTime : Int) :
    Except String (BitVec 32) :=
  if params.fPowNoRetargeting then .ok pindexLast.nBits
  else do
    let nActualTimespan := clampTimespan params (pindexLast.getBlockTime - nFirstBlockTime)
    let bnNew ← retarget params (setCompact pindexLast.nBits).1 nActualTimespan
    getCompact bnNew false

/-! ### GetNextWorkRequired -/

/-- The loop that looks for the last block not mined under the minimum-difficulty rule. -/
def lastOrdinaryBits (params : Params) (nProofOfWorkLimit : BitVec 32) (pindex : CBlockIndex) :
    List CBlockIndex → BitVec 32
  | [] => pindex.nBits
  | pprev :: rest =>
    if Int.tmod pindex.nHeight params.difficultyAdjustmentInterval ≠ 0 ∧
        pindex.nBits = nProofOfWorkLimit then
      lastOrdinaryBits params nProofOfWorkLimit pprev rest
    else pindex.nBits

/-- `for (int i = 0; pindexFirst && i < blockstogoback; i++)`. -/
def goBack : Nat → List CBlockIndex → List CBlockIndex
  | 0, pindexFirst => pindexFirst
  | _ + 1, [] => []
  | i + 1, _ :: pprev => goBack i pprev

/-- How far the walk goes: the full period unless it is the first retarget after genesis. -/
def blocksToGoBack (pindexLast : CBlockIndex) : Nat :=
  if (pindexLast.nHeight : Int) + 1 ≠ params.difficultyAdjustmentInterval then
    params.difficultyAdjustmentInterval.toNat
  else (params.difficultyAdjustmentInterval - 1).toNat

/-- `GetNextWorkRequired` for the block with time `nBlockTime` on top of the given chain, with its
    asserts. -/
def getNextWorkRequired (chain : List CBlockIndex) (nBlockTime : Int) :
    Except String (BitVec 32) :=
  match chain with
  | [] => .error "pindexLast != nullptr"
  | pindexLast :: ancestors => do
    let nProofOfWorkLimit ← getCompact params.powLimit false
    if Int.tmod (pindexLast.nHeight + 1) params.difficultyAdjustmentInterval ≠ 0 then
      if params.fPowAllowMinDifficultyBlocks then
        if nBlockTime > pindexLast.getBlockTime + params.nPowTargetSpacing * 2 then
          .ok nProofOfWorkLimit
        else .ok (lastOrdinaryBits params nProofOfWorkLimit pindexLast ancestors)
      else .ok pindexLast.nBits
    else
      match goBack (blocksToGoBack params pindexLast) (pindexLast :: ancestors) with
      | [] => .error "pindexFirst"
      | pindexFirst :: _ => calculateNextWorkRequired params pindexLast pindexFirst.getBlockTime

/-- The range check of `CheckProofOfWork` on the target of a block. -/
def validTarget (nBits : BitVec 32) : Bool :=
  let (bnTarget, fNegative, fOverflow) := setCompact nBits
  !(fNegative || decide (bnTarget = ofUInt64 0) || fOverflow || bnTarget.gt params.powLimit)

/-! ### The walk back -/

variable (T n : Nat) {a : Nat} {pindexLast : CBlockIndex} {bnOld : ArithUint256}

theorem goBack_eq_drop (chain : List CBlockIndex) : goBack n chain = chain.drop n := by
  induction n generalizing chain with
  | zero => rfl
  | succ n ih =>
    cases chain with
    | nil => rfl
    | cons pindex pprev => exact ih pprev

theorem HeaderChain.drop {chain : List CBlockIndex} (h : HeaderChain chain) (n : Nat) :
    HeaderChain (chain.drop n) := by
  induction n generalizing chain with
  | zero => exact h
  | succ n ih =>
    cases chain with
    | nil => exact h
    | cons pindex pprev => exact ih h.2

theorem goBack_eq_cons {pindex : CBlockIndex} {pprev : List CBlockIndex}
    (h : HeaderChain (pindex :: pprev)) {n : Nat} (hn : n ≤ pindex.nHeight) :
    ∃ first rest, goBack n (pindex :: pprev) = first :: rest ∧ first ∈ pindex :: pprev ∧
      first.nHeight = pindex.nHeight - n := by
  have hheight := h.1
  have hlen : n < (pindex :: pprev).length := by
    rw [List.length_cons]
    omega
  have hdrop := List.drop_eq_getElem_cons hlen
  have hchain := h.drop n
  rw [hdrop] at hchain
  refine ⟨_, _, (goBack_eq_drop _ _).trans hdrop, List.getElem_mem hlen, ?_⟩
  rw [hchain.1, List.length_drop, List.length_cons]
  omega

/-! ### The retarget on whole numbers -/

def target (nBits : BitVec 32) : Nat := (setCompact nBits).1.value

/-- The target `T` scaled by `a / S`, by way of its half where it is large. -/
def scaledTarget (T a S : Nat) : Nat := if T < 2 ^ 235 then T * a / S else 2 * (T / 2 * a / S)

def timespan : Nat := 86400

theorem mainParams_powLimit : mainParams.powLimit.value = 2 ^ 236 - 1 := by
  simp [mainParams, BaseUint.value]

theorem clampTimespan_eq (d : Int) : clampTimespan mainParams d = min (max d 21600) 345600 := by
  have hquarter : Int.tdiv mainParams.nPowTargetTimespan 4 = 21600 := by decide
  have hfour : mainParams.nPowTargetTimespan * 4 = 345600 := by decide
  simp only [clampTimespan]
  split_ifs <;> omega

theorem fShift_iff (bnOld : ArithUint256) :
    fShift mainParams bnOld = true ↔ 2 ^ 235 ≤ bnOld.value := by
  rw [fShift, decide_eq_true_iff, bits_eq]
  exact Nat.lt_size

theorem value_scaled (hold : bnOld.value < 2 ^ 236) (ha : a ≤ 345600) :
    (scaled mainParams bnOld a).value =
      (if bnOld.value < 2 ^ 235 then bnOld.value else bnOld.value / 2) * a := by
  have hword : (BitVec.ofInt 32 a).toNat = a := by
    rw [BitVec.ofInt_natCast, BitVec.toNat_ofNat]
    omega
  have hhalf : (if fShift mainParams bnOld then bnOld.shiftRight 1 else bnOld).value =
      if bnOld.value < 2 ^ 235 then bnOld.value else bnOld.value / 2 := by
    by_cases hshift : fShift mainParams bnOld = true
    · have hge := (fShift_iff bnOld).mp hshift
      rw [if_pos hshift, if_neg (by omega), value_shiftRight, Nat.pow_one]
    · have hlt : bnOld.value < 2 ^ 235 := by
        have := mt (fShift_iff bnOld).mpr hshift
        omega
      rw [if_neg hshift, if_pos hlt]
  simp only [scaled]
  rw [value_mul32, hword, hhalf, Nat.mod_eq_of_lt]
  have hbound : (if bnOld.value < 2 ^ 235 then bnOld.value else bnOld.value / 2) < 2 ^ 235 := by
    split_ifs <;> omega
  calc (if bnOld.value < 2 ^ 235 then bnOld.value else bnOld.value / 2) * a
      ≤ 2 ^ 235 * 345600 := Nat.mul_le_mul (Nat.le_of_lt hbound) ha
    _ < 2 ^ (32 * 8) := by decide

theorem scaledTarget_le (ha : a ≤ 345600) : scaledTarget T a timespan ≤ 4 * T := by
  have hscale : ∀ t : Nat, t * a / timespan ≤ 4 * t := by
    intro t
    apply Nat.div_le_of_le_mul
    calc t * a ≤ t * 345600 := Nat.mul_le_mul_left t ha
      _ = 86400 * (4 * t) := by ring
  rw [scaledTarget]
  split_ifs
  · exact hscale T
  · have := hscale (T / 2)
    omega

theorem scaledTarget_mono {a' : Nat} (h : a ≤ a') :
    scaledTarget T a timespan ≤ scaledTarget T a' timespan := by
  have hscale : ∀ t : Nat, t * a / timespan ≤ t * a' / timespan := fun t =>
    Nat.div_le_div_right (Nat.mul_le_mul_left t h)
  rw [scaledTarget, scaledTarget]
  split_ifs
  · exact hscale T
  · exact Nat.mul_le_mul_left 2 (hscale (T / 2))

theorem divide_scaled (hold : bnOld.value < 2 ^ 236) (ha : a ≤ 345600) : ∃ q : ArithUint256,
      (scaled mainParams bnOld a).divide
          (ofUInt64 (BitVec.ofInt 64 mainParams.nPowTargetTimespan)) = .ok q ∧
        (2 ^ 235 ≤ bnOld.value → (q.shiftLeft 1).value = 2 * q.value) ∧
        (if fShift mainParams bnOld then q.shiftLeft 1 else q).value =
          scaledTarget bnOld.value a timespan := by
  have hS : (ofUInt64 (BitVec.ofInt 64 mainParams.nPowTargetTimespan) : ArithUint256).value =
      timespan := by
    decide
  obtain ⟨q, hq, hvalue⟩ := divide_eq (a := scaled mainParams bnOld a)
    (by rw [hS]; decide)
  rw [hS, value_scaled hold ha] at hvalue
  have hle := scaledTarget_le bnOld.value ha
  have hdouble : 2 ^ 235 ≤ bnOld.value → (q.shiftLeft 1).value = 2 * q.value := by
    intro hge
    rw [if_neg (by omega)] at hvalue
    rw [scaledTarget, if_neg (by omega)] at hle
    rw [value_shiftLeft, Nat.pow_one, Nat.mul_comm, Nat.mod_eq_of_lt (by omega)]
  refine ⟨q, hq, hdouble, ?_⟩
  rw [scaledTarget]
  by_cases hshift : fShift mainParams bnOld = true
  · have hge := (fShift_iff bnOld).mp hshift
    rw [if_neg (by omega)] at hvalue
    rw [if_pos hshift, if_neg (by omega), hdouble hge, hvalue]
  · have hlt : bnOld.value < 2 ^ 235 := by
      have := mt (fShift_iff bnOld).mpr hshift
      omega
    rw [if_pos hlt] at hvalue
    rw [if_neg hshift, if_pos hlt, hvalue]

theorem retarget_eq (hold : bnOld.value < 2 ^ 236) (ha : a ≤ 345600) :
    ∃ bnNew, retarget mainParams bnOld a = .ok bnNew ∧
      bnNew.value = min mainParams.powLimit.value (scaledTarget bnOld.value a timespan) := by
  obtain ⟨q, hq, -, hvalue⟩ := divide_scaled hold ha
  refine ⟨_, by rw [retarget, hq]; rfl, ?_⟩
  by_cases hgt : ((if fShift mainParams bnOld then q.shiftLeft 1 else q).gt
      mainParams.powLimit) = true
  · have hlarge := (gt_iff _ _).mp hgt
    rw [if_pos hgt, Nat.min_eq_left (by omega)]
  · have hsmall := mt (gt_iff _ _).mpr hgt
    rw [if_neg hgt, hvalue, Nat.min_eq_right (by omega)]

/-! ### The bits returned -/

theorem target_lt_of_validTarget {nBits : BitVec 32} (h : validTarget mainParams nBits = true) :
    target nBits < 2 ^ 236 := by
  have hlimit := mainParams_powLimit
  simp only [validTarget, Bool.not_eq_true', Bool.or_eq_false_iff] at h
  have hle := mt (gt_iff _ _).mpr (Bool.eq_false_iff.mp h.2)
  rw [target]
  omega

section
variable (pindexLast pindexFirst : CBlockIndex)

/-- The time between two blocks, but a quarter of the timespan at least and four times it at most. -/
def actualTimespan : Nat :=
  (min (max (pindexLast.getBlockTime - pindexFirst.getBlockTime) 21600) 345600).toNat

theorem cast_actualTimespan :
    (actualTimespan pindexLast pindexFirst : Int) =
      clampTimespan mainParams (pindexLast.getBlockTime - pindexFirst.getBlockTime) := by
  rw [clampTimespan_eq]
  exact Int.toNat_of_nonneg (by omega)

theorem actualTimespan_le :
    actualTimespan pindexLast pindexFirst ≤ 345600 := by
  unfold actualTimespan
  omega

def nextTarget : Nat :=
  min mainParams.powLimit.value
    (scaledTarget (target pindexLast.nBits) (actualTimespan pindexLast pindexFirst) timespan)

end

theorem calculateNextWorkRequired_eq (pindexFirst : CBlockIndex) (hvalid : target pindexLast.nBits < 2 ^ 236) :
    calculateNextWorkRequired mainParams pindexLast pindexFirst.getBlockTime =
      .ok (BitVec.ofNat 32 (encode (nextTarget pindexLast pindexFirst))) := by
  obtain ⟨bnNew, hretarget, hvalue⟩ :=
    retarget_eq hvalid (actualTimespan_le pindexLast pindexFirst)
  rw [cast_actualTimespan] at hretarget
  have hbits := getCompact_eq bnNew
  rw [hvalue] at hbits
  show (retarget mainParams (setCompact pindexLast.nBits).1 _ >>= fun bnNew =>
    getCompact bnNew false) = _
  rw [hretarget]
  exact hbits

theorem target_next (pindexLast pindexFirst : CBlockIndex) :
    target (BitVec.ofNat 32 (encode (nextTarget pindexLast pindexFirst))) =
      floor (nextTarget pindexLast pindexFirst) := by
  have hlt : nextTarget pindexLast pindexFirst < 2 ^ 256 := by
    have hle := Nat.min_le_left mainParams.powLimit.value
      (scaledTarget (target pindexLast.nBits) (actualTimespan pindexLast pindexFirst) timespan)
    exact hle.trans_lt mainParams.powLimit.value_lt
  exact value_setCompact_encode hlt

theorem blocksToGoBack_le (hretarget : (pindexLast.nHeight + 1) % 720 = 0) :
    blocksToGoBack mainParams pindexLast ≤ pindexLast.nHeight ∧
      blocksToGoBack mainParams pindexLast = if pindexLast.nHeight + 1 = 720 then 719 else 720 := by
  have hinterval : mainParams.difficultyAdjustmentInterval = 720 := by decide
  rw [blocksToGoBack]
  by_cases hfirst : pindexLast.nHeight + 1 = 720
  · rw [if_neg (by omega), if_pos hfirst]
    constructor
    · omega
    · rfl
  · rw [if_pos (by omega), if_neg hfirst]
    constructor
    · omega
    · rfl

theorem getNextWorkRequired_eq {ancestors : List CBlockIndex} (hchain : HeaderChain (pindexLast :: ancestors))
    (hretarget : (pindexLast.nHeight + 1) % 720 = 0) (nBlockTime : Int) :
    ∃ pindexFirst ∈ pindexLast :: ancestors, pindexFirst.nHeight =
        pindexLast.nHeight - (if pindexLast.nHeight + 1 = 720 then 719 else 720) ∧
      getNextWorkRequired mainParams (pindexLast :: ancestors) nBlockTime =
        calculateNextWorkRequired mainParams pindexLast pindexFirst.getBlockTime := by
  obtain ⟨hback, hcount⟩ := blocksToGoBack_le hretarget
  obtain ⟨first, _, hwalk, hmem, hheight⟩ := goBack_eq_cons hchain hback
  refine ⟨first, hmem, by rw [hheight, hcount], ?_⟩
  have hinterval : mainParams.difficultyAdjustmentInterval = 720 := by decide
  have hmod : ¬Int.tmod (pindexLast.nHeight + 1) mainParams.difficultyAdjustmentInterval ≠ 0 := by
    rw [hinterval, Int.tmod_eq_emod_of_nonneg (by omega)]
    omega
  show (if _ then _ else _) = _
  rw [if_neg hmod, hwalk]

/-- **Difficulty retarget.** On the main network, at every retarget height of every header chain with
    valid targets, nothing wraps and the bits returned are the compact form of the scaled target, cut
    off at the limit. The new target is at most four times the old one, and it does not fall when the
    timespan grows. -/
theorem getNextWorkRequired_retarget :
    (∀ (pindexLast : CBlockIndex) (ancestors : List CBlockIndex) (nBlockTime : Int),
      HeaderChain (pindexLast :: ancestors) →
      (∀ pindex ∈ pindexLast :: ancestors, validTarget mainParams pindex.nBits = true) →
      (pindexLast.nHeight + 1) % 720 = 0 → let T := target pindexLast.nBits
      ∃ pindexFirst ∈ pindexLast :: ancestors, pindexFirst.nHeight =
          pindexLast.nHeight - (if pindexLast.nHeight + 1 = 720 then 719 else 720) ∧
        let a := actualTimespan pindexLast pindexFirst
        (scaled mainParams (setCompact pindexLast.nBits).1 a).value =
          (if T < 2 ^ 235 then T else T / 2) * a ∧ (∃ q : ArithUint256,
          (scaled mainParams (setCompact pindexLast.nBits).1 a).divide
              (ofUInt64 (BitVec.ofInt 64 mainParams.nPowTargetTimespan)) = .ok q ∧
            (2 ^ 235 ≤ T → (q.shiftLeft 1).value = 2 * q.value)) ∧
        ∃ nBits, getNextWorkRequired mainParams (pindexLast :: ancestors) nBlockTime = .ok nBits ∧
          nBits = BitVec.ofNat 32 (encode
            (min mainParams.powLimit.value (scaledTarget T a timespan))) ∧
          target nBits ≤ 4 * T ∧ target nBits ≤ mainParams.powLimit.value) ∧
    ∀ (pindexLast pindexFirst pindexLast' pindexFirst' : CBlockIndex) (nBits nBits' : BitVec 32),
      validTarget mainParams pindexLast.nBits = true → pindexLast'.nBits = pindexLast.nBits →
      pindexLast.getBlockTime - pindexFirst.getBlockTime ≤
        pindexLast'.getBlockTime - pindexFirst'.getBlockTime →
      calculateNextWorkRequired mainParams pindexLast pindexFirst.getBlockTime = .ok nBits →
      calculateNextWorkRequired mainParams pindexLast' pindexFirst'.getBlockTime = .ok nBits' →
      target nBits ≤ target nBits' := by
  constructor
  · intro pindexLast ancestors nBlockTime hchain hvalid hretarget T
    have hlt := target_lt_of_validTarget (hvalid pindexLast List.mem_cons_self)
    obtain ⟨first, hmem, hheight, hnext⟩ := getNextWorkRequired_eq hchain hretarget nBlockTime
    have ha := actualTimespan_le pindexLast first
    obtain ⟨q, hq, hdouble, -⟩ := divide_scaled hlt ha
    refine ⟨first, hmem, hheight, value_scaled hlt ha, ⟨q, hq, hdouble⟩, _,
      hnext.trans (calculateNextWorkRequired_eq first hlt), rfl, ?_, ?_⟩
    -- the compact form rounds down
    · rw [target_next]
      calc floor (nextTarget pindexLast first) ≤ nextTarget pindexLast first :=
            floor_le _
        _ ≤ scaledTarget T (actualTimespan pindexLast first) timespan := Nat.min_le_right _ _
        _ ≤ 4 * T := scaledTarget_le T ha
    · rw [target_next]
      exact (floor_le _).trans (Nat.min_le_left _ _)
  · intro last first last' first' nBits nBits' hvalid hbits hspan hcalc hcalc'
    have hlt := target_lt_of_validTarget hvalid
    rw [calculateNextWorkRequired_eq first hlt] at hcalc
    rw [calculateNextWorkRequired_eq first' (by rwa [hbits])] at hcalc'
    injection hcalc with hcalc
    injection hcalc' with hcalc'
    -- clamping, scaling, the limit and the compact form are all monotone
    have ha : actualTimespan last first ≤ actualTimespan last' first' := by
      unfold actualTimespan
      omega
    rw [← hcalc, ← hcalc', target_next, target_next]
    apply floor_mono
    rw [nextTarget, nextTarget, hbits]
    exact min_le_min_left _ (scaledTarget_mono _ ha)

/-- Blocks at the limit, two minutes apart. -/
def steadyChain : Nat → List CBlockIndex
  | 0 => []
  | n + 1 =>
    { nHeight := n, nTime := BitVec.ofNat 32 (120 * n), nBits := 0x1e0fffff#32 } :: steadyChain n

theorem steadyChain_headerChain : HeaderChain (steadyChain n) ∧ (steadyChain n).length = n ∧
      ∀ pindex ∈ steadyChain n, pindex.nBits = 0x1e0fffff#32 := by
  induction n with
  | zero => simp [steadyChain, HeaderChain]
  | succ n ih => simpa [steadyChain, HeaderChain, ih.2.1] using ⟨ih.1, ih.2.2⟩

/-- The first retarget of such a chain. -/
theorem getNextWorkRequired_steadyChain : HeaderChain (steadyChain 720) ∧
      ∃ nBits, getNextWorkRequired mainParams (steadyChain 720) 86400 = .ok nBits ∧
        target nBits ≤ mainParams.powLimit.value := by
  obtain ⟨hchain, -, hbits⟩ := steadyChain_headerChain 720
  have hvalid : ∀ pindex ∈ steadyChain 720, validTarget mainParams pindex.nBits = true := by
    intro pindex hpindex
    rw [hbits pindex hpindex]
    decide
  obtain ⟨-, -, -, -, -, nBits, hnext, -, -, hle⟩ :=
    getNextWorkRequired_retarget.1 _ (steadyChain 719) 86400 hchain hvalid rfl
  exact ⟨hchain, nBits, hnext, hle⟩

end Defcoin.Pow
