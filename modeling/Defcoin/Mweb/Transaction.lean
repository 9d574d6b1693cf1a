import Mathlib.Algebra.BigOperators.Group.List.Basic
import Mathlib.Data.List.Lex
import Defcoin.Framework.Outcome
import Defcoin.Framework.Sorting
import Defcoin.Mweb.Block

/-! # Transactions of the extension block

  Weights, the order of inputs, outputs and kernels, what `Validate` checks, and the aggregation of
  several transactions into one.

  A `TxBody` that was read from a stream has bounded vectors. The body of an aggregate is only held
  in memory and can be of any size, so the functions here work on the vectors, `TxVectors`.
-/

namespace Defcoin.Mweb

open ByteCodec Kernel Sorting Prod.Lex List

/-- The vectors of a `TxBody` in memory. -/
structure TxVectors where
  inputs : List Input
  outputs : List Output
  kernels : List Kernel
  deriving DecidableEq

def TxBody.vectors (b : TxBody) : TxVectors where
  inputs := b.inputs
  outputs := b.outputs
  kernels := b.kernels

/-- `mw::Transaction` -/
structure Transaction where
  kernelOffset : BlindingFactor
  stealthOffset : BlindingFactor
  body : TxBody

/-! ### Weight -/

namespace Weight

def BYTES_PER_WEIGHT : Nat := 42
def BASE_KERNEL_WEIGHT : Nat := 2
def KERNEL_WITH_STEALTH_WEIGHT : Nat := 3
def BASE_OUTPUT_WEIGHT : Nat := 17
def STANDARD_OUTPUT_WEIGHT : Nat := 18
def MAX_NUM_INPUTS : Nat := 50000
def MAX_BLOCK_WEIGHT : Nat := 200000

/-- `ExtraBytesToWeight` -/
def extraBytesToWeight (extra_bytes : Nat) : Nat :=
  (extra_bytes + (BYTES_PER_WEIGHT - 1)) / BYTES_PER_WEIGHT

/-- `CalcInputWeight` -/
def calcInputWeight (i : Input) : Nat := extraBytesToWeight i.extraData.length

/-- `CalcKernelWeight` -/
def calcKernelWeight (k : Kernel) : Nat :=
  (if k.stealthExcess.isSome then KERNEL_WITH_STEALTH_WEIGHT else BASE_KERNEL_WEIGHT) +
    (k.pegouts.map fun pegout => extraBytesToWeight pegout.scriptPubKey.length).sum +
    extraBytesToWeight k.extraData.length

/-- `CalcOutputWeight` -/
def calcOutputWeight (o : Output) : Nat :=
  (if o.message.hasStandardFields then STANDARD_OUTPUT_WEIGHT else BASE_OUTPUT_WEIGHT) +
    extraBytesToWeight o.message.extra_data.length

/-- `Calculate` -/
def calculate (b : TxVectors) : Nat :=
  (b.inputs.map calcInputWeight).sum + (b.kernels.map calcKernelWeight).sum +
    (b.outputs.map calcOutputWeight).sum

/-- `ExceedsMaximum` -/
def exceedsMaximum (b : TxVectors) : Bool :=
  decide (b.inputs.length > MAX_NUM_INPUTS) || decide (calculate b > MAX_BLOCK_WEIGHT)

theorem outputs_length_le (os : List Output) :
    BASE_OUTPUT_WEIGHT * os.length ≤ (os.map calcOutputWeight).sum := by
  induction os with
  | nil => exact Nat.le_refl 0
  | cons o os ih =>
    have hone : BASE_OUTPUT_WEIGHT ≤ calcOutputWeight o := by
      unfold calcOutputWeight STANDARD_OUTPUT_WEIGHT BASE_OUTPUT_WEIGHT
      split <;> omega
    rw [map_cons, sum_cons, length_cons, Nat.mul_succ]
    omega

end Weight

/-! ### Order -/

/-- The loop of `BigInt::operator<`. -/
def ltBytes : Bytes → Bytes → Bool
  | a :: as, b :: bs => if a = b then ltBytes as bs else decide (a < b)
  | _, _ => false

/-- `BigInt::operator<` -/
def BigInt.lt {n : Nat} (a b : BigInt n) : Bool := ltBytes a.bytes b.bytes

/-- `InputSort` -/
def inputSort (a b : Input) : Bool := a.outputID.lt b.outputID

section Comparators
variable (cr : Crypto)

/-- `OutputSort` -/
def outputSort (a b : Output) : Bool := (a.getOutputID cr).lt (b.getOutputID cr)

/-- `KernelSort` -/
def kernelSort (a b : Kernel) : Bool :=
  match a.getSupplyChange, b.getSupplyChange with
  | some x, some y => decide (x > y) || (decide (x = y) && (a.getKernelID cr).lt (b.getKernelID cr))
  | some _, none => true
  | none, some _ => false
  | none, none => (a.getKernelID cr).lt (b.getKernelID cr)

end Comparators

/-- The bytes as numbers, which are compared in the order of lists. -/
def BigInt.key {n : Nat} (b : BigInt n) : List Nat := b.bytes.map UInt8.toNat

theorem ltBytes_iff : ∀ as bs : Bytes, as.length = bs.length →
    (ltBytes as bs = true ↔ as.map UInt8.toNat < bs.map UInt8.toNat) := by
  intro as
  induction as with
  | nil =>
    intro bs h
    rw [length_eq_zero_iff.mp h.symm]
    simp [ltBytes]
  | cons a as ih =>
    intro bs h
    rcases bs with - | ⟨b, bs⟩
    · cases h
    · have hlen : as.length = bs.length := Nat.succ.inj h
      rw [ltBytes, map_cons, map_cons, cons_lt_cons_iff]
      by_cases hab : a = b
      · rw [if_pos hab, ih bs hlen, hab]
        simp
      · have hne : a.toNat ≠ b.toNat := fun heq => hab (UInt8.toNat_inj.mp heq)
        rw [if_neg hab, decide_eq_true_iff, UInt8.lt_iff_toNat_lt]
        simp [hne]

theorem BigInt.lt_iff {n : Nat} (a b : BigInt n) : a.lt b = true ↔ a.key < b.key :=
  ltBytes_iff a.bytes b.bytes (a.size.trans b.size.symm)

theorem inputSort_byKey : ByKey inputSort fun i : Input => i.outputID.key :=
  fun a b => BigInt.lt_iff a.outputID b.outputID

theorem outputSort_byKey (cr : Crypto) :
    ByKey (outputSort cr) fun o : Output => (o.getOutputID cr).key :=
  fun a b => BigInt.lt_iff (a.getOutputID cr) (b.getOutputID cr)

/-- Kernels with a defined supply change come first, those that add more before the others. -/
def Kernel.rank (k : Kernel) : Nat ×ₗ Int :=
  match k.getSupplyChange with
  | some x => toLex (0, -x)
  | none => toLex (1, 0)

theorem kernelSort_byKey (cr : Crypto) :
    ByKey (kernelSort cr) fun k : Kernel => toLex (k.rank, (k.getKernelID cr).key) := by
  intro a b
  rw [toLex_lt_toLex]
  unfold kernelSort rank
  rcases a.getSupplyChange with - | x <;> rcases b.getSupplyChange with - | y
  · simp only [BigInt.lt_iff, lt_self_iff_false, true_and, false_or]
  · simp [toLex_lt_toLex]
  · simp [toLex_lt_toLex]
  · simp only [toLex_lt_toLex, lt_self_iff_false, true_and, false_or, neg_lt_neg_iff,
      Bool.or_eq_true, Bool.and_eq_true, decide_eq_true_eq, BigInt.lt_iff, EmbeddingLike.apply_eq_iff_eq,
      Prod.mk.injEq, neg_inj]

theorem kernels_descending {cr : Crypto} {ks : List Kernel} {change : Kernel → Int}
    (hsorted : isSorted (kernelSort cr) ks = true)
    (hchange : ∀ k ∈ ks, k.getSupplyChange = some (change k)) : (ks.map change).Pairwise (· ≥ ·) := by
  have hpair := (kernelSort_byKey cr).isSorted_iff ks |>.mp hsorted
  rw [pairwise_map]
  apply hpair.imp_of_mem
  intro a b ha hb hle
  have hrank : a.rank ≤ b.rank := monotone_fst _ _ hle
  rw [rank, rank, hchange a ha, hchange b hb, toLex_le_toLex] at hrank
  simpa using hrank

/-! ### Signed messages -/

section Messages
variable (cr : Crypto)

/-- `Kernel::GetSignatureMessage` -/
def Kernel.getSignatureMessage (k : Kernel) : Hash :=
  cr.hash ([k.features] ++ k.excess.bytes ++ k.serOptionalFields)

/-- `Kernel::BuildSignedMsg` -/
def Kernel.buildSignedMsg (k : Kernel) : Except Error SignedMessage := do
  let excess_key ← orCrypto "Failed to convert commitment to pubkey" (cr.publicKeyFrom k.excess)
  let public_key ← match k.stealthExcess with
    | none => pure excess_key
    | some stealth_excess => do
      let product ← orCrypto "secp256k1_ec_pubkey_tweak_mul failed"
        (cr.publicKeyMul excess_key (cr.hash (excess_key.bytes ++ stealth_excess.bytes)))
      orCrypto "Failed to combine public keys." (cr.publicKeysAdd [product, stealth_excess])
  pure ⟨k.getSignatureMessage cr, public_key, k.signature⟩

/-- `Input::BuildSignedMsg` -/
def Input.buildSignedMsg (i : Input) : Except Error SignedMessage := do
  let message := cr.hash ([i.features] ++ i.outputID.bytes ++
    if i.features &&& 0x02 != 0 then serByteVector i.extraData else [])
  let public_key ←
    if i.features &&& 0x01 != 0 then
      match i.inputPubKey with
      | none => throw (.assertion "this->is_initialized()")
      | some input_key => do
        let product ← orCrypto "secp256k1_ec_pubkey_tweak_mul failed"
          (cr.publicKeyMul i.outputPubKey (cr.hash (input_key.bytes ++ i.outputPubKey.bytes)))
        orCrypto "Failed to combine public keys." (cr.publicKeysAdd [product, input_key])
    else pure i.outputPubKey
  pure ⟨message, public_key, i.signature⟩

/-- `Output::BuildSignedMsg` -/
def Output.buildSignedMsg (o : Output) : SignedMessage where
  msgHash := cr.hash (o.commitment.bytes ++ o.senderPubKey.bytes ++ o.receiverPubKey.bytes ++
    (o.message.getHash cr).bytes ++ (cr.hash o.proof.bytes).bytes)
  publicKey := o.senderPubKey
  signature := o.signature

/-- `Output::BuildProofData` -/
def Output.buildProofData (o : Output) : ProofData where
  commitment := o.commitment
  proof := o.proof
  extraData := serOutputMessage o.message

end Messages

/-! ### Validation -/

namespace TxVectors

/-- `GetSpentIDs` -/
def getSpentIDs (b : TxVectors) : List Hash := b.inputs.map Input.outputID

section Validation
variable (cr : Crypto) (b : TxVectors)

/-- `GetOutputIDs` -/
def getOutputIDs : List Hash := b.outputs.map (Output.getOutputID cr)

/-- `GetKernelIDs` -/
def getKernelIDs : List Hash := b.kernels.map (getKernelID cr)

/-- The sortedness test of `TxBody::Validate`. -/
def isSorted : Bool :=
  Sorting.isSorted inputSort b.inputs && Sorting.isSorted (outputSort cr) b.outputs &&
    Sorting.isSorted (kernelSort cr) b.kernels

/-- The signed messages of kernels, inputs and outputs, in this order. -/
def buildSignedMsgs : Except Error (List SignedMessage) := do
  let kernels ← b.kernels.mapM (buildSignedMsg cr)
  let inputs ← b.inputs.mapM (Input.buildSignedMsg cr)
  pure (kernels ++ inputs ++ b.outputs.map (Output.buildSignedMsg cr))

/-- `TxBody::Validate` -/
def validate : Except Error Unit := do
  if Weight.exceedsMaximum b then throw (.validation .BLOCK_WEIGHT)
  if !b.isSorted cr then throw (.validation .NOT_SORTED)
  if ¬b.getSpentIDs.Nodup then throw (.validation .DUPLICATES)
  if ¬(b.getOutputIDs cr).Nodup then throw (.validation .DUPLICATES)
  if ¬(b.getKernelIDs cr).Nodup then throw (.validation .DUPLICATES)
  let signatures ← b.buildSignedMsgs cr
  if !cr.schnorrBatchVerify signatures then throw (.validation .INVALID_SIG)
  if !cr.bulletproofsBatchVerify (b.outputs.map Output.buildProofData) then
    throw (.validation .BULLETPROOF)

/-- What a body passes when `Validate` does not throw. -/
structure Valid (b : TxVectors) : Prop where
  count : b.inputs.length ≤ Weight.MAX_NUM_INPUTS
  weight : Weight.calculate b ≤ Weight.MAX_BLOCK_WEIGHT
  sorted : b.isSorted cr = true
  spent : b.getSpentIDs.Nodup
  outputs : (b.getOutputIDs cr).Nodup
  kernels : (b.getKernelIDs cr).Nodup
  signatures : ∃ msgs, b.buildSignedMsgs cr = .ok msgs ∧ cr.schnorrBatchVerify msgs = true
  proofs : cr.bulletproofsBatchVerify (b.outputs.map Output.buildProofData) = true

theorem validate_eq_ok {b : TxVectors} : b.validate cr = .ok () ↔ b.Valid cr := by
  have hmax : Weight.exceedsMaximum b = true ↔
      ¬(b.inputs.length ≤ Weight.MAX_NUM_INPUTS ∧ Weight.calculate b ≤ Weight.MAX_BLOCK_WEIGHT) := by
    rw [Weight.exceedsMaximum, Bool.or_eq_true, decide_eq_true_iff, decide_eq_true_iff]
    omega
  unfold validate
  simp only [Outcome.unless_eq_ok, Outcome.bind_eq_ok, hmax, not_not, Bool.not_eq_true',
    Bool.not_eq_false]
  have hlast : ∀ p : Bool, (if p = false then throw (.validation .BULLETPROOF) else pure PUnit.unit :
      Except Error PUnit) = .ok () ↔ p = true := by
    intro p
    rcases p with - | -
    · exact iff_of_false nofun nofun
    · exact iff_of_true rfl rfl
  constructor
  · intro h
    obtain ⟨hweight, hsorted, hspent, houtputs, hkernels, msgs, hmsgs, hverify, hproofs⟩ := h
    exact ⟨hweight.1, hweight.2, hsorted, hspent, houtputs, hkernels, ⟨msgs, hmsgs, hverify⟩,
      (hlast _).mp hproofs⟩
  · intro h
    obtain ⟨msgs, hmsgs, hverify⟩ := h.signatures
    exact ⟨⟨h.count, h.weight⟩, h.sorted, h.spent, h.outputs, h.kernels, msgs, hmsgs, hverify,
      (hlast _).mpr h.proofs⟩

end Validation
end TxVectors

section Validation
variable (cr : Crypto)

/-- `KernelSumValidator::ValidateForTx` -/
def validateForTx (tx : Transaction) : Except Error Unit :=
  match tx.body.getSupplyChange with
  | none => throw (.validation .AMOUNT_OUT_OF_RANGE)
  | some coins_added =>
    validateSums cr (tx.body.inputs.map Input.commitment) (tx.body.outputs.map Output.commitment)
      (tx.body.kernels.map excess) tx.kernelOffset coins_added

/-- The sum of keys, or the default key for none. -/
def addKeys (keys : List PublicKey) : Except Error PublicKey :=
  if keys.isEmpty then .ok BigInt.zero
  else orCrypto "Failed to combine public keys." (cr.publicKeysAdd keys)

def offsetKeys (stealth_offset : BlindingFactor) : Except Error (List PublicKey) :=
  if stealth_offset.isZero then .ok []
  else do
    let key ← orCrypto "Failed to verify secret key" (cr.publicKeysCalculate stealth_offset)
    pure [key]

/-- `StealthSumValidator::Validate` -/
def validateStealthSums (stealth_offset : BlindingFactor) (body : TxVectors) : Except Error Unit := do
  let lhs_total ← addKeys cr (body.outputs.map Output.senderPubKey ++ body.inputs.filterMap Input.inputPubKey)
  let offset_keys ← offsetKeys cr stealth_offset
  let rhs_total ← addKeys cr (body.kernels.filterMap stealthExcess ++
    body.inputs.map Input.outputPubKey ++ offset_keys)
  if lhs_total ≠ rhs_total then throw (.validation .STEALTH_SUMS)

/-- `Transaction::Validate` -/
def Transaction.validate (tx : Transaction) : Except Error Unit := do
  tx.body.vectors.validate cr
  validateForTx cr tx
  validateStealthSums cr tx.stealthOffset tx.body.vectors

end Validation

/-! ### Aggregation -/

/-- `mw::Transaction` as `Aggregate` returns it. -/
structure Aggregate where
  kernelOffset : BlindingFactor
  stealthOffset : BlindingFactor
  body : TxVectors

/-- The vectors of several transactions, one after the other. -/
def collect (txs : List Transaction) : TxVectors where
  inputs := txs.flatMap fun tx => tx.body.inputs
  outputs := txs.flatMap fun tx => tx.body.outputs
  kernels := txs.flatMap fun tx => tx.body.kernels

section Aggregation
variable (cr : Crypto)

/-- The sorts of `Transaction::Create`. -/
def TxVectors.sort (b : TxVectors) : TxVectors where
  inputs := Sorting.sort inputSort b.inputs
  outputs := Sorting.sort (outputSort cr) b.outputs
  kernels := Sorting.sort (kernelSort cr) b.kernels

/-- `Aggregation::Aggregate` -/
def aggregate : List Transaction → Except Error Aggregate
  | [] => .ok ⟨BigInt.zero, BigInt.zero, ⟨[], [], []⟩⟩
  | [tx] => .ok ⟨tx.kernelOffset, tx.stealthOffset, tx.body.vectors⟩
  | txs => do
    let kernel_offset ← addBlindingFactors cr (txs.map Transaction.kernelOffset) []
    let stealth_offset ← addBlindingFactors cr (txs.map Transaction.stealthOffset) []
    pure ⟨kernel_offset, stealth_offset, (collect txs).sort cr⟩

end Aggregation

structure TxVectors.Perm (b c : TxVectors) : Prop where
  inputs : b.inputs.Perm c.inputs
  outputs : b.outputs.Perm c.outputs
  kernels : b.kernels.Perm c.kernels

theorem TxVectors.sort_perm (cr : Crypto) (b : TxVectors) : (b.sort cr).Perm b where
  inputs := Sorting.sort_perm ..
  outputs := Sorting.sort_perm ..
  kernels := Sorting.sort_perm ..

theorem TxVectors.isSorted_sort (cr : Crypto) (b : TxVectors) : (b.sort cr).isSorted cr = true := by
  rw [TxVectors.isSorted, Bool.and_eq_true, Bool.and_eq_true]
  exact ⟨⟨inputSort_byKey.isSorted_sort b.inputs, (outputSort_byKey cr).isSorted_sort b.outputs⟩,
    (kernelSort_byKey cr).isSorted_sort b.kernels⟩

theorem TxVectors.Perm.weight_eq {b c : TxVectors} (h : b.Perm c) :
    Weight.calculate b = Weight.calculate c := by
  rw [Weight.calculate, Weight.calculate, (h.inputs.map _).sum_eq, (h.outputs.map _).sum_eq,
    (h.kernels.map _).sum_eq]

theorem collect_cons (tx : Transaction) (txs : List Transaction) :
    collect (tx :: txs) = ⟨tx.body.inputs ++ (collect txs).inputs,
      tx.body.outputs ++ (collect txs).outputs, tx.body.kernels ++ (collect txs).kernels⟩ := rfl

end Defcoin.Mweb
