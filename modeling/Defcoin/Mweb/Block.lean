import Defcoin.Mweb.Models

/-! # Extension blocks and their sums

  Inputs, kernels and blocks, the amounts kernels declare, and the check that commitments balance:
  outputs minus inputs minus the coins added must equal the kernel excesses plus the offset.

  `Crypto` collects what is computed by the vendored BLAKE3 and secp256k1-zkp libraries.
-/

namespace Defcoin.Mweb

open ByteCodec

/-! ### Vendored libraries -/

/-- `SignedMessage` -/
structure SignedMessage where
  msgHash : Hash
  publicKey : PublicKey
  signature : Signature
  deriving DecidableEq

/-- `ProofData` -/
structure ProofData where
  commitment : Commitment
  proof : RangeProof
  extraData : Bytes
  deriving DecidableEq

/-- The functions of the hash and curve libraries. `none` is the failure of a curve operation. -/
structure Crypto where
  /-- `blake3_hasher`: the hash of everything appended -/
  hash : Bytes → Hash
  /-- `secp256k1_pedersen_commit` -/
  pedersenCommit : Nat → BlindingFactor → Option Commitment
  /-- `secp256k1_pedersen_commit_sum` -/
  pedersenCommitSum : List Commitment → List Commitment → Option Commitment
  /-- `secp256k1_pedersen_blind_sum` -/
  pedersenBlindSum : List BlindingFactor → List BlindingFactor → Option BlindingFactor
  /-- `PublicKey::From(Commitment)` -/
  publicKeyFrom : Commitment → Option PublicKey
  /-- `PublicKey::Mul` -/
  publicKeyMul : PublicKey → Hash → Option PublicKey
  /-- `PublicKeys::Add` -/
  publicKeysAdd : List PublicKey → Option PublicKey
  /-- `PublicKeys::Calculate` -/
  publicKeysCalculate : BlindingFactor → Option PublicKey
  /-- `Schnorr::BatchVerify` -/
  schnorrBatchVerify : List SignedMessage → Bool
  /-- `Bulletproofs::BatchVerify` -/
  bulletproofsBatchVerify : List ProofData → Bool

/-- The hash of the empty string, which is all that blocks without inputs, outputs and kernels
    need. -/
def emptyBlockCrypto : Crypto where
  hash := fun _ => ⟨[0xaf, 0x13, 0x49, 0xb9, 0xf5, 0xf9, 0xa1, 0xa6, 0xa0, 0x40, 0x4d, 0xea, 0x36,
    0xdc, 0xc9, 0x49, 0x9b, 0xcb, 0x25, 0xc9, 0xad, 0xc1, 0x12, 0xb7, 0xcc, 0x9a, 0x93, 0xca, 0xe4,
    0x1f, 0x32, 0x62], by decide⟩
  pedersenCommit := fun _ _ => none
  pedersenCommitSum := fun _ _ => none
  pedersenBlindSum := fun _ _ => none
  publicKeyFrom := fun _ => none
  publicKeyMul := fun _ _ => none
  publicKeysAdd := fun _ => none
  publicKeysCalculate := fun _ => none
  schnorrBatchVerify := fun _ => true
  bulletproofsBatchVerify := fun _ => true

/-- `OutputMessage::GetHash` -/
def OutputMessage.getHash (cr : Crypto) (m : OutputMessage) : Hash := cr.hash (serOutputMessage m)

/-- `Output::ComputeHash`: the range proof enters through its hash only. -/
def Output.getOutputID (cr : Crypto) (o : Output) : Hash :=
  cr.hash (o.commitment.bytes ++ o.senderPubKey.bytes ++ o.receiverPubKey.bytes ++
    (o.message.getHash cr).bytes ++ (cr.hash o.proof.bytes).bytes ++ o.signature.bytes)

/-- `UTXO::GetOutputID` -/
def UTXO.getOutputID (cr : Crypto) (u : UTXO) : Hash := u.output.getOutputID cr

/-! ### Inputs and kernels -/

/-- `Input` -/
structure Input where
  features : UInt8
  outputID : Hash
  commitment : Commitment
  inputPubKey : Option PublicKey
  outputPubKey : PublicKey
  extraData : Bytes
  signature : Signature
  deriving DecidableEq

/-- `PegInCoin` -/
structure PegInCoin where
  amount : Int
  kernelID : Hash
  deriving DecidableEq

/-- `PegOutCoin` -/
structure PegOutCoin where
  amount : Int
  scriptPubKey : CScript
  deriving DecidableEq

/-- `Kernel` -/
structure Kernel where
  features : UInt8
  fee : Option Int
  pegin : Option Int
  pegouts : List PegOutCoin
  lockHeight : Option Int
  stealthExcess : Option PublicKey
  extraData : Bytes
  excess : Commitment
  signature : Signature
  deriving DecidableEq

/-- `PegOutCoin` serialisation. -/
def serPegOutCoin (p : PegOutCoin) : Bytes :=
  writeVarInt 64 p.amount.toNat ++ serByteVector p.scriptPubKey

namespace Kernel

variable (k : Kernel)

/-- The optional fields, in the order in which both the serialisation and the signed message of a
    kernel append them. -/
def serOptionalFields : Bytes :=
  (match k.fee with | some fee => writeVarInt 64 fee.toNat | none => []) ++
  (match k.pegin with | some pegin => writeVarInt 64 pegin.toNat | none => []) ++
  (if k.pegouts.isEmpty then [] else writeVector serPegOutCoin k.pegouts) ++
  (match k.lockHeight with | some height => writeVarInt 32 height.toNat | none => []) ++
  (match k.stealthExcess with | some key => key.bytes | none => []) ++
  (if k.extraData.isEmpty then [] else serByteVector k.extraData)

/-- `Kernel::Serialize` -/
def serialize : Bytes :=
  [k.features] ++ k.serOptionalFields ++ k.excess.bytes ++ k.signature.bytes

/-- `Kernel::GetKernelID` -/
def getKernelID (cr : Crypto) (k : Kernel) : Hash := cr.hash k.serialize

def getFee : Int := k.fee.getD 0
def getPegIn : Int := k.pegin.getD 0

end Kernel

/-! ### Checked amounts -/

/-- `AmountUtil::IsValidAmountRange` -/
def isValidAmountRange (amount : Int) : Bool :=
  decide (amount ≥ -maxMoney) && decide (amount ≤ maxMoney)

/-- `AmountUtil::TrySafeAdd` -/
def trySafeAdd (lhs rhs : Int) : Option Int :=
  if (rhs > 0 ∧ lhs > int64Max - rhs) ∨ (rhs < 0 ∧ lhs < int64Min - rhs) then none
  else some (lhs + rhs)

/-- `AmountUtil::TrySafeSubtract` -/
def trySafeSubtract (lhs rhs : Int) : Option Int :=
  if (rhs > 0 ∧ lhs < int64Min + rhs) ∨ (rhs < 0 ∧ lhs > int64Max + rhs) then none
  else some (lhs - rhs)

/-- `AmountUtil::UnsignedAbs` -/
def unsignedAbs (amount : Int) : Nat :=
  if amount ≥ 0 then amount.toNat else (-(amount + 1)).toNat + 1

/-- The loop of `GetPegOutAmount`, `GetPegInAmount` and `GetTotalFee`: every partial sum must be a
    valid amount. -/
def sumMoney (total : Int) : List Int → Option Int
  | [] => some total
  | amount :: rest =>
    if moneyRange amount then do
      let next_total ← trySafeAdd total amount
      if moneyRange next_total then sumMoney next_total rest else none
    else none

/-- `Kernel::GetPegOutAmount` -/
def Kernel.getPegOutAmount (k : Kernel) : Option Int := sumMoney 0 (k.pegouts.map PegOutCoin.amount)

/-- `Kernel::GetSupplyChange` -/
def Kernel.getSupplyChange (k : Kernel) : Option Int :=
  match k.getPegOutAmount with
  | none => none
  | some pegout_amount =>
    if moneyRange k.getPegIn && moneyRange k.getFee then do
      let supply_after_fee ← trySafeSubtract k.getPegIn k.getFee
      let supply_change ← trySafeSubtract supply_after_fee pegout_amount
      if isValidAmountRange supply_change then some supply_change else none
    else none

/-! ### Bodies and blocks -/

/-- `TxBody`. A body is read from a stream, which bounds the sizes of its vectors and gives every
    output a well-formed message. -/
structure TxBody where
  inputs : List Input
  outputs : List Output
  kernels : List Kernel
  inputs_size : inputs.length ≤ maxSize
  outputs_size : outputs.length ≤ maxSize
  outputs_wf : ∀ o ∈ outputs, o.message.Wf

namespace TxBody

/-- `TxBody::GetPegIns` -/
def getPegIns (cr : Crypto) (b : TxBody) : List PegInCoin :=
  (b.kernels.filter fun k => k.pegin.isSome).map fun k => ⟨k.getPegIn, k.getKernelID cr⟩

variable (b : TxBody)

/-- `TxBody::GetPegOuts` -/
def getPegOuts : List PegOutCoin := b.kernels.flatMap Kernel.pegouts

/-- `TxBody::GetTotalFee` -/
def getTotalFee : Option Int := sumMoney 0 (b.kernels.map Kernel.getFee)

/-- `TxBody::GetPegInAmount` -/
def getPegInAmount : Option Int := sumMoney 0 (b.kernels.map Kernel.getPegIn)

/-- The loop of `TxBody::GetSupplyChange`. -/
def sumSupplyChange (total : Int) : List Kernel → Option Int
  | [] => some total
  | k :: rest => do
    let kernel_supply_change ← k.getSupplyChange
    let next_total ← trySafeAdd total kernel_supply_change
    if isValidAmountRange next_total then sumSupplyChange next_total rest else none

/-- `TxBody::GetSupplyChange` -/
def getSupplyChange : Option Int := sumSupplyChange 0 b.kernels

end TxBody

/-- `mw::Block` -/
structure Block where
  header : Header
  body : TxBody

/-! ### Commitment sums -/

section Sums
variable (cr : Crypto)

/-- A failed curve operation is thrown as a `CryptoException`. -/
def orCrypto {α : Type} (msg : String) : Option α → Except Error α
  | some a => .ok a
  | none => .error (.crypto msg)

/-- `Pedersen::Commit` -/
def commit (value : Nat) (blind : BlindingFactor) : Except Error Commitment :=
  orCrypto "Failed to create commitment." (cr.pedersenCommit value blind)

/-- `Pedersen::AddCommitments`: zero commitments are left out, and nothing sums to zero. -/
def addCommitments (positive negative : List Commitment) : Except Error Commitment :=
  let sanitizedPositive := positive.filter fun c => !c.isZero
  let sanitizedNegative := negative.filter fun c => !c.isZero
  if sanitizedPositive.isEmpty && sanitizedNegative.isEmpty then .ok BigInt.zero
  else orCrypto "secp256k1_pedersen_commit_sum error"
    (cr.pedersenCommitSum sanitizedPositive sanitizedNegative)

/-- `Pedersen::AddBlindingFactors` -/
def addBlindingFactors (positive negative : List BlindingFactor) : Except Error BlindingFactor :=
  let sanitizedPositive := positive.filter fun b => !b.isZero
  let sanitizedNegative := negative.filter fun b => !b.isZero
  if sanitizedPositive.isEmpty && sanitizedNegative.isEmpty then .ok BigInt.zero
  else orCrypto "secp256k1_pedersen_blind_sum error"
    (cr.pedersenBlindSum sanitizedPositive sanitizedNegative)

/-- The sum of the outputs less the inputs and the coins added from outside. -/
def sumUtxoCommitment (input_commits output_commits : List Commitment) (coins_added : Int) :
    Except Error Commitment := do
  let sum ← addCommitments cr output_commits input_commits
  if coins_added > 0 then
    let transparent ← commit cr coins_added.toNat BigInt.zero
    addCommitments cr [sum] [transparent]
  else if coins_added < 0 then
    let transparent ← commit cr (unsignedAbs coins_added) BigInt.zero
    addCommitments cr [sum, transparent] []
  else .ok sum

def sumExcessCommitment (kernel_commits : List Commitment) (offset : BlindingFactor) :
    Except Error Commitment := do
  let sum ← addCommitments cr kernel_commits []
  if !offset.isZero then
    let blinded ← commit cr 0 offset
    addCommitments cr [sum, blinded] []
  else .ok sum

/-- `KernelSumValidator::ValidateSums` -/
def validateSums (input_commits output_commits kernel_commits : List Commitment)
    (offset : BlindingFactor) (coins_added : Int) : Except Error Unit := do
  if !isValidAmountRange coins_added then throw (.validation .AMOUNT_OUT_OF_RANGE)
  let sum_utxo_commitment ← sumUtxoCommitment cr input_commits output_commits coins_added
  let sum_excess_commitment ← sumExcessCommitment cr kernel_commits offset
  if sum_utxo_commitment ≠ sum_excess_commitment then throw (.validation .BLOCK_SUMS)

/-- `KernelSumValidator::ValidateForBlock` -/
def validateForBlock (body : TxBody) (total_offset prev_total_offset : BlindingFactor) :
    Except Error Unit := do
  let block_offset ←
    if prev_total_offset.isZero then .ok total_offset
    else addBlindingFactors cr [total_offset] [prev_total_offset]
  match body.getSupplyChange with
  | none => throw (.validation .AMOUNT_OUT_OF_RANGE)
  | some coins_added =>
    validateSums cr (body.inputs.map Input.commitment) (body.outputs.map Output.commitment)
      (body.kernels.map Kernel.excess) block_offset coins_added

end Sums

end Defcoin.Mweb
