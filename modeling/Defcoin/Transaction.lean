import Defcoin.Framework.Outcome
import Defcoin.Mweb.Block
import Mathlib.Algebra.BigOperators.Group.List.Basic

/-! # Transactions and blocks

  `CTransaction` and `CBlock`, the script templates the extension block uses, and the sizes and
  totals the validation code computes from them. A transaction and a block carry the hash the source
  computes, so that nothing depends on how hashes come about.
-/

namespace Defcoin

open ByteCodec

/-! ### Scripts of the extension block -/

namespace CScript

/-- `CScript::IsWitnessProgram`: the version and the program. -/
def isWitnessProgram : CScript → Option (Nat × Bytes)
  | op :: size :: program =>
    let length := program.length + 2
    if length < 4 ∨ length > 42 then none
    else if op.toNat ≠ 0 ∧ (op.toNat < 0x51 ∨ op.toNat > 0x60) then none
    else if size.toNat + 2 = length then
      -- `DecodeOP_N`
      some (if op.toNat = 0 then 0 else op.toNat - 0x50, program)
    else none
  | _ => none

/-- A 32-byte witness program of the given version, as a hash. -/
def mwebProgram (version : Nat) (s : CScript) : Option Mweb.Hash :=
  match s.isWitnessProgram with
  | some (v, program) => if h : v = version ∧ program.length = 32 then some ⟨program, h.2⟩ else none
  | none => none

/-- `CScript::IsMWEBPegin`: the kernel id. -/
def isMWEBPegin (s : CScript) : Option Mweb.Hash := s.mwebProgram 9

end CScript

/-! ### Transactions -/

/-- `CTxIn` -/
structure CTxIn where
  prevout : COutPoint
  scriptSig : CScript
  nSequence : BitVec 32
  scriptWitness : List Bytes
  deriving DecidableEq

/-- `CTransaction`, with the `GetHash()` it caches. -/
structure CTransaction where
  vin : List CTxIn
  vout : List CTxOut
  nVersion : BitVec 32
  nLockTime : BitVec 32
  mweb_tx : Option Mweb.TxBody
  m_hogEx : Bool
  hash : Uint256

def CScript.serializeSize (s : CScript) : Nat := (writeCompactSize s.length).length + s.length

/-- `GetSerializeSize` of an input without its witness. -/
def CTxIn.serializeSize (txin : CTxIn) : Nat := 36 + txin.scriptSig.serializeSize + 4

/-- `GetSerializeSize` of an output. -/
def CTxOut.serializeSize (out : CTxOut) : Nat := 8 + out.scriptPubKey.serializeSize

namespace CTransaction

variable (tx : CTransaction)

/-- `CTransaction::IsCoinBase` -/
def isCoinBase : Bool :=
  match tx.vin with
  | [txin] => txin.prevout.isNull
  | _ => false

/-- `CTransaction::IsHogEx` -/
def isHogEx : Bool := tx.m_hogEx

/-- `CTransaction::HasMWEBTx` -/
def hasMWEBTx : Bool := tx.mweb_tx.isSome

/-- `CTransaction::IsMWEBOnly` -/
def isMWEBOnly : Bool := tx.hasMWEBTx && tx.vin.isEmpty && tx.vout.isEmpty

/-- `GetSerializeSize` with SERIALIZE_TRANSACTION_NO_WITNESS and SERIALIZE_NO_MWEB. -/
def serializeSize : Nat :=
  4 + ((writeCompactSize tx.vin.length).length + (tx.vin.map CTxIn.serializeSize).sum) +
    ((writeCompactSize tx.vout.length).length + (tx.vout.map CTxOut.serializeSize).sum) + 4

/-- The loop of `CTransaction::GetValueOut`. -/
def sumValueOut (nValueOut : Int) : List CTxOut → Except Fault Int
  | [] => if moneyRange nValueOut then .ok nValueOut else .error (.assertion "MoneyRange(nValueOut)")
  | tx_out :: rest =>
    if !moneyRange tx_out.nValue then .error (.runtimeError "GetValueOut: value out of range")
    else do
      let next ← toAmount (nValueOut + tx_out.nValue)
      if !moneyRange next then .error (.runtimeError "GetValueOut: value out of range")
      else sumValueOut next rest

/-- `CTransaction::GetValueOut` -/
def getValueOut : Except Fault Int := sumValueOut 0 tx.vout

def valueOut : Int := (tx.vout.map CTxOut.nValue).sum

theorem vin_length_le_serializeSize : tx.vin.length ≤ tx.serializeSize := by
  have hin : ∀ txin ∈ tx.vin, 1 ≤ txin.serializeSize := by
    unfold CTxIn.serializeSize
    omega
  have hsum := List.length_le_sum_of_one_le (tx.vin.map CTxIn.serializeSize) (by simpa using hin)
  rw [List.length_map] at hsum
  unfold serializeSize
  omega

theorem sumValueOut_spec {total v : Int} {vout : List CTxOut} (h : sumValueOut total vout = .ok v) :
    v = total + (vout.map CTxOut.nValue).sum ∧ moneyRange v = true ∧
      ∀ out ∈ vout, moneyRange out.nValue = true := by
  induction vout generalizing total with
  | nil =>
    unfold sumValueOut at h
    split at h
    · next hrange =>
      cases h
      exact ⟨by simp, hrange, by simp⟩
    · cases h
  | cons out rest ih =>
    unfold sumValueOut at h
    split at h
    · cases h
    · next hrange =>
      obtain ⟨next, hnext, h⟩ := Outcome.bind_eq_ok.mp h
      split at h
      · cases h
      · obtain ⟨heq, hv, hall⟩ := ih h
        refine ⟨?_, hv, ?_⟩
        · rw [heq, toAmount_eq_ok hnext, List.map_cons, List.sum_cons]
          omega
        · intro o ho
          rcases List.mem_cons.mp ho with rfl | ho
          · simpa using hrange
          · exact hall o ho

/-- What a returned total says: it is exact, and every output and the total are in range. -/
theorem getValueOut_spec {tx : CTransaction} {v : Int} (h : tx.getValueOut = .ok v) :
    v = tx.valueOut ∧ moneyRange v = true ∧ ∀ out ∈ tx.vout, moneyRange out.nValue = true := by
  obtain ⟨heq, hv, hall⟩ := sumValueOut_spec h
  exact ⟨by rw [heq, valueOut, zero_add], hv, hall⟩

end CTransaction

/-! ### Blocks -/

/-- `CBlock`, with its `GetHash()`. -/
structure CBlock where
  hash : Uint256
  hashMerkleRoot : Uint256
  vtx : List CTransaction
  mweb_block : Option Mweb.Block

namespace CBlock

/-- `GetSerializeSize` with SERIALIZE_TRANSACTION_NO_WITNESS and SERIALIZE_NO_MWEB. -/
def serializeSize (block : CBlock) : Nat :=
  80 + (writeCompactSize block.vtx.length).length + (block.vtx.map CTransaction.serializeSize).sum

/-- `CBlock::GetHogEx` -/
def getHogEx (block : CBlock) : Except Fault (Option CTransaction) :=
  match block.vtx.getLast? with
  | some tx =>
    if block.vtx.length ≥ 2 ∧ tx.isHogEx = true then
      if tx.vout.isEmpty then .error (.assertion "!vtx.back()->vout.empty()") else .ok (some tx)
    else .ok none
  | none => .ok none

theorem mem_of_getHogEx {block : CBlock} {tx : CTransaction} (h : block.getHogEx = .ok (some tx)) :
    tx ∈ block.vtx := by
  unfold getHogEx at h
  split at h
  · next last hlast =>
    split at h
    · split at h
      · cases h
      · cases h
        exact List.mem_of_getLast? hlast
    · cases h
  · cases h

end CBlock

end Defcoin
