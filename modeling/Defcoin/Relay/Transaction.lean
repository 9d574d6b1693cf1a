import Defcoin.Mweb.Transaction
import Defcoin.Transaction

/-! # Loose transactions

  A transaction on its way through the network carries three parts: the canonical data, the
  witnesses and a whole `mw::Transaction`. Which of them its two identifiers commit to decides what
  a copy with one part exchanged can do.
-/

namespace Defcoin.Relay

/-- `CMutableTransaction` -/
structure CMutableTransaction where
  vin : List CTxIn
  vout : List CTxOut
  nVersion : BitVec 32
  nLockTime : BitVec 32
  mweb_tx : Option Mweb.Transaction
  m_hogEx : Bool

/-! ### Identifiers -/

/-- What `SerializeHash` hashes of a transaction: without witnesses, or with them. Neither form has
    the data of the extension block. -/
inductive TxPreimage where
  | noWitness (nVersion nLockTime : BitVec 32) (vin : List (COutPoint × CScript × BitVec 32))
      (vout : List CTxOut)
  | witness (nVersion nLockTime : BitVec 32) (vin : List CTxIn) (vout : List CTxOut)
  deriving DecidableEq

structure Hashing where
  cr : Mweb.Crypto
  serializeHash : TxPreimage → Uint256

/-- `uint256(hash.vec())`: the bytes, the least significant first. -/
def uint256OfHash (h : Mweb.Hash) : Uint256 :=
  h.bytes.foldr (fun byte (rest : Uint256) => rest <<< 8 ||| BitVec.ofNat 256 byte.toNat) 0

namespace CMutableTransaction

section
variable (tx : CMutableTransaction)

/-- `HasWitness` -/
def hasWitness : Bool := tx.vin.any fun txin => !txin.scriptWitness.isEmpty

/-- `HasMWEBTx` -/
def hasMWEBTx : Bool := tx.mweb_tx.isSome

/-- `IsMWEBOnly` -/
def isMWEBOnly : Bool := tx.hasMWEBTx && tx.vin.isEmpty && tx.vout.isEmpty

/-- The canonical part of a transaction, as it is hashed without witnesses. -/
def stripped : TxPreimage :=
  .noWitness tx.nVersion tx.nLockTime
    (tx.vin.map fun txin => (txin.prevout, txin.scriptSig, txin.nSequence)) tx.vout

def frontKernel : Option Mweb.Kernel :=
  if tx.isMWEBOnly then tx.mweb_tx.bind fun mw => mw.body.kernels.head? else none

end

section Ids
variable (H : Hashing) (tx : CMutableTransaction)

/-- `ComputeHash` -/
def computeHash : Uint256 :=
  match tx.frontKernel with
  | some kernel => uint256OfHash (kernel.getKernelID H.cr)
  | none => H.serializeHash tx.stripped

/-- `ComputeWitnessHash` -/
def computeWitnessHash : Uint256 :=
  if !tx.hasWitness then tx.computeHash H
  else H.serializeHash (.witness tx.nVersion tx.nLockTime tx.vin tx.vout)

/-- `CTransaction(tx)`, with its hash computed. -/
def toTransaction : CTransaction where
  vin := tx.vin
  vout := tx.vout
  nVersion := tx.nVersion
  nLockTime := tx.nLockTime
  mweb_tx := tx.mweb_tx.map Mweb.Transaction.body
  m_hogEx := tx.m_hogEx
  hash := tx.computeHash H

/-- `GetSpentIDs` of the extension part. -/
def getSpentIDs : List Mweb.Hash :=
  match tx.mweb_tx with
  | some mw => mw.body.vectors.getSpentIDs
  | none => []

/-- `GetOutputIDs` of the extension part. -/
def getOutputIDs : List Mweb.Hash :=
  match tx.mweb_tx with
  | some mw => mw.body.vectors.getOutputIDs H.cr
  | none => []

end Ids

def prevouts (tx : CMutableTransaction) : List COutPoint := tx.vin.map CTxIn.prevout

/-- `GetSerializeSize` of a witness stack. -/
def witnessSize (stack : List ByteCodec.Bytes) : Nat :=
  (writeCompactSize stack.length).length + (stack.map CScript.serializeSize).sum

/-- `GetTransactionWeight` -/
def getTransactionWeight (H : Hashing) (tx : CMutableTransaction) : Nat :=
  let pegouts := (tx.mweb_tx.map fun mw => mw.body.getPegOuts).getD []
  let pegins := (tx.mweb_tx.map fun mw => mw.body.getPegIns H.cr).getD []
  let pegout_weight :=
    (pegouts.map fun p => (CTxOut.mk p.amount p.scriptPubKey).serializeSize * 4).sum
  if tx.isMWEBOnly then pegout_weight
  else
    let base := (tx.toTransaction H).serializeSize
    -- the marker and flag bytes and the witness stacks
    let total :=
      if tx.hasWitness then base + 2 + (tx.vin.map fun txin => witnessSize txin.scriptWitness).sum
      else base
    base * 3 + total + pegout_weight + 164 * pegins.length

/-! ### What the identifiers commit to -/

variable {H : Hashing} {t v : CMutableTransaction}

theorem computeWitnessHash_of_hasWitness (h : t.hasWitness = true) :
    t.computeWitnessHash H = H.serializeHash (.witness t.nVersion t.nLockTime t.vin t.vout) := by
  rw [computeWitnessHash, h]
  rfl

theorem computeWitnessHash_of_not_hasWitness (h : t.hasWitness = false) :
    t.computeWitnessHash H = t.computeHash H := by
  rw [computeWitnessHash, h]
  rfl

theorem frontKernel_eq_none (hvin : t.vin ≠ []) : t.frontKernel = none := by
  have honly : t.isMWEBOnly = false := by
    rw [isMWEBOnly]
    cases hlist : t.vin with
    | nil => exact absurd hlist hvin
    | cons txin rest => simp
  rw [frontKernel, honly]
  rfl

theorem computeHash_of_vin (hvin : t.vin ≠ []) : t.computeHash H = H.serializeHash t.stripped := by
  rw [computeHash, frontKernel_eq_none hvin]

theorem vin_ne_nil_of_hasWitness (h : t.hasWitness = true) : t.vin ≠ [] := by
  intro hnil
  rw [hasWitness, hnil] at h
  cases h

theorem ids_of_mweb_exchanged (hvin : t.vin ≠ []) (mweb_tx : Option Mweb.Transaction) (m_hogEx : Bool) :
    computeHash H { t with mweb_tx := mweb_tx, m_hogEx := m_hogEx } = t.computeHash H ∧
      computeWitnessHash H { t with mweb_tx := mweb_tx, m_hogEx := m_hogEx } =
        t.computeWitnessHash H := by
  have hhash : computeHash H { t with mweb_tx := mweb_tx, m_hogEx := m_hogEx } = t.computeHash H := by
    rw [computeHash_of_vin hvin]
    exact computeHash_of_vin hvin
  refine ⟨hhash, ?_⟩
  rw [computeWitnessHash, hhash]
  rfl

end CMutableTransaction

end Defcoin.Relay
