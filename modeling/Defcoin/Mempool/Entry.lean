import Defcoin.Mweb.Transaction
import Defcoin.Transaction

/-! # Entries of the memory pool (txmempool.h)

  An entry caches the totals over a transaction and all its ancestors in the pool, and over it and
  all its descendants. The totals are functions of the quantity they are about, so that what holds
  of one holds of all.
-/

namespace Defcoin.Mempool

/-- `OutputIndex`: an output of the chain, or of the extension block. -/
inductive OutputIndex where
  | outpoint (o : COutPoint)
  | mweb (id : Mweb.Hash)
  deriving DecidableEq

/-- `CTxInput::GetIndex` of `CTransaction::GetInputs` -/
def getInputs (tx : CTransaction) : List OutputIndex :=
  tx.vin.map (fun txin => .outpoint txin.prevout) ++
    ((tx.mweb_tx.map fun body => body.vectors.getSpentIDs).getD []).map .mweb

/-- `mweb_tx.GetOutputIDs` -/
def getOutputIDs (cr : Mweb.Crypto) (tx : CTransaction) : List Mweb.Hash :=
  (tx.mweb_tx.map fun body => body.vectors.getOutputIDs cr).getD []

/-- `mweb_tx.GetKernelIDs` -/
def getKernelIDs (cr : Mweb.Crypto) (tx : CTransaction) : List Mweb.Hash :=
  (tx.mweb_tx.map fun body => body.kernels.map (Mweb.Kernel.getKernelID cr)).getD []

/-- `CTxOutput::GetIndex` of `CTransaction::GetOutputs` -/
def getOutputs (cr : Mweb.Crypto) (tx : CTransaction) : List OutputIndex :=
  (List.range tx.vout.length).map (fun n => .outpoint ⟨tx.hash, n⟩) ++
    (getOutputIDs cr tx).map .mweb

/-! ### Totals -/

inductive Quantity where
  | count | size | modFees | mwebWeight | sigOps
  deriving DecidableEq

/-- The totals over ancestors. -/
abbrev Totals := Quantity → Int

/-- The totals over descendants, which leave out the signature operations. -/
abbrev DescendantTotals := {q : Quantity // q ≠ .sigOps} → Int

/-- `CTxMemPoolEntry`. The size is the virtual size that `GetTxSize` gives. -/
structure CTxMemPoolEntry where
  tx : CTransaction
  nFee : Int
  txSize : Nat
  mweb_weight : Nat
  sigOpCost : Nat
  feeDelta : Int
  withDescendants : DescendantTotals
  withAncestors : Totals
  m_parents : List Uint256
  m_children : List Uint256

namespace CTxMemPoolEntry

variable (e : CTxMemPoolEntry)

/-- `GetModifiedFee` -/
def getModifiedFee : Int := e.nFee + e.feeDelta

def own : Totals
  | .count => 1
  | .size => e.txSize
  | .modFees => e.getModifiedFee
  | .mwebWeight => e.mweb_weight
  | .sigOps => e.sigOpCost

/-- The constructor: totals of the transaction alone. -/
def new (tx : CTransaction) (nFee : Int) (txSize mweb_weight sigOpCost : Nat) : CTxMemPoolEntry where
  tx := tx
  nFee := nFee
  txSize := txSize
  mweb_weight := mweb_weight
  sigOpCost := sigOpCost
  feeDelta := 0
  withDescendants
    | ⟨.count, _⟩ => 1
    | ⟨.size, _⟩ => txSize
    | ⟨.modFees, _⟩ => nFee
    | ⟨.mwebWeight, _⟩ => mweb_weight
  withAncestors
    | .count => 1
    | .size => txSize
    | .modFees => nFee
    | .mwebWeight => mweb_weight
    | .sigOps => sigOpCost
  m_parents := []
  m_children := []

def feeChange (delta : Int) : Totals
  | .modFees => delta
  | _ => 0

/-- `UpdateFeeDelta` -/
def updateFeeDelta (newFeeDelta : Int) : CTxMemPoolEntry :=
  { e with
    feeDelta := newFeeDelta
    withDescendants := e.withDescendants + fun q => feeChange (newFeeDelta - e.feeDelta) q.1
    withAncestors := e.withAncestors + feeChange (newFeeDelta - e.feeDelta) }

theorem size_ne_sigOps : Quantity.size ≠ .sigOps := by decide

theorem count_ne_sigOps : Quantity.count ≠ .sigOps := by decide

/-- `UpdateDescendantState` -/
def updateDescendantState (modify : DescendantTotals) :
    Except Fault CTxMemPoolEntry :=
  let totals := e.withDescendants + modify
  if totals ⟨.size, size_ne_sigOps⟩ < 0 then .error (.assertion "int64_t(nSizeWithDescendants) >= 0")
  else if totals ⟨.count, count_ne_sigOps⟩ ≤ 0 then .error (.assertion "int64_t(nCountWithDescendants) > 0")
  else if totals ⟨.mwebWeight, by decide⟩ < 0 then
    .error (.assertion "int64_t(nMWEBWeightWithDescendants) >= 0")
  else .ok { e with withDescendants := totals }

/-- `UpdateAncestorState` -/
def updateAncestorState (modify : Totals) : Except Fault CTxMemPoolEntry :=
  let totals := e.withAncestors + modify
  if totals .size < 0 then .error (.assertion "int64_t(nSizeWithAncestors) >= 0")
  else if totals .count ≤ 0 then .error (.assertion "int64_t(nCountWithAncestors) > 0")
  else if (totals .sigOps).bmod (2 ^ 32) < 0 then .error (.assertion "int(nSigOpCostWithAncestors) >= 0")
  else if totals .mwebWeight < 0 then .error (.assertion "int64_t(nMWEBWeightWithAncestors) >= 0")
  else .ok { e with withAncestors := totals }

end CTxMemPoolEntry

end Defcoin.Mempool
