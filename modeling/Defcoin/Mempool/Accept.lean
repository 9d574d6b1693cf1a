import Defcoin.Framework.Machine
import Defcoin.Mempool.AncestorWalk
import Defcoin.Mempool.Effects
import Defcoin.Relay.Accept

/-! # MemPoolAccept (validation.cpp)

  The checks of `PreChecks` that look at the maps of the pool, and what follows if a transaction is
  accepted. Standardness, fees, scripts and the rules for replacements are parameters.
-/

namespace Defcoin.Mempool

open Relay (TxResult)

/-- The coins at the tip of the chain. -/
structure CoinsTip where
  unspent : OutputIndex → Bool
  /-- `HaveCoinInCache` -/
  cached : OutputIndex → Bool

/-- The checks that are not modelled: each gives the result it fails with. -/
structure Policy where
  /-- `-mempoolreplacement` -/
  mempoolreplacement : Bool
  /-- Standardness, size and finality. -/
  standard : CTransaction → Option TxResult
  /-- What follows the look-up of the inputs: the fee, the size, the weight of the extension part
      and the cost of signature operations. -/
  evaluate : CTxMemPool → CoinsTip → CTransaction → Except TxResult (Int × Nat × Nat × Nat)
  /-- `-limitancestorcount` and its like -/
  limits : AncestorLimits
  /-- The rules for replacements. -/
  replacement : CTxMemPool → CTxMemPoolEntry → List Uint256 → Option TxResult
  /-- `PolicyScriptChecks` and `ConsensusScriptChecks` -/
  scripts : CTxMemPool → CoinsTip → CTransaction → Option TxResult

/-- `EXTRA_DESCENDANT_TX_SIZE_LIMIT` -/
def extraDescendantTxSizeLimit : Nat := 10000

/-- `MAX_BIP125_RBF_SEQUENCE` -/
def maxBip125RbfSequence : Nat := 0xfffffffd

namespace CTxMemPool

variable (p : CTxMemPool)

/-- `CCoinsViewMemPool`, on top of the coins of the chain: `HaveCoin`. -/
def haveCoin (coins : CoinsTip) : OutputIndex → Except Fault Bool
  | .outpoint o =>
    match p.entry o.hash with
    | some e => .ok (decide (o.n < e.tx.vout.length))
    | none => .ok (coins.unspent (.outpoint o))
  | .mweb id =>
    if (p.mapNextTx (.mweb id)).isSome then .ok false
    else
      match p.mapTxOutputs_MWEB id with
      | some creator =>
        if p.contains creator then .ok true
        else .error (.assertion "mempool.mapTx.count(iter->second->GetHash()) > 0")
      | none => .ok (coins.unspent (.mweb id))

def toSet (hashes : List Uint256) : List Uint256 := hashes.foldl (fun set hash => insertEntry hash set) []

/-- `setConflicts`: the pool transactions that spend an input of `tx`. -/
def setConflicts (tx : CTransaction) : List Uint256 :=
  toSet ((getInputs tx).filterMap p.mapNextTx)

def isReplaceable (policy : Policy) (hash : Uint256) : Bool :=
  match p.entry hash with
  | some e => policy.mempoolreplacement &&
      e.tx.vin.any fun txin => decide (txin.nSequence.toNat ≤ maxBip125RbfSequence)
  | none => false

/-- The limits, which are raised for a transaction that replaces one other. -/
def chainLimits (limits : AncestorLimits) : List Uint256 → AncestorLimits
  | [conflict] =>
    { limits with
      limitDescendantCount := limits.limitDescendantCount + 1
      limitDescendantSize := limits.limitDescendantSize +
        (p.withDescendants conflict ⟨.size, CTxMemPoolEntry.size_ne_sigOps⟩).toNat }
  | _ => limits

/-- `CalculateMemPoolAncestors`. If it fails, a small transaction with one ancestor has a second try. -/
def ancestorsWithin (limits : AncestorLimits) (entry : CTxMemPoolEntry) : Except TxResult (List Uint256) :=
  match p.calculateLimitedAncestors limits entry with
  | .ok setAncestors => .ok setAncestors
  | .error _ =>
    if entry.txSize > extraDescendantTxSizeLimit then .error .TX_MEMPOOL_POLICY
    else
      let limits := { limits with
        limitAncestorCount := 2
        limitDescendantCount := limits.limitDescendantCount + 1
        limitDescendantSize := limits.limitDescendantSize + extraDescendantTxSizeLimit }
      match p.calculateLimitedAncestors limits entry with
      | .ok setAncestors => .ok setAncestors
      | .error _ => .error .TX_MEMPOOL_POLICY

variable {p} in
theorem ancestorsWithin_eq_ok {limits : AncestorLimits} {entry : CTxMemPoolEntry} {setAncestors : List Uint256}
    (h : p.ancestorsWithin limits entry = .ok setAncestors) : setAncestors = p.searchAncestors entry.tx := by
  unfold ancestorsWithin at h
  split at h
  · rename_i hwalk
    cases h
    exact (calculateLimitedAncestors_eq_ok hwalk).1
  split_ifs at h
  dsimp only at h
  split at h
  · rename_i hwalk
    cases h
    exact (calculateLimitedAncestors_eq_ok hwalk).1
  · cases h

end CTxMemPool

/-- What `PreChecks` leaves in the workspace. -/
structure Candidate where
  entry : CTxMemPoolEntry
  setAncestors : List Uint256
  allConflicting : List Uint256

/-- The inputs, one after the other: the result if one is missing. -/
def checkInputs (p : CTxMemPool) (coins : CoinsTip) (outputs : List OutputIndex) :
    List OutputIndex → Except Fault (Option TxResult)
  | [] => .ok none
  | input :: rest => do
    match ← p.haveCoin coins input with
    | true => checkInputs p coins outputs rest
    | false =>
      .ok (some (if outputs.any fun o => coins.cached o then .TX_CONFLICT else .TX_MISSING_INPUTS))

section
variable (policy : Policy)

/-- The part of `PreChecks` after the inputs were found. -/
def preChecksRest (p : CTxMemPool) (coins : CoinsTip) (tx : CTransaction) :
    Except TxResult Candidate := do
  let (nFees, txSize, mweb_weight, sigOpCost) ← policy.evaluate p coins tx
  let entry := CTxMemPoolEntry.new tx nFees txSize mweb_weight sigOpCost
  let setConflicts := p.setConflicts tx
  let setAncestors ← p.ancestorsWithin (p.chainLimits policy.limits setConflicts) entry
  if setAncestors.any fun hash => decide (hash ∈ setConflicts) then .error .TX_CONSENSUS
  else
    let allConflicting := p.calculateAllDescendants setConflicts
    match if setConflicts = [] then none else policy.replacement p entry allConflicting with
    | some result => .error result
    | none =>
      match policy.scripts p coins tx with
      | some result => .error result
      | none => .ok { entry, setAncestors, allConflicting }

/-- `PreChecks` and the script checks. -/
def preChecks (coins : CoinsTip) (p : CTxMemPool) (outputs : List OutputIndex)
    (tx : CTransaction) : Except Fault (Except TxResult Candidate) :=
  match policy.standard tx with
  | some result => .ok (.error result)
  | none =>
    if p.contains tx.hash then .ok (.error .TX_CONFLICT)
    else if (p.setConflicts tx).any fun hash => !p.isReplaceable policy hash then
      .ok (.error .TX_MEMPOOL_POLICY)
    else
      match checkInputs p coins outputs (getInputs tx) with
      | .error f => .error f
      | .ok (some result) => .ok (.error result)
      | .ok none => .ok (preChecksRest policy p coins tx)

/-- `Finalize`, without the limit on the size of the pool. -/
def finalize (cr : Mweb.Crypto) (p : CTxMemPool) (c : Candidate) : Except Fault CTxMemPool := do
  let p ← p.removeStaged cr c.allConflicting false
  p.addUnchecked cr c.entry c.setAncestors

/-- The checks of `AcceptToMemoryPool` that look at the pool, and the insertion. -/
def acceptSingleTransaction (H : Relay.Hashing) (coins : CoinsTip) (p : CTxMemPool)
    (tx : Relay.CMutableTransaction) : Except Fault (CTxMemPool × Option TxResult) :=
  match preChecks policy coins p (getOutputs H.cr (tx.toTransaction H)) (tx.toTransaction H) with
  | .error f => .error f
  | .ok (.error result) => .ok (p, some result)
  | .ok (.ok candidate) => (finalize H.cr p candidate).map fun p => (p, none)

/-- `AcceptToMemoryPool` -/
def acceptToMemoryPool (H : Relay.Hashing) (mwebEnabled : Bool) (coins : CoinsTip)
    (p : CTxMemPool) (tx : Relay.CMutableTransaction) : Except Fault (CTxMemPool × Option TxResult) :=
  Relay.acceptToMemoryPool ⟨H, mwebEnabled, acceptSingleTransaction policy H coins⟩ p tx

end

/-! ### What an acceptance does -/

variable {policy : Policy} {H : Relay.Hashing} {coins : CoinsTip} {p p' : CTxMemPool}

/-- What is known of a transaction that passed `PreChecks`. -/
structure Prechecked (policy : Policy) (coins : CoinsTip) (p : CTxMemPool) (outputs : List OutputIndex) (tx : CTransaction)
    (c : Candidate) : Prop where
  new : p.contains tx.hash = false
  inputs : checkInputs p coins outputs (getInputs tx) = .ok none
  entry : ∃ nFees txSize mweb_weight sigOpCost,
    policy.evaluate p coins tx = .ok (nFees, txSize, mweb_weight, sigOpCost) ∧
      c.entry = .new tx nFees txSize mweb_weight sigOpCost
  setAncestors : c.setAncestors = p.searchAncestors tx
  apart : ∀ a ∈ c.setAncestors, a ∉ p.setConflicts tx
  allConflicting : c.allConflicting = p.calculateAllDescendants (p.setConflicts tx)

theorem preChecks_eq_ok {outputs : List OutputIndex} {tx : CTransaction} {c : Candidate}
    (h : preChecks policy coins p outputs tx = .ok (.ok c)) : Prechecked policy coins p outputs tx c := by
  unfold preChecks at h
  split at h
  · cases h
  by_cases hknown : p.contains tx.hash = true
  · rw [if_pos hknown] at h
    cases h
  rw [if_neg hknown] at h
  split at h
  · cases h
  split at h
  · cases h
  · cases h
  rename_i hinputs
  rw [Except.ok.injEq] at h
  obtain ⟨⟨_, _, _, _⟩, hevaluate, h⟩ := Outcome.bind_eq_ok.mp h
  obtain ⟨_, hancestors, h⟩ := Outcome.bind_eq_ok.mp h
  dsimp only at h
  split at h
  · cases h
  rename_i hapart
  split at h
  · cases h
  split at h
  · cases h
  · cases h
    exact ⟨by simpa using hknown, hinputs, ⟨_, _, _, _, hevaluate, rfl⟩,
      CTxMemPool.ancestorsWithin_eq_ok hancestors, by simpa using hapart, rfl⟩

/-- **Inversion** of an acceptance: a transaction that was not in the pool enters it, after those it
    replaces have left. -/
theorem acceptToMemoryPool_eq_ok {mwebEnabled : Bool} {tx : Relay.CMutableTransaction}
    (h : acceptToMemoryPool policy H mwebEnabled coins p tx = .ok (p', none)) :
    ∃ c q, preChecks policy coins p (getOutputs H.cr (tx.toTransaction H)) (tx.toTransaction H) =
        .ok (.ok c) ∧ p.removeStaged H.cr c.allConflicting false = .ok q ∧
      q.addUnchecked H.cr c.entry c.setAncestors = .ok p' := by
  obtain ⟨-, r, hr⟩ | hlater := Relay.acceptToMemoryPool_cases h
  · cases hr
  have haccept : acceptSingleTransaction policy H coins p tx = .ok (p', none) := hlater
  unfold acceptSingleTransaction at haccept
  split at haccept
  · cases haccept
  · cases haccept
  · rename_i c hchecks
    obtain ⟨_, hfinal, heq⟩ := Outcome.map_eq_ok.mp haccept
    cases heq
    obtain ⟨q, hq, hadd⟩ := Outcome.bind_eq_ok.mp hfinal
    exact ⟨c, q, hchecks, hq, hadd⟩

theorem acceptToMemoryPool_effect {mwebEnabled : Bool} {tx : Relay.CMutableTransaction}
    (h : acceptToMemoryPool policy H mwebEnabled coins p tx = .ok (p', none)) :
    ∃ e q, e.tx = tx.toTransaction H ∧ q.contains e.tx.hash = false ∧
      CTxMemPool.Removed H.cr (p.calculateAllDescendants (p.setConflicts e.tx)) p q ∧
      CTxMemPool.Added H.cr e q p' := by
  obtain ⟨c, q, hchecks, hremove, hadd⟩ := acceptToMemoryPool_eq_ok h
  have hc := preChecks_eq_ok hchecks
  have htx : c.entry.tx = tx.toTransaction H := by
    obtain ⟨_, _, _, _, -, hentry⟩ := hc.entry
    rw [hentry]
    rfl
  rw [hc.allConflicting, ← htx] at hremove
  have hremoved := CTxMemPool.removed_of_removeStaged hremove
  have hnew : q.contains c.entry.tx.hash = false := hremoved.not_contains (htx ▸ hc.new)
  exact ⟨c.entry, q, htx, hnew, hremoved, CTxMemPool.added_of_addUnchecked hnew hadd⟩

theorem acceptToMemoryPool_refused {mwebEnabled : Bool} {tx : Relay.CMutableTransaction}
    {result : TxResult}
    (h : acceptToMemoryPool policy H mwebEnabled coins p tx = .ok (p', some result)) : p' = p := by
  obtain ⟨hsame, -⟩ | hlater := Relay.acceptToMemoryPool_cases h
  · exact hsame
  have haccept : acceptSingleTransaction policy H coins p tx = .ok (p', some result) := hlater
  unfold acceptSingleTransaction at haccept
  split at haccept
  · cases haccept
  · cases haccept
    rfl
  · obtain ⟨_, -, heq⟩ := Outcome.map_eq_ok.mp haccept
    cases heq

end Defcoin.Mempool
