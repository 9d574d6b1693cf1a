import Defcoin.Consensus.TxVerify
import Defcoin.Relay.Transaction

/-! # AcceptToMemoryPool, up to the checks on the extension part

  The first checks of `MemPoolAccept::PreChecks` depend on the transaction alone; those on the
  extension part are among them. All later checks, which look at the pool and the chain, are a
  parameter.
-/

namespace Defcoin.Relay

/-- `TxValidationResult` -/
inductive TxResult where
  | TX_CONSENSUS | TX_RECENT_CONSENSUS_CHANGE | TX_INPUTS_NOT_STANDARD | TX_NOT_STANDARD
  | TX_MISSING_INPUTS | TX_PREMATURE_SPEND | TX_WITNESS_MUTATED | TX_WITNESS_STRIPPED | TX_CONFLICT
  | TX_MEMPOOL_POLICY
  deriving DecidableEq

def TxResult.ofCheck : TxValidationResult → TxResult
  | .TX_CONSENSUS => .TX_CONSENSUS
  | .TX_MISSING_INPUTS => .TX_MISSING_INPUTS
  | .TX_PREMATURE_SPEND => .TX_PREMATURE_SPEND

/-! ### MWEB::Node::CheckTransaction -/

/-- The pegins of the canonical outputs by kernel, unless one kernel has two. -/
def collectPegins : List (Mweb.Hash × Int) → List CTxOut → Option (List (Mweb.Hash × Int))
  | tx_pegins, [] => some tx_pegins
  | tx_pegins, out :: rest =>
    match out.scriptPubKey.isMWEBPegin with
    | none => collectPegins tx_pegins rest
    | some kernel_id =>
      if kernel_id ∈ tx_pegins.map Prod.fst then none
      else collectPegins (tx_pegins ++ [(kernel_id, out.nValue)]) rest

/-- `MWEB::Node::CheckTransaction`: the result it fails with, if it does. -/
def mwebCheckTransaction (cr : Mweb.Crypto) (tx : CMutableTransaction) :
    Except Fault (Option TxResult) :=
  match collectPegins [] tx.vout with
  | none => .ok (some .TX_RECENT_CONSENSUS_CHANGE)
  | some tx_pegins =>
    let pegin_coins := (tx.mweb_tx.map fun mw => mw.body.getPegIns cr).getD []
    if pegin_coins.length ≠ tx_pegins.length then .ok (some .TX_WITNESS_MUTATED)
    else if pegin_coins.any fun pegin => decide ((pegin.kernelID, pegin.amount) ∉ tx_pegins) then
      .ok (some .TX_WITNESS_MUTATED)
    else
      match tx.mweb_tx with
      | none => .ok none
      | some mw =>
        match mw.validate cr with
        | .ok () => .ok none
        | .error (.assertion expr) => .error (.assertion expr)
        | .error _ => .ok (some .TX_WITNESS_MUTATED)

/-! ### AcceptToMemoryPool -/

structure AcceptEnv (Pool : Type) where
  hashing : Hashing
  /-- `IsMWEBEnabled` at the tip -/
  mwebEnabled : Bool
  /-- The remaining checks and, if they pass, the insertion into the pool. -/
  later : Pool → CMutableTransaction → Except Fault (Pool × Option TxResult)

/-- `AcceptToMemoryPool`: the pool, and the result if the transaction was refused. -/
def acceptToMemoryPool {Pool : Type} (env : AcceptEnv Pool) (pool : Pool) (tx : CMutableTransaction) :
    Except Fault (Pool × Option TxResult) :=
  match checkTransaction (tx.toTransaction env.hashing) with
  | .error (.invalid result _) => .ok (pool, some (.ofCheck result))
  | .error (.abort message) => .error (.runtimeError message)
  | .error (.fault f) => .error f
  | .ok () =>
    if tx.hasMWEBTx && !env.mwebEnabled then .ok (pool, some .TX_NOT_STANDARD)
    else
      match mwebCheckTransaction env.hashing.cr tx with
      | .error f => .error f
      | .ok (some result) => .ok (pool, some result)
      | .ok none =>
        if (tx.toTransaction env.hashing).isCoinBase then .ok (pool, some .TX_CONSENSUS)
        else if tx.m_hogEx then .ok (pool, some .TX_CONSENSUS)
        else env.later pool tx

/-- **Inversion**: the early checks refuse without a change of the pool, or the later ones
    decide. -/
theorem acceptToMemoryPool_cases {Pool : Type} {env : AcceptEnv Pool} {pool pool' : Pool}
    {tx : CMutableTransaction} {result : Option TxResult}
    (h : acceptToMemoryPool env pool tx = .ok (pool', result)) :
    (pool' = pool ∧ ∃ r, result = some r) ∨ env.later pool tx = .ok (pool', result) := by
  unfold acceptToMemoryPool at h
  split at h
  · cases h
    exact Or.inl ⟨rfl, _, rfl⟩
  · cases h
  · cases h
  split at h
  · cases h
    exact Or.inl ⟨rfl, _, rfl⟩
  split at h
  · cases h
  · cases h
    exact Or.inl ⟨rfl, _, rfl⟩
  split at h
  · cases h
    exact Or.inl ⟨rfl, _, rfl⟩
  split at h
  · cases h
    exact Or.inl ⟨rfl, _, rfl⟩
  · exact Or.inr h

end Defcoin.Relay
