import Defcoin.Mweb.BuilderSoundness
import Defcoin.Relay.Accept
import Defcoin.Relay.Orphans

/-! # Transaction messages (net_processing.cpp)

  The handler of TX messages, the work sets of orphans that are to be tried again, and the filter of
  recently rejected hashes, as a machine.

  * `tx` is a TX message that is not refused outright (blocks-only mode, block-relay-only peers).
  * `processOrphans` is the round that `ProcessMessages` gives a peer with orphans to try again.
  * The other inputs are what the rest of the node reports, or does to the pool.
-/

namespace Defcoin.Relay

open Outcome

structure RelayEnv (Pool : Type) extends AcceptEnv Pool where
  /-- `exists` with a witness hash -/
  existsWtxid : Pool → Uint256 → Bool
  /-- `-maxorphantx` -/
  nMaxOrphanTx : Nat

/-- **Assumption**: a `CRollingBloomFilter` is exact. It has what was inserted since the last reset;
    it forgets nothing, and it has nothing else. -/
abbrev ExactFilter := List Uint256

structure RelayState (Pool : Type) where
  pool : Pool
  orphans : OrphanPool
  /-- `m_orphan_work_set` of every peer -/
  workSets : Nat → List Uint256
  recentRejects : ExactFilter
  /-- `g_recent_confirmed_transactions` -/
  recentConfirmed : ExactFilter
  /-- The hash of the tip of the active chain. -/
  tip : Uint256
  hashRecentRejectsChainTip : Uint256
  nNextSweep : Int

inductive Outcome where
  | accepted
  /-- Kept for later: inputs are missing. -/
  | orphaned
  /-- Inputs are missing, and one of the parents was rejected. -/
  | rejectedParents
  | refused (result : TxResult)
  deriving DecidableEq

inductive Event where
  /-- A transaction was put before the pool. -/
  | verdict (tx : CMutableTransaction) (outcome : Outcome)
  /-- After `tx` was accepted, with these orphans waiting, the work set of the peer went from
      `before` to `after`. -/
  | released (peer : Nat) (tx : CMutableTransaction) (orphans : OrphanPool) (before after : List Uint256)
  /-- A hash was taken from the work set of a peer. -/
  | taken (peer : Nat) (hash : Uint256)

inductive RelayInput (Pool : Type) where
  | tx (peer : Nat) (tx : CMutableTransaction) (now : Int) (rng : List Nat)
  | processOrphans (peer : Nat)
  | disconnect (peer : Nat)
  | blockConnected (tip : Uint256) (vtx : List CMutableTransaction) (pool : Pool)
  | blockDisconnected (tip : Uint256) (pool : Pool)
  | poolChanged (pool : Pool)

/-! ### The pieces of the handlers -/

/-- The loop over the outputs of an accepted transaction: the orphans that spend one of them go to
    the work set. -/
def releaseChildren (orphans : OrphanPool) (hash : Uint256) (nOut : Nat) (workSet : List Uint256) :
    List Uint256 :=
  (List.range nOut).foldl
    (fun set i => (orphans.mapOrphanTransactionsByPrev ⟨hash, i⟩).foldl
      (fun set elem => OrphanPool.insertHash elem set) set)
    workSet

/-- The hashes that a refusal adds to `recentRejects`. -/
def rejectedHashes (H : Hashing) (tx : CMutableTransaction) (result : TxResult) : List Uint256 :=
  if result = .TX_WITNESS_STRIPPED then []
  else if result = .TX_INPUTS_NOT_STANDARD ∧ tx.computeWitnessHash H ≠ tx.computeHash H then
    [tx.computeHash H, tx.computeWitnessHash H]
  else [tx.computeWitnessHash H]

namespace RelayState

variable {Pool : Type}

/-- The reset of the filter with which `AlreadyHaveTx` begins. -/
def checkTip (s : RelayState Pool) : RelayState Pool :=
  if s.tip ≠ s.hashRecentRejectsChainTip then
    { s with hashRecentRejectsChainTip := s.tip, recentRejects := [] }
  else s

variable (env : RelayEnv Pool)

/-- The answer of `AlreadyHaveTx` for a witness hash, after the reset. -/
def alreadyHaveWtxid (s : RelayState Pool) (wtxid : Uint256) : Bool :=
  (s.orphans.g_orphans_by_wtxid.lookup wtxid).isSome || decide (wtxid ∈ s.recentConfirmed) ||
    (decide (wtxid ∈ s.recentRejects) || env.existsWtxid s.pool wtxid)

/-- `ProcessOrphanTx` on the work set of a peer: the state, what is left of the work set, and the
    log. -/
def processOrphanTx (env : RelayEnv Pool) (peer : Nat) :
    RelayState Pool → List Uint256 → Except Fault (RelayState Pool × List Uint256 × List Event)
  | s, [] => .ok (s, [], [])
  | s, orphanHash :: rest =>
    match s.orphans.find orphanHash with
    | none =>
      (processOrphanTx env peer s rest).map fun (s, set, log) => (s, set, .taken peer orphanHash :: log)
    | some orphan =>
      match acceptToMemoryPool env.toAcceptEnv s.pool orphan.tx with
      | .error f => .error f
      | .ok (pool, none) =>
        let set := releaseChildren s.orphans orphanHash orphan.tx.vout.length rest
        (s.orphans.eraseOrphanTx env.hashing orphanHash).map fun orphans =>
          ({ s with pool := pool, orphans := orphans }, set,
            [.taken peer orphanHash, .verdict orphan.tx .accepted,
              .released peer orphan.tx s.orphans rest set])
      | .ok (pool, some .TX_MISSING_INPUTS) =>
        (processOrphanTx env peer { s with pool := pool } rest).map fun (s, set, log) =>
          (s, set, .taken peer orphanHash :: .verdict orphan.tx .orphaned :: log)
      | .ok (pool, some result) =>
        (s.orphans.eraseOrphanTx env.hashing orphanHash).map fun orphans =>
          ({ s with
              pool := pool
              orphans := orphans
              recentRejects := rejectedHashes env.hashing orphan.tx result ++ s.recentRejects },
            rest, [.taken peer orphanHash, .verdict orphan.tx (.refused result)])

/-- `ProcessOrphanTx(peer->m_orphan_work_set)`, from a given work set. -/
def processWorkSet (s : RelayState Pool) (peer : Nat) (workSet : List Uint256) :
    Except Fault (List Event × RelayState Pool) :=
  (s.processOrphanTx env peer workSet).map fun (s, set, log) =>
    (log, { s with workSets := Function.update s.workSets peer set })

/-- The TX handler after the transaction was accepted. -/
def handleAccepted (s : RelayState Pool) (peer : Nat) (tx : CMutableTransaction) :
    Except Fault (List Event × RelayState Pool) :=
  let workSet := releaseChildren s.orphans (tx.computeHash env.hashing) tx.vout.length (s.workSets peer)
  (s.processWorkSet env peer workSet).map fun (log, s') =>
    (.verdict tx .accepted :: .released peer tx s.orphans (s.workSets peer) workSet :: log, s')

def handleMissing (s : RelayState Pool) (peer : Nat) (tx : CMutableTransaction)
    (now : Int) (rng : List Nat) : Except Fault (List Event × RelayState Pool) :=
  if tx.prevouts.any fun prevout => decide (prevout.hash ∈ s.recentRejects) then
    .ok ([.verdict tx .rejectedParents],
      { s with
        recentRejects :=
          tx.computeWitnessHash env.hashing :: tx.computeHash env.hashing :: s.recentRejects })
  else
    ((s.orphans.addOrphanTx env.hashing tx peer now).limitOrphanTxSize env.hashing env.nMaxOrphanTx
      s.nNextSweep now rng).map fun (orphans, nNextSweep) =>
        ([.verdict tx .orphaned], { s with orphans := orphans, nNextSweep := nNextSweep })

/-- `ProcessMessage` on a TX message, after the reset of the filter. -/
def handleTx (s : RelayState Pool) (peer : Nat) (tx : CMutableTransaction)
    (now : Int) (rng : List Nat) : Except Fault (List Event × RelayState Pool) :=
  if s.alreadyHaveWtxid env (tx.computeWitnessHash env.hashing) then .ok ([], s)
  else
    match acceptToMemoryPool env.toAcceptEnv s.pool tx with
    | .error f => .error f
    | .ok (pool, none) => handleAccepted env { s with pool := pool } peer tx
    | .ok (pool, some .TX_MISSING_INPUTS) => handleMissing env { s with pool := pool } peer tx now rng
    | .ok (pool, some result) =>
      .ok ([.verdict tx (.refused result)],
        { s with
          pool := pool
          recentRejects := rejectedHashes env.hashing tx result ++ s.recentRejects })

def orphansPrecluded (s : RelayState Pool) (vtx : List CMutableTransaction) : List Uint256 :=
  vtx.flatMap fun tx => tx.prevouts.flatMap s.orphans.mapOrphanTransactionsByPrev

/-- `BlockConnected` -/
def blockConnected (s : RelayState Pool) (tip : Uint256)
    (vtx : List CMutableTransaction) (pool : Pool) : Except Fault (List Event × RelayState Pool) :=
  (s.orphans.eraseAll env.hashing (s.orphansPrecluded vtx)).map fun orphans =>
    ([], { s with
      pool := pool
      orphans := orphans
      tip := tip
      recentConfirmed :=
        vtx.flatMap (fun tx => [tx.computeHash env.hashing, tx.computeWitnessHash env.hashing]) ++
          s.recentConfirmed })

def step (s : RelayState Pool) :
    RelayInput Pool → Except Fault (List Event × RelayState Pool)
  | .tx peer tx now rng => s.checkTip.handleTx env peer tx now rng
  | .processOrphans peer => s.processWorkSet env peer (s.workSets peer)
  | .disconnect peer =>
    (s.orphans.eraseOrphansFor env.hashing peer).map fun orphans =>
      ([], { s with orphans := orphans, workSets := Function.update s.workSets peer [] })
  | .blockConnected tip vtx pool => s.blockConnected env tip vtx pool
  | .blockDisconnected tip pool => .ok ([], { s with pool := pool, tip := tip, recentConfirmed := [] })
  | .poolChanged pool => .ok ([], { s with pool := pool })

/-- The node as a machine. -/
def machine : Machine (RelayState Pool) (RelayInput Pool) (List Event) Fault where
  step := step env

def init (pool : Pool) (tip : Uint256) : RelayState Pool where
  pool := pool
  orphans := .empty
  workSets := fun _ => []
  recentRejects := []
  recentConfirmed := []
  tip := tip
  hashRecentRejectsChainTip := 0
  nNextSweep := 0

end RelayState

/-! ### A small instance -/

/-- Hashes that are numbers. -/
def numberHashing : Hashing where
  cr := Mweb.numberCrypto
  serializeHash
    | .noWitness _ _ vin _ => BitVec.ofNat 256 (1000 + vin.length)
    | .witness _ _ vin _ => BitVec.ofNat 256 (2000 + (vin.map fun txin => txin.scriptWitness.length).sum)

/-- A pool of hashes that lacks the extension block inputs of every transaction, until it has a
    transaction. -/
def numberEnv : RelayEnv (List Uint256) where
  hashing := numberHashing
  mwebEnabled := true
  later pool tx :=
    if tx.getSpentIDs ≠ [] ∧ pool = [] then .ok (pool, some .TX_MISSING_INPUTS)
    else .ok (tx.computeHash numberHashing :: pool, none)
  existsWtxid _ _ := false
  nMaxOrphanTx := 100

/-- 10 coins are pegged in. -/
def peginTx : CMutableTransaction where
  vin := [{ prevout := ⟨1, 0⟩, scriptSig := [], nSequence := 0, scriptWitness := [] }]
  vout := [{ nValue := 10, scriptPubKey := 0x59 :: 32 :: Mweb.pegInCoin.kernelID.bytes }]
  nVersion := 2
  nLockTime := 0
  mweb_tx := some Mweb.pegInTx
  m_hogEx := false

/-- An extension block output of `peginTx` is spent, and no other output. -/
def mwebChild : CMutableTransaction where
  vin := []
  vout := []
  nVersion := 2
  nLockTime := 0
  mweb_tx := some Mweb.pegOutTx
  m_hogEx := false

namespace RelayState

variable {Pool : Type}

/-! ### What a round over a work set can do -/

variable {env : RelayEnv Pool} {peer : Nat} {s s' : RelayState Pool} {log : List Event}

theorem processOrphanTx_cases {hash : Uint256} {rest set : List Uint256}
    (h : processOrphanTx env peer s (hash :: rest) = .ok (s', set, log)) :
    -- the orphan is gone
    (s.orphans.find hash = none ∧ ∃ log', processOrphanTx env peer s rest = .ok (s', set, log') ∧
      log = .taken peer hash :: log') ∨
    ∃ orphan pool result, s.orphans.find hash = some orphan ∧
      acceptToMemoryPool env.toAcceptEnv s.pool orphan.tx = .ok (pool, result) ∧
      -- it still waits for an input
      ((result = some .TX_MISSING_INPUTS ∧ ∃ log',
          processOrphanTx env peer { s with pool := pool } rest = .ok (s', set, log') ∧
          log = .taken peer hash :: .verdict orphan.tx .orphaned :: log') ∨
        ∃ orphans, s.orphans.eraseOrphanTx env.hashing hash = .ok orphans ∧
          -- it is accepted
          ((result = none ∧ set = releaseChildren s.orphans hash orphan.tx.vout.length rest ∧
              s' = { s with pool := pool, orphans := orphans } ∧
              log = [.taken peer hash, .verdict orphan.tx .accepted,
                .released peer orphan.tx s.orphans rest set]) ∨
            -- it is refused
            ∃ r, result = some r ∧ r ≠ .TX_MISSING_INPUTS ∧ set = rest ∧
              s' = { s with
                pool := pool
                orphans := orphans
                recentRejects := rejectedHashes env.hashing orphan.tx r ++ s.recentRejects } ∧
              log = [.taken peer hash, .verdict orphan.tx (.refused r)])) := by
  rw [processOrphanTx] at h
  split at h
  · rename_i hfind
    obtain ⟨⟨s₁, set₁, log₁⟩, hrec, heq⟩ := map_eq_ok.mp h
    cases heq
    exact .inl ⟨hfind, log₁, hrec, rfl⟩
  rename_i orphan hfind
  right
  split at h
  · cases h
  · rename_i pool haccept
    obtain ⟨orphans, herase, heq⟩ := map_eq_ok.mp h
    cases heq
    exact ⟨orphan, pool, none, hfind, haccept, .inr ⟨orphans, herase, .inl ⟨rfl, rfl, rfl, rfl⟩⟩⟩
  · rename_i pool haccept
    obtain ⟨⟨s₁, set₁, log₁⟩, hrec, heq⟩ := map_eq_ok.mp h
    cases heq
    exact ⟨orphan, pool, _, hfind, haccept, .inl ⟨rfl, log₁, hrec, rfl⟩⟩
  · rename_i pool result hne haccept
    obtain ⟨orphans, herase, heq⟩ := map_eq_ok.mp h
    cases heq
    exact ⟨orphan, pool, some result, hfind, haccept, .inr ⟨orphans, herase,
      .inr ⟨result, rfl, hne, rfl, rfl, rfl⟩⟩⟩

variable {rng : List Nat} {now : Int} {tx : CMutableTransaction}

theorem handleTx_cases (h : s.handleTx env peer tx now rng = .ok (log, s')) :
    (s.alreadyHaveWtxid env (tx.computeWitnessHash env.hashing) = true ∧ log = [] ∧ s' = s) ∨
    ∃ pool result, acceptToMemoryPool env.toAcceptEnv s.pool tx = .ok (pool, result) ∧
      ((result = none ∧ handleAccepted env { s with pool := pool } peer tx = .ok (log, s')) ∨
        (result = some .TX_MISSING_INPUTS ∧
          handleMissing env { s with pool := pool } peer tx now rng = .ok (log, s')) ∨
        ∃ r, result = some r ∧ r ≠ .TX_MISSING_INPUTS ∧ log = [.verdict tx (.refused r)] ∧
          s' = { s with
            pool := pool
            recentRejects := rejectedHashes env.hashing tx r ++ s.recentRejects }) := by
  unfold handleTx at h
  split_ifs at h with hhave
  · cases h
    exact .inl ⟨hhave, rfl, rfl⟩
  right
  split at h
  · cases h
  · rename_i pool haccept
    exact ⟨pool, none, haccept, .inl ⟨rfl, h⟩⟩
  · rename_i pool haccept
    exact ⟨pool, _, haccept, .inr (.inl ⟨rfl, h⟩)⟩
  · rename_i pool result hne haccept
    cases h
    exact ⟨pool, some result, haccept, .inr (.inr ⟨result, rfl, hne, rfl, rfl⟩)⟩

theorem handleTx_of_refused {pool : Pool} {r : TxResult}
    (hhave : s.alreadyHaveWtxid env (tx.computeWitnessHash env.hashing) = false)
    (haccept : acceptToMemoryPool env.toAcceptEnv s.pool tx = .ok (pool, some r))
    (hr : r ≠ .TX_MISSING_INPUTS) :
    s.handleTx env peer tx now rng =
      .ok ([.verdict tx (.refused r)],
        { s with
          pool := pool
          recentRejects := rejectedHashes env.hashing tx r ++ s.recentRejects }) := by
  rw [handleTx, hhave, haccept]
  cases r with
  | TX_MISSING_INPUTS => exact absurd rfl hr
  | _ => rfl

theorem processWorkSet_eq_ok {workSet : List Uint256}
    (h : s.processWorkSet env peer workSet = .ok (log, s')) :
    ∃ s₁ set, s.processOrphanTx env peer workSet = .ok (s₁, set, log) ∧
      s' = { s₁ with workSets := Function.update s₁.workSets peer set } := by
  obtain ⟨⟨s₁, set, _⟩, hrec, heq⟩ := map_eq_ok.mp h
  cases heq
  exact ⟨s₁, set, hrec, rfl⟩

end RelayState

end Defcoin.Relay
