import Defcoin.Mempool.Accept
import Defcoin.Relay.ProcessTx

/-! # The index of extension block outputs

  `mapTxOutputs_MWEB` has one place for an output, whichever pool transactions create it. An
  addition leaves a place that is taken as it is, but a removal frees the place, so that the index
  loses an output of a transaction that stays if one that leaves creates the same output.
-/

namespace Defcoin.Mempool

open Relay (TxResult)

/-! ### Steps -/

structure PoolEnv where
  policy : Policy
  hashing : Relay.Hashing
  mwebEnabled : Bool

structure PoolState where
  pool : CTxMemPool
  coins : CoinsTip

inductive PoolInput where
  /-- A transaction is offered to `AcceptToMemoryPool`. -/
  | submit (tx : Relay.CMutableTransaction)
  /-- Entries are removed: expired, trimmed, included in a block or in conflict with one. -/
  | remove (stage : List Uint256) (updateDescendants : Bool)
  /-- The chain moves. -/
  | setCoins (coins : CoinsTip)

namespace PoolState

def step (env : PoolEnv) (s : PoolState) : PoolInput → Except Fault (Option TxResult × PoolState)
  | .submit tx =>
    (acceptToMemoryPool env.policy env.hashing env.mwebEnabled s.coins s.pool tx).map
      fun (pool, result) => (result, { s with pool := pool })
  | .remove stage updateDescendants =>
    (s.pool.removeStaged env.hashing.cr stage updateDescendants).map
      fun pool => (none, { s with pool := pool })
  | .setCoins coins => .ok (none, { s with coins := coins })

def machine (env : PoolEnv) : Machine PoolState PoolInput (Option TxResult) Fault where
  step := step env

def leaving (env : PoolEnv) (s : PoolState) : PoolInput → List Uint256
  | .submit tx =>
    match acceptToMemoryPool env.policy env.hashing env.mwebEnabled s.coins s.pool tx with
    | .ok (_, none) => s.pool.calculateAllDescendants (s.pool.setConflicts (tx.toTransaction env.hashing))
    | _ => []
  | .remove stage _ => stage
  | .setCoins _ => []

/-- The outputs of the transaction that enters the pool in a step. -/
def entering (env : PoolEnv) (s : PoolState) : PoolInput → List Mweb.Hash
  | .submit tx =>
    match acceptToMemoryPool env.policy env.hashing env.mwebEnabled s.coins s.pool tx with
    | .ok (_, none) => getOutputIDs env.hashing.cr (tx.toTransaction env.hashing)
    | _ => []
  | _ => []

end PoolState

/-! ### The index -/

namespace CTxMemPool

variable (cr : Mweb.Crypto)

/-- The pool transaction `hash` creates the output `id`. -/
def Creates (p : CTxMemPool) (hash : Uint256) (id : Mweb.Hash) : Prop :=
  ∃ tx, p.txOf hash = some tx ∧ id ∈ getOutputIDs cr tx

def IndexSound (p : CTxMemPool) : Prop :=
  ∀ id hash, p.mapTxOutputs_MWEB id = some hash → p.Creates cr hash id

/-- The index maps an output to a pool transaction exactly when some pool transaction creates it. -/
def IndexExact (p : CTxMemPool) : Prop :=
  ∀ id, (∃ hash, p.mapTxOutputs_MWEB id = some hash ∧ p.contains hash = true) ↔
    ∃ hash, p.Creates cr hash id

variable {cr} {p p' q : CTxMemPool}
variable {id : Mweb.Hash} {hash : Uint256} {e : CTxMemPoolEntry} {stage : List Uint256}

theorem Creates.contains (h : p.Creates cr hash id) : p.contains hash = true := by
  obtain ⟨tx, htx, -⟩ := h
  exact contains_iff_txOf.mpr ⟨tx, htx⟩

theorem IndexSound.exact_iff (h : p.IndexSound cr) :
    p.IndexExact cr ↔ ∀ id hash, p.Creates cr hash id → (p.mapTxOutputs_MWEB id).isSome = true := by
  constructor
  · intro hexact id hash hcreates
    obtain ⟨creator, hcreator, -⟩ := (hexact id).mpr ⟨hash, hcreates⟩
    rw [hcreator]
    rfl
  · intro hcomplete id
    constructor
    · rintro ⟨hash, hindex, -⟩
      exact ⟨hash, h id hash hindex⟩
    · rintro ⟨hash, hcreates⟩
      obtain ⟨creator, hcreator⟩ := Option.isSome_iff_exists.mp (hcomplete id hash hcreates)
      exact ⟨creator, hcreator, (h id creator hcreator).contains⟩

theorem Removed.creates_iff (h : Removed cr stage p q) (hash : Uint256) (id : Mweb.Hash) :
    q.Creates cr hash id ↔ hash ∉ stage ∧ p.Creates cr hash id := by
  unfold Creates
  rw [h.txOf]
  by_cases hmem : hash ∈ stage
  · simp [hmem]
  · simp [hmem]

theorem Removed.indexSound (h : Removed cr stage p q) (hsound : p.IndexSound cr) : q.IndexSound cr := by
  intro id hash hindex
  obtain ⟨hold, hnone⟩ := (h.mapTxOutputs_MWEB id hash).mp hindex
  have hcreates := hsound id hash hold
  rw [h.creates_iff]
  refine ⟨fun hmem => ?_, hcreates⟩
  obtain ⟨tx, htx, hid⟩ := hcreates
  exact hnone hash hmem tx htx hid

theorem Added.creates_iff (h : Added cr e q p') (hnew : q.contains e.tx.hash = false) (hash : Uint256)
    (id : Mweb.Hash) : p'.Creates cr hash id ↔
      q.Creates cr hash id ∨ (hash = e.tx.hash ∧ id ∈ getOutputIDs cr e.tx) :=
  h.exists_txOf hnew

theorem Added.isSome_index_iff (h : Added cr e q p') (id : Mweb.Hash) :
    (p'.mapTxOutputs_MWEB id).isSome = true ↔
      (q.mapTxOutputs_MWEB id).isSome = true ∨ id ∈ getOutputIDs cr e.tx := by
  rw [h.mapTxOutputs_MWEB, insertOutputs]
  cases q.mapTxOutputs_MWEB id with
  | some hash => simp
  | none => simp

theorem Added.indexSound (h : Added cr e q p') (hnew : q.contains e.tx.hash = false)
    (hsound : q.IndexSound cr) : p'.IndexSound cr := by
  intro id hash hindex
  rw [h.creates_iff hnew]
  rw [h.mapTxOutputs_MWEB, insertOutputs] at hindex
  split at hindex
  · rename_i creator hold
    cases hindex
    exact Or.inl (hsound id hash hold)
  · split_ifs at hindex with hid
    cases hindex
    exact Or.inr ⟨rfl, hid⟩

/-- No output is lost when the entries of `stage` leave and the outputs `ids` are entered. -/
def LosesNoOutput (cr : Mweb.Crypto) (p : CTxMemPool) (stage : List Uint256) (ids : List Mweb.Hash) : Prop :=
  ∀ id, ∀ r ∈ stage, p.Creates cr r id → ∀ hash ∉ stage, p.Creates cr hash id → id ∈ ids

theorem Removed.isSome_index_iff (h : Removed cr stage p q) (hsound : p.IndexSound cr)
    (hexact : p.IndexExact cr) (hcreates : p.Creates cr hash id) :
    (q.mapTxOutputs_MWEB id).isSome = true ↔ ∀ r ∈ stage, ¬ p.Creates cr r id := by
  rw [Option.isSome_iff_exists]
  constructor
  · rintro ⟨creator, hcreator⟩ r hr ⟨tx, htx, hid⟩
    exact ((h.mapTxOutputs_MWEB id creator).mp hcreator).2 r hr tx htx hid
  · intro hnone
    obtain ⟨creator, hcreator⟩ := Option.isSome_iff_exists.mp (hsound.exact_iff.mp hexact id hash hcreates)
    exact ⟨creator, (h.mapTxOutputs_MWEB id creator).mpr
      ⟨hcreator, fun r hr tx htx hid => hnone r hr ⟨tx, htx, hid⟩⟩⟩

theorem Removed.indexExact_iff (h : Removed cr stage p q) (hsound : p.IndexSound cr)
    (hexact : p.IndexExact cr) : q.IndexExact cr ↔ p.LosesNoOutput cr stage [] := by
  rw [(h.indexSound hsound).exact_iff]
  constructor
  · intro hcomplete id r hr hcreates hash hout hstays
    have hsome := hcomplete id hash ((h.creates_iff hash id).mpr ⟨hout, hstays⟩)
    exact absurd hcreates ((h.isSome_index_iff hsound hexact hstays).mp hsome r hr)
  · intro hkeeps id hash hcreates
    obtain ⟨hout, hstays⟩ := (h.creates_iff hash id).mp hcreates
    rw [h.isSome_index_iff hsound hexact hstays]
    intro r hr hleaves
    exact absurd (hkeeps id r hr hleaves hash hout hstays) (List.not_mem_nil)

/-- **Replacement**: a removal, and then an addition that may create again what was lost. -/
theorem Added.indexExact_iff (hremoved : Removed cr stage p q) (h : Added cr e q p')
    (hnew : q.contains e.tx.hash = false) (hsound : p.IndexSound cr) (hexact : p.IndexExact cr) :
    p'.IndexExact cr ↔ p.LosesNoOutput cr stage (getOutputIDs cr e.tx) := by
  rw [(h.indexSound hnew (hremoved.indexSound hsound)).exact_iff]
  constructor
  · intro hcomplete id r hr hcreates hash hout hstays
    have hsome := hcomplete id hash
      ((h.creates_iff hnew hash id).mpr (Or.inl ((hremoved.creates_iff hash id).mpr ⟨hout, hstays⟩)))
    rcases (h.isSome_index_iff id).mp hsome with hold | hid
    · exact absurd hcreates ((hremoved.isSome_index_iff hsound hexact hstays).mp hold r hr)
    · exact hid
  · intro hkeeps id hash hcreates
    rw [h.isSome_index_iff]
    rcases (h.creates_iff hnew hash id).mp hcreates with hold | ⟨-, hid⟩
    · obtain ⟨hout, hstays⟩ := (hremoved.creates_iff hash id).mp hold
      by_cases hid : id ∈ getOutputIDs cr e.tx
      · exact Or.inr hid
      · left
        rw [hremoved.isSome_index_iff hsound hexact hstays]
        intro r hr hleaves
        exact hid (hkeeps id r hr hleaves hash hout hstays)
    · exact Or.inr hid

theorem IndexExact.haveCoin (hexact : p.IndexExact cr) (coins : CoinsTip) (hcreates : p.Creates cr hash id)
    (hunspent : p.mapNextTx (.mweb id) = none) : p.haveCoin coins (.mweb id) = .ok true := by
  obtain ⟨_, hcreator, hcontains⟩ := (hexact id).mpr ⟨hash, hcreates⟩
  simp only [CTxMemPool.haveCoin, hunspent, hcreator, hcontains]
  rfl

/-! ### Conflicts -/

theorem mem_calculateDescendants (set : List Uint256) (h : p.contains hash = true) :
    hash ∈ p.calculateDescendants hash set := by
  unfold calculateDescendants
  split_ifs with hset
  · exact OrderedSet.mem_closure_of_mem _ _ _ _ hset
  · have hpos : 0 < p.size := List.length_pos_of_mem (contains_iff_mem_keys.mp h)
    obtain ⟨n, hn⟩ := Nat.exists_eq_succ_of_ne_zero hpos.ne'
    rw [hn, OrderedSet.closure]
    exact OrderedSet.mem_closure_of_mem _ _ _ _ ((OrderedSet.mem_insert _).mpr (.inl rfl))

theorem mem_calculateAllDescendants {roots : List Uint256} (hroot : hash ∈ roots)
    (h : p.contains hash = true) : hash ∈ p.calculateAllDescendants roots := by
  obtain ⟨before, after, rfl⟩ := List.append_of_mem hroot
  rw [calculateAllDescendants, List.foldl_append, List.foldl_cons]
  exact List.foldlRecOn after _ (mem_calculateDescendants _ h) fun _ hset _ _ =>
    OrderedSet.mem_closure_of_mem _ _ _ _ hset

theorem Removed.free {tx : CTransaction} {index : OutputIndex}
    (h : Removed cr (p.calculateAllDescendants (p.setConflicts tx)) p q) (hexact : p.SpendsExact)
    (hin : index ∈ getInputs tx) : q.mapNextTx index = none := by
  by_contra hsome
  obtain ⟨hash, hhash⟩ := Option.ne_none_iff_exists'.mp hsome
  obtain ⟨hold, hnone⟩ := (h.mapNextTx index hash).mp hhash
  obtain ⟨tx', htx', hin'⟩ := (hexact index hash).mp hold
  have hconflict : hash ∈ p.setConflicts tx :=
    (OrderedSet.mem_insertAll ..).mpr (Or.inr (List.mem_filterMap.mpr ⟨index, hin, hold⟩))
  exact hnone hash (mem_calculateAllDescendants hconflict (contains_iff_txOf.mpr ⟨tx', htx'⟩)) tx' htx' hin'

end CTxMemPool

namespace PoolState

variable {env : PoolEnv} {s s' : PoolState} {o : Option TxResult}

/-- **Step lemma**: the index stays sound, and it stays exact exactly if the step loses no
    output. -/
theorem step_index {a : PoolInput} (hsound : s.pool.IndexSound env.hashing.cr)
    (hexact : s.pool.IndexExact env.hashing.cr) (h : s.step env a = .ok (o, s')) :
    s'.pool.IndexSound env.hashing.cr ∧
      (s.pool.LosesNoOutput env.hashing.cr (s.leaving env a) (s.entering env a) ↔
        s'.pool.IndexExact env.hashing.cr) := by
  -- a step in which nothing leaves loses nothing
  have hquiet : s.pool.LosesNoOutput env.hashing.cr [] [] := by
    intro id r hr
    cases hr
  cases a with
  | setCoins coins =>
    cases h
    exact ⟨hsound, iff_of_true hquiet hexact⟩
  | remove stage updateDescendants =>
    obtain ⟨pool, hpool, heq⟩ := Outcome.map_eq_ok.mp h
    cases heq
    have hremoved := CTxMemPool.removed_of_removeStaged hpool
    exact ⟨hremoved.indexSound hsound, (hremoved.indexExact_iff hsound hexact).symm⟩
  | submit tx =>
    obtain ⟨⟨pool, result⟩, hpool, heq⟩ := Outcome.map_eq_ok.mp h
    cases heq
    simp only [leaving, entering, hpool]
    cases o with
    | some result =>
      have hsame := acceptToMemoryPool_refused hpool
      subst hsame
      exact ⟨hsound, iff_of_true hquiet hexact⟩
    | none =>
      obtain ⟨e, q, htx, hnew, hremoved, hadded⟩ := acceptToMemoryPool_effect hpool
      refine ⟨hadded.indexSound hnew (hremoved.indexSound hsound), ?_⟩
      rw [CTxMemPool.Added.indexExact_iff hremoved hadded hnew hsound hexact, htx]

/-! ### Runs -/

/-- In a run, the index is exact in every state, and unspent outputs of pool transactions are seen,
    exactly if no transaction leaves that creates an output which another one, that stays, creates. -/
theorem outputIndex_exact_iff {coins : CoinsTip} {inputs : List PoolInput} {os : List (Option TxResult)}
    (hrun : (machine env).run ⟨.empty, coins⟩ inputs = .ok (os, s)) :
    (∀ n os' s', (machine env).run ⟨.empty, coins⟩ (inputs.take n) = .ok (os', s') →
        s'.pool.IndexExact env.hashing.cr ∧
          ∀ id hash, s'.pool.Creates env.hashing.cr hash id → s'.pool.mapNextTx (.mweb id) = none →
            s'.pool.haveCoin s'.coins (.mweb id) = .ok true) ↔ (machine env).Guarded
        (fun s a => s.pool.LosesNoOutput env.hashing.cr (s.leaving env a) (s.entering env a))
        ⟨.empty, coins⟩ inputs := by
  have hsound : CTxMemPool.empty.IndexSound env.hashing.cr := by
    intro id hash hindex
    cases hindex
  have hexact : CTxMemPool.empty.IndexExact env.hashing.cr := by
    rw [hsound.exact_iff]
    rintro id hash ⟨tx, htx, -⟩
    cases htx
  have hstep : ∀ s a o s',
      s.pool.IndexSound env.hashing.cr → s.pool.IndexExact env.hashing.cr →
      (machine env).step s a = .ok (o, s') → s'.pool.IndexSound env.hashing.cr ∧
        (s.pool.LosesNoOutput env.hashing.cr (s.leaving env a) (s.entering env a) ↔
          s'.pool.IndexExact env.hashing.cr) :=
    fun s a o s' hsound hexact h => step_index hsound hexact h
  rw [Machine.guarded_iff_along hstep inputs ⟨.empty, coins⟩ os s hsound hexact hrun]
  constructor
  · intro hall n os' s' hprefix
    exact (hall n os' s' hprefix).1
  · intro hall n os' s' hprefix
    have hindex := hall n os' s' hprefix
    exact ⟨hindex, fun id hash hcreates hunspent => hindex.haveCoin s'.coins hcreates hunspent⟩

/-- A node that has no rules of its own. -/
def openEnv : PoolEnv where
  policy :=
    { mempoolreplacement := false
      standard := fun _ => none
      evaluate := fun _ _ _ => .ok (1, 1, 1, 1)
      limits := ⟨25, 101000, 25, 101000⟩
      replacement := fun _ _ _ => none
      scripts := fun _ _ _ => none }
  hashing := Relay.numberHashing
  mwebEnabled := true

def allUnspent : CoinsTip := ⟨fun _ => true, fun _ => false⟩

/-- The same peg-in, paid for by other coins. -/
def secondPegin : Relay.CMutableTransaction :=
  { Relay.peginTx with
    vin :=
      [{ prevout := ⟨2, 0⟩, scriptSig := [], nSequence := 0, scriptWitness := [] },
       { prevout := ⟨3, 0⟩, scriptSig := [], nSequence := 0, scriptWitness := [] }] }

/-- A peg-in enters the pool, and its first output is seen. -/
theorem outputIndex_exact_iff_pegin : ∃ s,
    (machine openEnv).run ⟨.empty, allUnspent⟩ [.submit Relay.peginTx] = .ok ([none], s) ∧
      s.pool.IndexExact openEnv.hashing.cr ∧
      s.pool.haveCoin s.coins (.mweb ((Mweb.numberOutput 11).getOutputID Mweb.numberCrypto)) = .ok true := by
  have hok : ((machine openEnv).run ⟨.empty, allUnspent⟩ [.submit Relay.peginTx]).map
      (fun r => (r.1, (r.2.pool.txOf (Relay.peginTx.computeHash Relay.numberHashing)).map
          (fun tx => decide ((Mweb.numberOutput 11).getOutputID Mweb.numberCrypto ∈
            getOutputIDs Mweb.numberCrypto tx)),
        r.2.pool.mapNextTx (.mweb ((Mweb.numberOutput 11).getOutputID Mweb.numberCrypto)))) =
      .ok ([none], some true, none) := by
    decide +kernel
  obtain ⟨⟨os, s⟩, hrun, heq⟩ := Outcome.map_eq_ok.mp hok
  rw [Prod.mk.injEq, Prod.mk.injEq] at heq
  obtain ⟨rfl, htx, hunspent⟩ := heq
  obtain ⟨tx, htx, hid⟩ := Option.map_eq_some_iff.mp htx
  -- nothing is in the pool that could be lost
  have hguard : (machine openEnv).Guarded
      (fun s a => s.pool.LosesNoOutput openEnv.hashing.cr (s.leaving openEnv a) (s.entering openEnv a))
      ⟨.empty, allUnspent⟩ [.submit Relay.peginTx] := by
    refine ⟨?_, fun _ _ _ => trivial⟩
    rintro id r - ⟨tx, htx, -⟩
    cases htx
  obtain ⟨hexact, hseen⟩ := (outputIndex_exact_iff hrun).mpr hguard 1 _ s hrun
  exact ⟨s, hrun, hexact, hseen _ _ ⟨tx, htx, of_decide_eq_true hid⟩ hunspent⟩

/-- Two transactions create the same outputs. When the second one leaves, the index has no place for
    an output that the first one creates. -/
theorem output_lost_with_second_creator : ∃ os s, (machine openEnv).run ⟨.empty, allUnspent⟩
        [.submit Relay.peginTx, .submit secondPegin,
          .remove [secondPegin.computeHash Relay.numberHashing] false] = .ok (os, s) ∧
      os = [none, none, none] ∧ ¬ s.pool.IndexExact openEnv.hashing.cr := by
  have hok : ((machine openEnv).run ⟨.empty, allUnspent⟩
      [.submit Relay.peginTx, .submit secondPegin,
        .remove [secondPegin.computeHash Relay.numberHashing] false]).map
      (fun r => (r.1, (r.2.pool.txOf (Relay.peginTx.computeHash Relay.numberHashing)).map
          (fun tx => decide ((Mweb.numberOutput 11).getOutputID Mweb.numberCrypto ∈
            getOutputIDs Mweb.numberCrypto tx)),
        r.2.pool.mapTxOutputs_MWEB ((Mweb.numberOutput 11).getOutputID Mweb.numberCrypto))) =
      .ok ([none, none, none], some true, none) := by
    decide +kernel
  obtain ⟨⟨os, s⟩, hrun, heq⟩ := Outcome.map_eq_ok.mp hok
  rw [Prod.mk.injEq, Prod.mk.injEq] at heq
  obtain ⟨hos, htx, hindex⟩ := heq
  obtain ⟨tx, htx, hid⟩ := Option.map_eq_some_iff.mp htx
  refine ⟨os, s, hrun, hos, fun hexact => ?_⟩
  obtain ⟨creator, hcreator, -⟩ := (hexact _).mpr ⟨_, tx, htx, of_decide_eq_true hid⟩
  have hnone : none = some creator := hindex.symm.trans hcreator
  cases hnone

theorem step_spends {a : PoolInput} (hexact : s.pool.SpendsExact) (h : s.step env a = .ok (o, s')) :
    s'.pool.SpendsExact := by
  cases a with
  | setCoins coins =>
    cases h
    exact hexact
  | remove stage updateDescendants =>
    obtain ⟨pool, hpool, heq⟩ := Outcome.map_eq_ok.mp h
    cases heq
    exact (CTxMemPool.removed_of_removeStaged hpool).spendsExact hexact
  | submit tx =>
    obtain ⟨⟨pool, result⟩, hpool, heq⟩ := Outcome.map_eq_ok.mp h
    cases heq
    cases o with
    | some result =>
      rw [acceptToMemoryPool_refused hpool]
      exact hexact
    | none =>
      obtain ⟨e, q, -, hnew, hremoved, hadded⟩ := acceptToMemoryPool_effect hpool
      exact hadded.spendsExact hnew (fun _ hin => hremoved.free hexact hin) (hremoved.spendsExact hexact)

/-- In every run of submissions and removals, `mapNextTx` maps an output to the pool transactions
    that spend it, and no two of them spend the same output. -/
theorem pool_conflictFree {coins : CoinsTip} {inputs : List PoolInput} {os : List (Option TxResult)}
    (hrun : (machine env).run ⟨.empty, coins⟩ inputs = .ok (os, s)) : s.pool.SpendsExact ∧
      ∀ a ta b tb, s.pool.txOf a = some ta → s.pool.txOf b = some tb → a ≠ b →
        (getInputs ta).Disjoint (getInputs tb) := by
  have hempty : CTxMemPool.empty.SpendsExact := by
    intro index hash
    constructor
    · intro hnext
      cases hnext
    · rintro ⟨tx, htx, -⟩
      cases htx
  have hstep : ∀ s a o s', s.pool.SpendsExact → (machine env).step s a = .ok (o, s') →
      s'.pool.SpendsExact :=
    fun s a o s' hexact h => step_spends hexact h
  have hexact : s.pool.SpendsExact := Machine.run_keeps hstep inputs _ os s hempty hrun
  refine ⟨hexact, fun a ta b tb hta htb hne index ha hb => hne ?_⟩
  have hsame := ((hexact index a).mpr ⟨ta, hta, ha⟩).symm.trans ((hexact index b).mpr ⟨tb, htb, hb⟩)
  exact Option.some.inj hsame

def replacingEnv : PoolEnv := { openEnv with policy := { openEnv.policy with mempoolreplacement := true } }

/-- It is paid for by the coins of both. -/
def bothPegins : Relay.CMutableTransaction := { secondPegin with vin := Relay.peginTx.vin ++ secondPegin.vin }

theorem pool_conflictFree_replaced : ∃ os s, (machine replacingEnv).run ⟨.empty, allUnspent⟩
        [.submit Relay.peginTx, .submit bothPegins] = .ok (os, s) ∧
      os = [none, none] ∧ s.pool.SpendsExact ∧
      ∀ a ta b tb, s.pool.txOf a = some ta → s.pool.txOf b = some tb → a ≠ b →
        (getInputs ta).Disjoint (getInputs tb) := by
  have hok : ((machine replacingEnv).run ⟨.empty, allUnspent⟩
      [.submit Relay.peginTx, .submit bothPegins]).map Prod.fst = .ok [none, none] := by
    decide +kernel
  obtain ⟨⟨os, s⟩, hrun, hos⟩ := Outcome.map_eq_ok.mp hok
  exact ⟨os, s, hrun, hos, pool_conflictFree hrun⟩

end PoolState

end Defcoin.Mempool
