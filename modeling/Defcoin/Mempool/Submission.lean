import Defcoin.Consensus.NoOverflow
import Defcoin.Mempool.Accounting
import Defcoin.Mempool.OutputIndex

/-! # Submissions keep the books

  What `AcceptToMemoryPool` accepts takes the place of its conflicts and of all that depends on
  them. The ancestors were searched for before these left. None is lost with them: it would depend
  on a conflict, which would be an ancestor then, and `PreChecks` refuses that.
-/

namespace Defcoin.Mempool

open Relation Outcome List

/-! ### Checks that return -/

theorem acceptToMemoryPool_succeeds {Pool : Type} (env : Relay.AcceptEnv Pool) {pool : Pool}
    {tx : Relay.CMutableTransaction} {Q : Pool → Prop} (hplain : tx.mweb_tx = none) (hpool : Q pool)
    (hlater : Succeeds (env.later pool tx) fun r => Q r.1) :
    Succeeds (Relay.acceptToMemoryPool env pool tx) fun r => Q r.1 := by
  unfold Relay.acceptToMemoryPool
  split
  · exact .ok hpool
  · rename_i h
    exact absurd h (checkTransaction_avoids (by simp) _)
  · rename_i h
    exact absurd h (checkTransaction_avoids (by simp) _)
  split
  · exact .ok hpool
  split
  · rename_i h
    simp only [Relay.mwebCheckTransaction, hplain] at h
    split at h
    · cases h
    · split_ifs at h
  · exact .ok hpool
  split
  · exact .ok hpool
  split
  · exact .ok hpool
  · exact hlater

namespace CTxMemPool

variable {cr : Mweb.Crypto} {p q : CTxMemPool} {tx : CTransaction} {stage : List Uint256} {coins : CoinsTip}
  {policy : Policy}

theorem mem_getInputs_plain (hplain : tx.mweb_tx = none) {index : OutputIndex} (h : index ∈ getInputs tx) :
    ∃ txin ∈ tx.vin, index = .outpoint txin.prevout := by
  simp only [getInputs, hplain, Option.map_none, Option.getD_none, map_nil, append_nil, mem_map] at h
  obtain ⟨txin, hin, rfl⟩ := h
  exact ⟨txin, hin, rfl⟩

theorem outpoints_of_plain (hplain : tx.mweb_tx = none) :
    ∀ index ∈ getInputs tx, ∃ prevout, index = .outpoint prevout := by
  intro index hin
  obtain ⟨txin, -, rfl⟩ := mem_getInputs_plain hplain hin
  exact ⟨_, rfl⟩

theorem checkInputs_succeeds (p : CTxMemPool) (coins : CoinsTip) (outputs : List OutputIndex)
    {inputs : List OutputIndex} (h : ∀ index ∈ inputs, ∃ prevout, index = .outpoint prevout) :
    Succeeds (checkInputs p coins outputs inputs) fun result =>
      result = none → ∀ index ∈ inputs, p.haveCoin coins index = .ok true := by
  induction inputs with
  | nil => exact ⟨none, rfl, by simp⟩
  | cons index rest ih =>
    obtain ⟨prevout, rfl⟩ := h index mem_cons_self
    obtain ⟨b, hb⟩ : ∃ b, p.haveCoin coins (.outpoint prevout) = .ok b := by
      simp only [haveCoin]
      split <;> exact ⟨_, rfl⟩
    apply Succeeds.bind_of_eq hb
    cases b with
    | false =>
      refine ⟨_, rfl, fun hnone => ?_⟩
      cases hnone
    | true =>
      apply (ih fun index hin => h index (mem_cons_of_mem _ hin)).mono
      intro result hresult hnone
      exact forall_mem_cons.mpr ⟨hb, hresult hnone⟩

theorem preChecks_succeeds (policy : Policy) (p : CTxMemPool) (coins : CoinsTip) (outputs : List OutputIndex)
    (hplain : tx.mweb_tx = none) : Succeeds (preChecks policy coins p outputs tx) fun _ => True := by
  obtain ⟨result, hresult, -⟩ := checkInputs_succeeds p coins outputs (outpoints_of_plain hplain)
  unfold preChecks
  rw [hresult]
  split
  · exact .ok trivial
  split
  · exact .ok trivial
  split
  · exact .ok trivial
  cases result with
  | some result => exact .ok trivial
  | none => exact .ok trivial

/-! ### Ancestors -/

theorem Books.validInputs {L : Uint256 → Uint256 → Prop} (hbooks : p.Books L) (hplain : tx.mweb_tx = none)
    (hcoins : ∀ index ∈ getInputs tx, p.haveCoin coins index = .ok true) : p.ValidInputs cr tx := by
  intro index hin a ta hparent hta
  obtain ⟨prevout, rfl⟩ := outpoints_of_plain hplain index hin
  cases hparent
  obtain ⟨e, he, rfl⟩ := Option.map_eq_some_iff.mp hta
  have hcoin := hcoins _ hin
  simp only [haveCoin, he, Except.ok.injEq, decide_eq_true_eq] at hcoin
  refine (mem_getOutputs_plain (hbooks.plain _ _ hta)).mpr ⟨prevout.n, hcoin, ?_⟩
  rw [hbooks.keyed _ _ hta]

theorem Books.ancestorSet (hbooks : p.Books (p.Spends cr)) (hvalid : p.ValidInputs cr tx) :
    AncestorSet (p.Spends cr) (p.Funds cr tx) (p.searchAncestors tx) := by
  have hlinked := hbooks.exact.linked
  have hparents : ∀ x, x ∈ p.parentsInPool tx ↔ p.IsParent tx x := by
    intro x
    have hmem : x ∈ p.parentsInPool tx ↔ x ∈ [] ∨ x ∈ (getInputs tx).filterMap p.getIter :=
      OrderedSet.mem_insertAll _
    rw [hmem, IsParent, mem_setParentTransactions]
    simp only [not_mem_nil, false_or, mem_filterMap, getIter, Option.filter_eq_some_iff]
    constructor
    · rintro ⟨index, hin, hparent, hcontains⟩
      exact ⟨⟨index, hin, hparent⟩, hcontains⟩
    · rintro ⟨⟨index, hin, hparent⟩, hcontains⟩
      exact ⟨index, hin, hparent, hcontains⟩
  obtain ⟨hset, hmem⟩ := closure_parents_spec hlinked.up hlinked.left
    (fun x hx => ((hparents x).mp hx).2) (nodup_parentsInPool tx)
  refine ⟨hset, fun a => ?_⟩
  rw [searchAncestors, hmem]
  simp only [hparents, ← hbooks.isParent_iff hvalid]

theorem AncestorSet.removed {set : List Uint256} (h : AncestorSet (p.Spends cr) (p.Funds cr tx) set)
    (hremoved : Removed cr stage p q) (hkept : ∀ a ∈ set, a ∉ stage) :
    AncestorSet (q.Spends cr) (q.Funds cr tx) set := by
  refine ⟨h.nodup, fun a => ?_⟩
  rw [hremoved.spends]
  constructor
  · intro ha
    obtain ⟨x, hx, hpath⟩ := (h.mem a).mp ha
    have hx' : x ∉ stage := hkept x ((h.mem x).mpr ⟨x, hx, .refl⟩)
    obtain ⟨ta, hta, hindex⟩ := hx
    refine ⟨x, ⟨ta, by rw [hremoved.txOf, if_neg hx', hta], hindex⟩, ?_⟩
    -- every entry on the path is an ancestor
    induction hpath using ReflTransGen.head_induction_on with
    | refl => exact .refl
    | @head b c hstep hrest ih =>
      have hc := (h.mem c).mpr ⟨x, ⟨ta, hta, hindex⟩, hrest⟩
      exact .head ⟨hstep, hkept b ha, hkept c hc⟩ (ih hc)
  · rintro ⟨x, ⟨ta, hta, hindex⟩, hpath⟩
    rw [hremoved.txOf] at hta
    split_ifs at hta
    exact (h.mem a).mpr ⟨x, ⟨ta, hta, hindex⟩, ReflTransGen.mono (fun _ _ hstep => hstep.1) _ _ hpath⟩

/-! ### One submission -/

/-- What is asked of a submission: no extension block data, no input from itself, and no pool
    transaction that spends its outputs. -/
structure Offered (cr : Mweb.Crypto) (p : CTxMemPool) (tx : CTransaction) : Prop where
  plain : tx.mweb_tx = none
  self : ∀ txin ∈ tx.vin, txin.prevout.hash ≠ tx.hash
  childless : ∀ index ∈ getOutputs cr tx, p.mapNextTx index = none

/-- The cost of signature operations that is found for a transaction and those of its ancestors fit
    into an `int` together. -/
def SigOpsFitWith (policy : Policy) (coins : CoinsTip) (p : CTxMemPool) (tx : CTransaction) : Prop :=
  ∀ nFees txSize mweb_weight sigOpCost,
    policy.evaluate p coins tx = .ok (nFees, txSize, mweb_weight, sigOpCost) →
      sigOpCost + ((p.searchAncestors tx).map p.own).sum .sigOps < 2 ^ 31

theorem Accounts.conflicts_spec (hacc : p.Accounts cr) (tx : CTransaction) :
    p.DownClosed (p.Spends cr) (p.calculateAllDescendants (p.setConflicts tx)) ∧
      ∀ d, d ∈ p.calculateAllDescendants (p.setConflicts tx) ↔
        ∃ a ∈ p.setConflicts tx, ReflTransGen (p.Spends cr) a d := by
  have hlinked := hacc.books.exact.linked
  apply calculateAllDescendants_spec hlinked.down hlinked.right
  intro hash hhash
  have hspender := ((OrderedSet.mem_insertAll _).mp hhash).resolve_left not_mem_nil
  obtain ⟨index, -, hspender⟩ := mem_filterMap.mp hspender
  exact hacc.books.contains_spender hspender

theorem Accounts.finalize (hacc : p.Accounts cr) {outputs : List OutputIndex} {c : Candidate}
    (hc : Prechecked policy coins p outputs tx c) (h : Offered cr p tx) (hfits : SigOpsFitWith policy coins p tx) :
    Succeeds (finalize cr p c) fun p' => p'.Accounts cr := by
  obtain ⟨hclosed, hconflicts⟩ := hacc.conflicts_spec tx
  rw [← hc.allConflicting] at hclosed hconflicts
  obtain ⟨q, hq, hqacc⟩ := hacc.event (e := .remove c.allConflicting) hclosed
  have hremoved := removed_of_removeStaged hq
  obtain ⟨result, hresult, hcoins⟩ := checkInputs_succeeds p coins outputs (outpoints_of_plain h.plain)
  rw [hc.inputs] at hresult
  cases hresult
  have hvalid : p.ValidInputs cr tx := hacc.books.validInputs h.plain (hcoins rfl)
  have hset := hacc.books.ancestorSet hvalid
  rw [← hc.setAncestors] at hset
  have hkept : ∀ a ∈ c.setAncestors, a ∉ c.allConflicting := by
    intro a ha hconflicting
    obtain ⟨r, hr, hpath⟩ := (hconflicts a).mp hconflicting
    obtain ⟨x, hx, hpath'⟩ := (hset.mem a).mp ha
    exact hc.apart r ((hset.mem r).mpr ⟨x, hx, hpath.trans hpath'⟩) hr
  obtain ⟨nFees, txSize, mweb_weight, sigOpCost, hevaluate, hentry⟩ := hc.entry
  have hsigops := hfits _ _ _ _ hevaluate
  rw [← hc.setAncestors] at hsigops
  have hown : c.setAncestors.map q.own = c.setAncestors.map p.own := by
    apply map_congr_left
    intro a ha
    have hstatic : q.static a = p.static a := by rw [hremoved.static, if_neg (hkept a ha)]
    exact own_of_static_eq hstatic
  have hadd : Addable cr q ⟨tx, nFees, txSize, mweb_weight, sigOpCost, c.setAncestors⟩ := by
    refine ⟨⟨⟨h.plain, hremoved.not_contains hc.new, ?_, hset.removed hremoved hkept, ?_⟩, ?_, ?_⟩, ?_⟩
    · intro index hin
      exact (hc.allConflicting ▸ hremoved).free hacc.books.spends hin
    · rw [hown]
      exact hsigops
    · intro index hin a ta hparent hta
      obtain ⟨prevout, rfl⟩ := outpoints_of_plain h.plain index hin
      exact hvalid _ hin a ta hparent (hremoved.partOf a ta hta)
    · intro index hin hself
      obtain ⟨txin, htxin, rfl⟩ := mem_getInputs_plain h.plain hin
      exact h.self txin htxin (Option.some.inj hself)
    · intro index hout
      by_contra hsome
      obtain ⟨hash, hhash⟩ := Option.ne_none_iff_exists'.mp hsome
      have hold := ((hremoved.mapNextTx index hash).mp hhash).1
      rw [h.childless index hout] at hold
      cases hold
  apply Succeeds.bind_of_eq hq
  rw [hentry]
  exact hqacc.add hadd

end CTxMemPool

/-! ### Runs -/

namespace PoolState

def Admits (env : PoolEnv) (s : PoolState) : PoolInput → Prop
  | .submit tx => s.pool.Offered env.hashing.cr (tx.toTransaction env.hashing) ∧
    s.pool.SigOpsFitWith env.policy s.coins (tx.toTransaction env.hashing)
  | .remove stage updateDescendants =>
    s.pool.DownClosed (s.pool.Spends env.hashing.cr) stage ∧ updateDescendants = false
  | .setCoins _ => True

variable {env : PoolEnv} {s : PoolState} {a : PoolInput}

theorem step_accounts (hacc : s.pool.Accounts env.hashing.cr) (ha : s.Admits env a) :
    ∃ o s', s.step env a = .ok (o, s') ∧ s'.pool.Accounts env.hashing.cr := by
  cases a with
  | setCoins coins => exact ⟨none, _, rfl, hacc⟩
  | remove stage updateDescendants =>
    obtain ⟨hclosed, rfl⟩ := ha
    obtain ⟨p', hp', hacc'⟩ := hacc.event (e := .remove stage) hclosed
    exact ⟨none, _, map_eq_ok.mpr ⟨p', hp', rfl⟩, hacc'⟩
  | submit tx =>
    obtain ⟨hoffered, hfits⟩ := ha
    have hlater : Succeeds (acceptSingleTransaction env.policy env.hashing s.coins s.pool tx)
        fun r => r.1.Accounts env.hashing.cr := by
      obtain ⟨r, hr, -⟩ := CTxMemPool.preChecks_succeeds env.policy s.pool s.coins
        (getOutputs env.hashing.cr (tx.toTransaction env.hashing)) hoffered.plain
      unfold acceptSingleTransaction
      rw [hr]
      cases r with
      | error result => exact .ok hacc
      | ok c => exact (hacc.finalize (preChecks_eq_ok hr) hoffered hfits).map fun _ h => h
    obtain ⟨⟨p', result⟩, hp', hacc'⟩ := acceptToMemoryPool_succeeds
      ⟨env.hashing, env.mwebEnabled, acceptSingleTransaction env.policy env.hashing s.coins⟩
      (Option.map_eq_none_iff.mp hoffered.plain) hacc hlater
    exact ⟨result, _, map_eq_ok.mpr ⟨_, hp', rfl⟩, hacc'⟩

/-- In every run that is asked for rightly all steps return, and in the end the links are the spends
    and the totals the sums over ancestors or descendants, whatever was replaced on the way. -/
theorem submissions_accounts {coins : CoinsTip} {inputs : List PoolInput}
    (h : (machine env).Guarded (Admits env) ⟨.empty, coins⟩ inputs) :
    ∃ os s, (machine env).run ⟨.empty, coins⟩ inputs = .ok (os, s) ∧ s.pool.Accounts env.hashing.cr :=
  Machine.run_invariant (fun _ _ => step_accounts) inputs _ (CTxMemPool.accounts_empty _) h

def payment (vin : List CTxIn) : Relay.CMutableTransaction :=
  { Relay.peginTx with vin := vin, vout := [{ nValue := 10, scriptPubKey := [] }], mweb_tx := none }

theorem submissions_accounts_replaced : ∃ os s, (machine replacingEnv).run ⟨.empty, allUnspent⟩
        [.submit (payment Relay.peginTx.vin), .submit (payment bothPegins.vin)] = .ok (os, s) ∧
      s.pool.Accounts replacingEnv.hashing.cr := by
  have hnext : ((machine replacingEnv).step ⟨.empty, allUnspent⟩ (.submit (payment Relay.peginTx.vin))).map
      (fun r => ((getOutputs replacingEnv.hashing.cr ((payment bothPegins.vin).toTransaction
        replacingEnv.hashing)).all fun index => (r.2.pool.mapNextTx index).isNone,
        ((r.2.pool.searchAncestors ((payment bothPegins.vin).toTransaction
          replacingEnv.hashing)).map r.2.pool.own).sum .sigOps)) = .ok (true, 0) := by
    decide +kernel
  apply submissions_accounts
  refine ⟨⟨⟨rfl, by decide +kernel, fun _ _ => rfl⟩, ?_⟩,
    fun o s' hstep => ⟨⟨⟨rfl, by decide +kernel, ?_⟩, ?_⟩, ?_⟩⟩
  · intro _ _ _ _ hevaluate
    cases hevaluate
    decide +kernel
  · rw [hstep] at hnext
    intro index hout
    simpa using all_eq_true.mp (congrArg Prod.fst (Except.ok.inj hnext)) index hout
  · intro _ _ _ _ hevaluate
    cases hevaluate
    rw [hstep] at hnext
    have hsum : (((s'.pool.searchAncestors _).map s'.pool.own).sum .sigOps : Int) = 0 :=
      congrArg Prod.snd (Except.ok.inj hnext)
    rw [hsum]
    decide
  · exact fun _ _ _ => trivial

end PoolState

end Defcoin.Mempool
