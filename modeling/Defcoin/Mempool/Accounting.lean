import Defcoin.Mempool.Batches
import Defcoin.Mweb.BuilderSoundness

/-! # Accounting over whole histories

  A pool starts empty and is changed by additions, removals, blocks, priorities and reorganisations.
  Its books are right after every step.
-/

namespace Defcoin.Mempool

open Relation Dag Mweb Outcome List

/-! ### Histories -/

/-- What becomes of a transaction of a disconnected block. -/
inductive Offer where
  /-- It is accepted again. -/
  | readd (x : Addition)
  /-- It is refused. -/
  | refuse (tx : CTransaction)

inductive PoolEvent where
  | add (x : Addition)
  /-- Entries are removed with all their descendants: `Expire`, `TrimToSize`. -/
  | remove (stage : List Uint256)
  | removeRecursive (tx : CTransaction)
  | removeForBlock (vtx : List CTransaction) (block_kernels : Option (List Mweb.Hash))
  | prioritise (hash : Uint256) (nFeeDelta : Int)
  /-- `UpdateMempoolForReorg`, with the transactions of the disconnected blocks in chain order. -/
  | reorg (offers : List Offer)

namespace CTxMemPool

section
variable (cr : Mweb.Crypto)

/-- One offer; the second part of the state is `vHashUpdate`. -/
def offer (s : CTxMemPool × List Uint256) :
    Offer → Except Fault (Unit × CTxMemPool × List Uint256)
  | .readd x =>
    (s.1.addUnchecked cr x.entry x.setAncestors).map fun p => ((), p, s.2 ++ [x.tx.hash])
  | .refuse tx => (s.1.removeRecursive cr tx).map fun p => ((), p, s.2)

def offerMachine : Machine (CTxMemPool × List Uint256) Offer Unit Fault where
  step := offer cr

/-- `UpdateMempoolForReorg` up to `UpdateTransactionsFromBlock`. -/
def updateMempoolForReorg (p : CTxMemPool) (offers : List Offer) : Except Fault CTxMemPool := do
  let r ← (offerMachine cr).run (p, []) offers
  r.2.1.updateTransactionsFromBlock cr r.2.2

def event (p : CTxMemPool) : PoolEvent → Except Fault CTxMemPool
  | .add x => p.addUnchecked cr x.entry x.setAncestors
  | .remove stage => p.removeStaged cr stage false
  | .removeRecursive tx => p.removeRecursive cr tx
  | .removeForBlock vtx block_kernels => p.removeForBlock cr vtx block_kernels
  | .prioritise hash nFeeDelta => p.prioritiseTransaction hash nFeeDelta
  | .reorg offers => p.updateMempoolForReorg cr offers

def machine : Machine CTxMemPool PoolEvent Unit Fault where
  step p e := (p.event cr e).map fun p => ((), p)

def OfferAdmissible (s : CTxMemPool × List Uint256) : Offer → Prop
  | .readd x => Readdable cr s.2 s.1 x
  | .refuse tx => Refusable cr s.2 s.1 tx

/-- What is asked of an event, with `A` what is asked of additions. What a reorganisation brings back
    is below the entries that spend it only in the end, so sums are bounded there. -/
def Admissible (A : CTxMemPool → Addition → Prop) (p : CTxMemPool) : PoolEvent → Prop
  | .add x => A p x
  | .remove stage => p.DownClosed (p.Spends cr) stage
  | .removeRecursive _ => True
  | .removeForBlock vtx _ => BlockOrdered cr p vtx
  | .prioritise _ _ => True
  | .reorg offers => (offerMachine cr).Guarded (OfferAdmissible cr) (p, []) offers ∧
    ∀ us s, (offerMachine cr).run (p, []) offers = .ok (us, s) → s.1.SigOpsFit (TransGen (s.1.Spends cr))

end

variable {cr : Mweb.Crypto} {p : CTxMemPool}

theorem txOf_empty (h : Uint256) : empty.txOf h = none := rfl

theorem accounts_empty (cr : Mweb.Crypto) : empty.Accounts cr := by
  have hspends : ∀ {a b}, ¬ empty.Spends cr a b := by
    rintro a b ⟨ta, -, ha, -⟩
    cases ha
  have hlinks : ∀ {a}, empty.parents a = [] ∧ empty.children a = [] := ⟨rfl, rfl⟩
  refine ⟨⟨by simp [txOf_empty], by simp [txOf_empty], ⟨⟨⟨?_, ?_⟩, ⟨?_, ?_⟩, ?_, ?_, ?_⟩, ?_, ?_⟩, ?_, rfl, ?_⟩, ?_⟩
  · intro b
    exact nodup_nil
  · intro a b
    rw [hlinks.1]
    simp [hspends]
  · intro a
    exact nodup_nil
  · intro a b
    rw [hlinks.2]
    simp [hspends]
  · exact fun a b h => absurd h hspends
  · exact fun a b h => absurd h hspends
  · intro a hcycle
    obtain ⟨b, hstep, -⟩ := TransGen.head'_iff.mp hcycle
    exact hspends hstep
  · intro h e he
    cases he
  · intro h e he
    cases he
  · intro h hh
    cases hh
  · intro index h
    rw [txOf_empty]
    simp [empty]
  · intro h e he
    cases he

theorem Accounts.updateMempoolForReorg (hacc : p.Accounts cr) {offers : List Offer}
    (hoffers : Admissible cr (Addable cr) p (.reorg offers)) :
    Succeeds (p.updateMempoolForReorg cr offers) fun p' => p'.Accounts cr := by
  have hstep : ∀ s o, Readding cr s.2 s.1 →
      OfferAdmissible cr s o → ∃ u s', (offerMachine cr).step s o = .ok (u, s') ∧ Readding cr s'.2 s'.1 := by
    intro s o hre ho
    cases o with
    | readd x =>
      obtain ⟨p', hp', hre'⟩ := hre.readd ho
      exact ⟨(), (p', s.2 ++ [x.tx.hash]), map_eq_ok.mpr ⟨p', hp', rfl⟩, hre'⟩
    | refuse tx =>
      obtain ⟨p', hp', hre'⟩ := hre.refuse ho
      exact ⟨(), (p', s.2), map_eq_ok.mpr ⟨p', hp', rfl⟩, hre'⟩
  obtain ⟨_, s, hrun, hre⟩ := Machine.run_invariant hstep offers (p, []) hacc.readding hoffers.1
  exact Succeeds.bind_of_eq hrun (hre.update (hoffers.2 _ s hrun))

theorem Accounts.event (hacc : p.Accounts cr) {e : PoolEvent} (he : Admissible cr (Addable cr) p e) :
    Succeeds (p.event cr e) fun p' => p'.Accounts cr := by
  -- what is removed with all its descendants
  have hremoved : ∀ {stage p'}, Removed cr stage p p' ∧ p'.Books (Dag.Within (· ∉ stage) (p.Spends cr)) →
      p'.Accounts cr := by
    intro stage p' h
    refine ⟨?_, Deltas.removed h.1 fun h' e' _ => hacc.deltas h' e'⟩
    rw [h.1.spends]
    exact h.2
  cases e with
  | add x => exact hacc.add he
  | remove stage => exact (hacc.books.removeStaged he).mono fun p' hp' => hremoved hp'
  | removeRecursive tx =>
    apply (hacc.books.removeRecursive tx).mono
    intro p' hp'
    obtain ⟨stage, -, -, hp'⟩ := hp'
    exact hremoved hp'
  | removeForBlock vtx block_kernels => exact hacc.removeForBlock he block_kernels
  | prioritise hash nFeeDelta => exact hacc.prioritiseTransaction hash nFeeDelta
  | reorg offers => exact hacc.updateMempoolForReorg he

/-- **Accounting**: along every admissible history no assertion fails, and in the end the links are
    the spends, every total is the sum over the transitive closure, and sizes and spends are those of
    the entries. -/
theorem accounts_of_admissible (cr : Mweb.Crypto) (events : List PoolEvent)
    (h : (machine cr).Guarded (Admissible cr (Addable cr)) empty events) :
    ∃ us p, (machine cr).run empty events = .ok (us, p) ∧ p.Accounts cr := by
  have hstep : ∀ p e, p.Accounts cr → Admissible cr (Addable cr) p e →
      ∃ u p', (machine cr).step p e = .ok (u, p') ∧ p'.Accounts cr := by
    intro p e hacc he
    obtain ⟨p', hp', hacc'⟩ := hacc.event he
    exact ⟨(), p', map_eq_ok.mpr ⟨p', hp', rfl⟩, hacc'⟩
  exact Machine.run_invariant hstep events empty (accounts_empty cr) h

/-! ### A parent that comes after its child -/

/-- A transaction with one output. -/
def parentTx : CTransaction where
  vin := [{ prevout := ⟨7, 0⟩, scriptSig := [], nSequence := 0, scriptWitness := [] }]
  vout := [{ nValue := 10, scriptPubKey := [] }]
  nVersion := 2
  nLockTime := 0
  mweb_tx := none
  m_hogEx := false
  hash := 1

/-- The output of `parentTx` is spent. -/
def childTx : CTransaction where
  vin := [{ prevout := ⟨1, 0⟩, scriptSig := [], nSequence := 0, scriptWitness := [] }]
  vout := []
  nVersion := 2
  nLockTime := 0
  mweb_tx := none
  m_hogEx := false
  hash := 2

def rootAddition (tx : CTransaction) : Addition := ⟨tx, 5, 100, 0, 4, []⟩

theorem submittable_childTx (cr : Mweb.Crypto) : Submittable cr empty (rootAddition childTx) := by
  refine ⟨rfl, rfl, fun _ _ => rfl, ⟨nodup_nil, fun a => ?_⟩, by decide⟩
  simp only [rootAddition, not_mem_nil, false_iff]
  rintro ⟨x, ⟨tx, htx, -⟩, -⟩
  cases htx

theorem step_childTx {u : Unit} {p : CTxMemPool}
    (h : (machine cr).step empty (.add (rootAddition childTx)) = .ok (u, p)) :
    (∀ h, p.txOf h = if h = 2 then some childTx else none) ∧
      p.mapNextTx = insertSpends 2 (getInputs childTx) fun _ => none := by
  have hadd : (empty.addUnchecked cr (rootAddition childTx).entry []).map (fun p => ((), p)) = .ok (u, p) := h
  obtain ⟨_, hq, heq⟩ := map_eq_ok.mp hadd
  cases heq
  have hadded := added_of_addUnchecked rfl hq
  exact ⟨hadded.txOf, hadded.mapNextTx⟩

theorem submittable_parentTx {p : CTxMemPool} (htx : ∀ h, p.txOf h = if h = 2 then some childTx else none)
    (hnext : p.mapNextTx = insertSpends 2 (getInputs childTx) fun _ => none) :
    Submittable cr p (rootAddition parentTx) := by
  refine ⟨rfl, ?_, ?_, ⟨nodup_nil, fun a => ?_⟩, show (4 : Int) + 0 < 2 ^ 31 by decide⟩
  · rw [← Bool.not_eq_true, contains_iff_txOf]
    rintro ⟨tx, h⟩
    rw [htx] at h
    cases h
  · intro index hindex
    rw [hnext]
    have hindex' : index = .outpoint ⟨7, 0⟩ := by simpa [getInputs, rootAddition, parentTx] using hindex
    rw [hindex']
    decide
  · simp only [rootAddition, not_mem_nil, false_iff]
    rintro ⟨x, ⟨tx, h, index, hout, -⟩, -⟩
    rw [htx] at h
    split_ifs at h
    cases h
    simp [getOutputs, getOutputIDs, childTx] at hout

open scoped Classical in
theorem sigOpsFit_of_total {A : Uint256 → Uint256 → Prop} (h : 2 * ∑ a ∈ p.hashes, p.own a .sigOps < 2 ^ 31) :
    p.SigOpsFit A := by
  intro a ha
  have hown : p.own a .sigOps ≤ ∑ a ∈ p.hashes, p.own a .sigOps :=
    Finset.single_le_sum (f := fun a => p.own a .sigOps) (fun b _ => (p.own_nonneg b).2.2.1) (mem_hashes.mpr ha)
  have hsum : (Dag.sumWhere p.hashes p.own fun b => A b a) .sigOps ≤ ∑ a ∈ p.hashes, p.own a .sigOps := by
    unfold Dag.sumWhere
    rw [Finset.sum_apply]
    apply Finset.sum_le_sum
    intro b _
    split_ifs
    · exact le_refl _
    · exact (p.own_nonneg b).2.2.1
  rw [Pi.add_apply]
  omega

/-- The parent comes back in a reorganisation, and the books are right. -/
theorem accounts_of_admissible_reorg :
    ∃ us p, (machine numberCrypto).run empty [.add (rootAddition childTx),
      .reorg [.readd (rootAddition parentTx)], .prioritise 1 5, .removeRecursive childTx] = .ok (us, p) ∧
      p.Accounts numberCrypto := by
  apply accounts_of_admissible
  refine ⟨⟨⟨submittable_childTx _, ?_, ?_⟩, fun _ _ => rfl⟩, fun o p hp => ⟨⟨⟨?_, fun _ _ _ => trivial⟩, ?_⟩, ?_⟩⟩
  · intro index _ a ta _ hta
    cases hta
  · decide
  · obtain ⟨htx, hnext⟩ := step_childTx hp
    refine ⟨⟨submittable_parentTx htx hnext, ?_, ?_⟩, ?_, by simp⟩
    · intro index hindex a ta hparent hta
      have hindex' : index = .outpoint ⟨7, 0⟩ := by simpa [getInputs, rootAddition, parentTx] using hindex
      subst hindex'
      cases hparent
      have hnone : p.txOf 7 = none := by
        rw [htx, if_neg (by decide)]
      cases hnone.symm.trans hta
    · intro index hindex
      have hindex' : index = .outpoint ⟨7, 0⟩ := by simpa [getInputs, rootAddition, parentTx] using hindex
      subst hindex'
      simp [parentOf, rootAddition, parentTx]
    · rintro a ⟨ta, hta, index, hout, -⟩
      have hchild := (htx a).symm.trans hta
      split_ifs at hchild
      cases hchild
      simp [getOutputs, getOutputIDs, childTx] at hout
  · intro us s hs
    -- the two transactions have four signature operations each
    have hrun : ((machine numberCrypto).step empty (.add (rootAddition childTx)) >>= fun r =>
        (offerMachine numberCrypto).run (r.2, []) [.readd (rootAddition parentTx)]).map
        (fun r => ∑ a ∈ r.2.1.hashes, r.2.1.own a .sigOps) = .ok 8 := by
      decide +kernel
    rw [hp] at hrun
    obtain ⟨r, hr, htotal⟩ := map_eq_ok.mp hrun
    cases hs.symm.trans hr
    apply sigOpsFit_of_total
    rw [htotal]
    decide
  · intro _ p' _
    exact ⟨trivial, fun _ _ _ => ⟨trivial, fun _ _ _ => trivial⟩⟩

/-- Without a reorganisation the parent does not find its child. -/
theorem parentTx_without_child :
    (machine numberCrypto).Guarded (Admissible numberCrypto (Submittable numberCrypto)) empty
      [.add (rootAddition childTx), .add (rootAddition parentTx)] ∧
    ∃ us p, (machine numberCrypto).run empty
        [.add (rootAddition childTx), .add (rootAddition parentTx)] = .ok (us, p) ∧
      p.Spends numberCrypto 1 2 ∧ 2 ∉ p.children 1 ∧ ¬ p.Accounts numberCrypto := by
  constructor
  · refine ⟨submittable_childTx _, fun o p hp => ⟨?_, fun _ _ _ => trivial⟩⟩
    obtain ⟨htx, hnext⟩ := step_childTx hp
    exact submittable_parentTx htx hnext
  · have hrun : ((machine numberCrypto).run empty
        [.add (rootAddition childTx), .add (rootAddition parentTx)]).map
        (fun r => (r.2.children 1, (r.2.txOf 1).map (getOutputs numberCrypto),
          (r.2.txOf 2).map getInputs)) =
        .ok ([], some [.outpoint ⟨1, 0⟩], some [.outpoint ⟨1, 0⟩]) := by
      decide +kernel
    obtain ⟨⟨us, p⟩, hrun, hdata⟩ := map_eq_ok.mp hrun
    simp only [Prod.mk.injEq] at hdata
    obtain ⟨hchildren, hout, hin⟩ := hdata
    obtain ⟨ta, hta, hta'⟩ := Option.map_eq_some_iff.mp hout
    obtain ⟨tb, htb, htb'⟩ := Option.map_eq_some_iff.mp hin
    have hspends : p.Spends numberCrypto 1 2 :=
      ⟨ta, tb, hta, htb, .outpoint ⟨1, 0⟩, by rw [hta']; simp, by rw [htb']; simp⟩
    have hnot : 2 ∉ p.children 1 := by
      rw [hchildren]
      exact not_mem_nil
    refine ⟨us, p, hrun, hspends, hnot, fun hacc => ?_⟩
    exact hnot ((hacc.books.exact.linked.down.mem 1 2).mpr hspends)

end CTxMemPool

end Defcoin.Mempool
