import Defcoin.Mempool.Books

/-! # Additions and batches

  `addUnchecked` does not look for children of what it adds. Outside of a reorganisation nothing
  makes up for that, so an addition must have no children in the pool. In a reorganisation it may
  have some, as long as they did not come back in the same batch.
-/

namespace Defcoin.Mempool

open Relation Dag List Outcome

/-- A transaction that is added, with what the caller of `addUnchecked` found out about it. -/
structure Addition where
  tx : CTransaction
  nFee : Int
  txSize : Nat
  mweb_weight : Nat
  sigOpCost : Nat
  setAncestors : List Uint256

def Addition.entry (a : Addition) : CTxMemPoolEntry :=
  .new a.tx a.nFee a.txSize a.mweb_weight a.sigOpCost

namespace CTxMemPool

variable {cr : Mweb.Crypto} {p p' : CTxMemPool} {L : Uint256 → Uint256 → Prop} {B : List Uint256} {x : Addition}

/-! ### Additions -/

/-- The transaction spends an output of the pool transaction `a`. -/
def Funds (cr : Mweb.Crypto) (p : CTxMemPool) (tx : CTransaction) (a : Uint256) : Prop :=
  ∃ ta, p.txOf a = some ta ∧ ∃ index ∈ getOutputs cr ta, index ∈ getInputs tx

/-- A transaction that is not in the pool and whose inputs no pool transaction spends, with its
    exact set of ancestors. -/
structure Submittable (cr : Mweb.Crypto) (p : CTxMemPool) (x : Addition) : Prop where
  plain : x.tx.mweb_tx = none
  new : p.contains x.tx.hash = false
  unspent : ∀ index ∈ getInputs x.tx, p.mapNextTx index = none
  ancestors : AncestorSet (p.Spends cr) (p.Funds cr x.tx) x.setAncestors
  /-- With those of the ancestors, the signature operations fit into an `int`. -/
  sigOps : x.sigOpCost + (x.setAncestors.map p.own).sum .sigOps < 2 ^ 31

/-- Inputs that name a pool transaction are outputs of it. -/
def ValidInputs (cr : Mweb.Crypto) (p : CTxMemPool) (tx : CTransaction) : Prop :=
  ∀ index ∈ getInputs tx, ∀ a ta, p.parentOf index = some a → p.txOf a = some ta → index ∈ getOutputs cr ta

/-- What every addition needs: inputs that name a pool transaction are outputs of it, and none names the
    transaction itself. -/
structure Linkable (cr : Mweb.Crypto) (p : CTxMemPool) (x : Addition) : Prop extends Submittable cr p x where
  valid : p.ValidInputs cr x.tx
  self : ∀ index ∈ getInputs x.tx, p.parentOf index ≠ some x.tx.hash

/-- An addition outside a reorganisation: no pool transaction spends its outputs. -/
structure Addable (cr : Mweb.Crypto) (p : CTxMemPool) (x : Addition) : Prop extends Linkable cr p x where
  childless : ∀ index ∈ getOutputs cr x.tx, p.mapNextTx index = none

theorem mem_setParentTransactions {tx : CTransaction} {a : Uint256} :
    a ∈ p.setParentTransactions tx ↔ ∃ index ∈ getInputs tx, p.parentOf index = some a := by
  show a ∈ ((getInputs tx).filterMap p.parentOf).foldl
    (fun l x => OrderedSet.insert Uint256.memcmpKey x l) [] ↔ _
  rw [OrderedSet.mem_insertAll]
  simp

theorem Books.isParent_iff (hbooks : p.Books L) {tx : CTransaction} (hvalid : p.ValidInputs cr tx) (a : Uint256) :
    p.IsParent tx a ↔ p.Funds cr tx a := by
  unfold IsParent Funds
  rw [mem_setParentTransactions]
  constructor
  · rintro ⟨⟨index, hin, hparent⟩, hcontains⟩
    obtain ⟨ta, hta⟩ := contains_iff_txOf.mp hcontains
    exact ⟨ta, hta, index, hvalid index hin a ta hparent hta, hin⟩
  · rintro ⟨ta, hta, index, hout, hin⟩
    obtain ⟨_, -, rfl⟩ := (mem_getOutputs_plain (hbooks.plain a ta hta)).mp hout
    refine ⟨⟨_, hin, ?_⟩, contains_iff_txOf.mpr ⟨ta, hta⟩⟩
    rw [parentOf, hbooks.keyed a ta hta]

/-- **Addition**: the books have one more entry, below its parents. -/
theorem Books.add (hbooks : p.Books L) (hx : Linkable cr p x)
    (hset : AncestorSet L (p.Funds cr x.tx) x.setAncestors) :
    Succeeds (p.addUnchecked cr x.entry x.setAncestors) fun p' =>
      Added cr x.entry p p' ∧ p'.Books (WithChild x.tx.hash (p.Funds cr x.tx) L) ∧
        (p.Deltas → p'.Deltas) := by
  have hparents := funext fun a => propext (hbooks.isParent_iff hx.valid a)
  have hself : x.tx.hash ∉ p.setParentTransactions x.tx := by
    intro hin
    obtain ⟨index, hindex, hparent⟩ := mem_setParentTransactions.mp hin
    exact hx.self index hindex hparent
  have halone : x.entry.Alone := CTxMemPoolEntry.alone_new ..
  rw [← hparents] at hset ⊢
  obtain ⟨p', hp', hexact, hfits, hsize⟩ :=
    addUnchecked_spec hbooks.exact hbooks.fits hx.new halone hself hset hx.sigOps
  have hadded : Added cr x.entry p p' := added_of_addUnchecked hx.new hp'
  have htx : ∀ h, p'.txOf h = if h = x.tx.hash then some x.tx else p.txOf h := hadded.txOf
  refine ⟨p', hp', hadded, ⟨fun h tx h' => ?_, fun h tx h' => ?_, hexact, hfits, hsize hbooks.size,
    hadded.spendsExact hx.new hx.unspent hbooks.spends⟩, fun hdeltas h e he => ?_⟩
  · rw [htx] at h'
    split_ifs at h' with hh
    · cases h'
      exact hh.symm
    · exact hbooks.keyed h tx h'
  · rw [htx] at h'
    split_ifs at h' with hh
    · cases h'
      exact hx.plain
    · exact hbooks.plain h tx h'
  · rw [hadded.static] at he
    rw [hadded.mapDeltas]
    split_ifs at he with hh
    · cases he
      rw [hh]
      unfold prioritised
      dsimp only
      split_ifs with hzero
      · rfl
      · exact (not_not.mp hzero).symm
    · exact hdeltas h e he

theorem spends_of_added (hadded : Added cr x.entry p p') (hnew : p.contains x.tx.hash = false) {a b : Uint256} :
    p'.Spends cr a b ↔ p.Spends cr a b ∨ (b = x.tx.hash ∧ p.Funds cr x.tx a) ∨
      (a = x.tx.hash ∧ ∃ tb, p'.txOf b = some tb ∧ ∃ index ∈ getOutputs cr x.tx, index ∈ getInputs tb) := by
  have htx : ∀ h, p'.txOf h = if h = x.tx.hash then some x.tx else p.txOf h := hadded.txOf
  have hfresh : ∀ {h tx}, p.txOf h = some tx → h ≠ x.tx.hash := fun htx =>
    ne_of_contains hnew (contains_iff_txOf.mpr ⟨_, htx⟩)
  constructor
  · rintro ⟨ta, tb, ha, hb, hindex⟩
    by_cases hah : a = x.tx.hash
    · rw [htx, if_pos hah] at ha
      cases ha
      exact .inr (.inr ⟨hah, tb, hb, hindex⟩)
    · rw [htx, if_neg hah] at ha
      rw [htx] at hb
      split_ifs at hb with hbh
      · cases hb
        exact .inr (.inl ⟨hbh, ta, ha, hindex⟩)
      · exact .inl ⟨ta, tb, ha, hb, hindex⟩
  · rintro (⟨ta, tb, ha, hb, hindex⟩ | ⟨rfl, ta, ha, hindex⟩ | ⟨rfl, tb, hb, hindex⟩)
    · refine ⟨ta, tb, ?_, ?_, hindex⟩
      · rw [htx, if_neg (hfresh ha), ha]
      · rw [htx, if_neg (hfresh hb), hb]
    · refine ⟨ta, x.tx, ?_, ?_, hindex⟩
      · rw [htx, if_neg (hfresh ha), ha]
      · rw [htx, if_pos rfl]
    · exact ⟨x.tx, tb, by rw [htx, if_pos rfl], hb, hindex⟩

theorem Linkable.no_self_spend (hx : Linkable cr p x) {index : OutputIndex} (hout : index ∈ getOutputs cr x.tx) :
    index ∉ getInputs x.tx := by
  intro hin
  obtain ⟨_, -, rfl⟩ := (mem_getOutputs_plain hx.plain).mp hout
  exact hx.self _ hin rfl

theorem Accounts.add (hacc : p.Accounts cr) (hx : Addable cr p x) :
    Succeeds (p.addUnchecked cr x.entry x.setAncestors) fun p' => p'.Accounts cr := by
  apply (hacc.books.add hx.toLinkable hx.ancestors).mono
  intro p' hp'
  obtain ⟨hadded, hbooks, hdeltas⟩ := hp'
  refine ⟨?_, hdeltas hacc.deltas⟩
  have hspends : p'.Spends cr = WithChild x.tx.hash (p.Funds cr x.tx) (p.Spends cr) := by
    funext a b
    apply propext
    rw [spends_of_added hadded hx.new]
    constructor
    · rintro (h | h | ⟨-, tb, htb, index, hout, hin⟩)
      · exact .inl h
      · exact .inr h
      · have htb' : tb = x.tx ∨ p.txOf b = some tb := by
          rw [hadded.txOf] at htb
          split_ifs at htb
          · cases htb
            exact .inl rfl
          · exact .inr htb
        rcases htb' with rfl | htb'
        · exact absurd hin (hx.no_self_spend hout)
        · have hspender := (hacc.books.spends index b).mpr ⟨tb, htb', hin⟩
          rw [hx.childless index hout] at hspender
          cases hspender
    · rintro (h | h)
      · exact .inl h
      · exact .inr (.inl h)
  rw [hspends]
  exact hbooks

/-! ### Priorities -/

theorem Accounts.prioritiseTransaction (hacc : p.Accounts cr) (hash : Uint256) (nFeeDelta : Int) :
    Succeeds (p.prioritiseTransaction hash nFeeDelta) fun p' => p'.Accounts cr := by
  by_cases hin : p.contains hash = true
  · obtain ⟨e, he⟩ := contains_iff.mp hin
    apply (prioritiseTransaction_rewrites hacc.books.exact hacc.books.fits he nFeeDelta).mono
    intro p' hp'
    obtain ⟨hdeltas, hnext, -, hsize, hentry⟩ := hp'
    have hrecord : ∀ x, p.entry hash = some x → x.feeDelta = p.mapDeltas hash := by
      intro x hx
      exact hacc.deltas hash x.static (by rw [static, hx]; rfl)
    -- only fees change: transactions and what they spend stay
    have htx : ∀ h, p'.txOf h = p.txOf h := by
      intro h
      rw [txOf, txOf, hentry]
      cases p.entry h with
      | none => rfl
      | some x => exact congrArg some (reprice_keeps hash nFeeDelta h x).1
    have hspends : p'.Spends cr = p.Spends cr := by
      funext a b
      unfold Spends
      rw [htx, htx]
    have hcontains : ∀ h, p'.contains h = p.contains h := by
      intro h
      rw [contains, contains, hentry, Option.isSome_map]
    refine ⟨⟨?_, ?_, ?_, ?_, ?_, ?_⟩, ?_⟩
    · intro h tx h'
      rw [htx] at h'
      exact hacc.books.keyed h tx h'
    · intro h tx h'
      rw [htx] at h'
      exact hacc.books.plain h tx h'
    · rw [hspends]
      exact exact_of_reprice hacc.books.exact hin hrecord hentry
    · rw [hspends]
      apply hacc.books.fits.of_sub
      · intro h hh
        rw [← hcontains]
        exact hh
      · intro h _
        rw [own, own, hentry]
        cases p.entry h with
        | none => rfl
        | some x =>
          show ((p.reprice hash nFeeDelta h x).sigOpCost : Int) = x.sigOpCost
          unfold reprice
          split_ifs <;> rfl
      · exact fun _ _ _ _ hpath => hpath
    · have hhashes : p'.hashes = p.hashes := by
        ext h
        rw [mem_hashes, mem_hashes, hcontains]
      unfold SizeExact
      rw [hsize, hacc.books.size, hhashes]
      apply Finset.sum_congr rfl
      intro h _
      rw [own, own, hentry]
      cases p.entry h with
      | none => rfl
      | some x =>
        show (x.txSize : Int) = (p.reprice hash nFeeDelta h x).txSize
        rw [(reprice_keeps hash nFeeDelta h x).2.1]
    · intro index h
      rw [hnext, htx]
      exact hacc.books.spends index h
    · intro h x hx
      rw [static, hentry, Option.map_map] at hx
      obtain ⟨y, hy, rfl⟩ := Option.map_eq_some_iff.mp hx
      show (p.reprice hash nFeeDelta h y).feeDelta = p'.mapDeltas h
      rw [(reprice_keeps hash nFeeDelta h y).2.2.2.2, hdeltas, Function.update_apply]
      split_ifs
      · rfl
      · exact hacc.deltas h y.static (by rw [static, hy]; rfl)
  -- outside the pool only the delta is recorded
  · refine ⟨{ p with mapDeltas := Function.update p.mapDeltas hash (p.mapDeltas hash + nFeeDelta) }, ?_,
      hacc.books.withDeltas _, ?_⟩
    · exact if_neg hin
    · intro h e he
      have hne : h ≠ hash := by
        rintro rfl
        obtain ⟨y, hy, -⟩ := Option.map_eq_some_iff.mp he
        exact hin (contains_iff.mpr ⟨y, hy⟩)
      show e.feeDelta = Function.update p.mapDeltas hash _ h
      rw [Function.update_of_ne hne]
      exact hacc.deltas h e he

/-! ### Batches -/

/-- The books in the middle of a reorganisation, with `B` what came back so far. -/
structure Readding (cr : Mweb.Crypto) (B : List Uint256) (p : CTxMemPool) : Prop where
  books : p.Books (Hidden (· ∈ B) (p.Spends cr))
  deltas : p.Deltas
  nodup : B.Nodup
  contains : ∀ a ∈ B, p.contains a = true
  upward : ∀ a b, p.Spends cr a b → b ∈ B → a ∈ B
  ordered : ∀ todo u done, todo ++ u :: done = B → ∀ b ∈ B, p.Spends cr u b → b ∈ done

/-- A transaction that comes back: in chain order, all its parents in the pool came back before it
    and no child did. -/
structure Readdable (cr : Mweb.Crypto) (B : List Uint256) (p : CTxMemPool) (x : Addition) : Prop
    extends Linkable cr p x where
  parents : ∀ a, p.Funds cr x.tx a → a ∈ B
  children : ∀ b ∈ B, ∀ tb, p.txOf b = some tb → ∀ index ∈ getOutputs cr x.tx, index ∉ getInputs tb

/-- A transaction that is refused: in chain order, neither it nor a child of it came back before. -/
structure Refusable (cr : Mweb.Crypto) (B : List Uint256) (p : CTxMemPool) (tx : CTransaction) : Prop where
  new : tx.hash ∉ B
  children : ∀ b ∈ B, ∀ tb, p.txOf b = some tb → ∀ index ∈ getOutputs cr tx, index ∉ getInputs tb

theorem Accounts.readding (hacc : p.Accounts cr) : Readding cr [] p := by
  have hall : Hidden (· ∈ []) (p.Spends cr) = p.Spends cr := by
    funext a b
    simp [Hidden]
  refine ⟨?_, hacc.deltas, nodup_nil, by simp, by simp, by simp⟩
  rw [hall]
  exact hacc.books

variable (hre : Readding cr B p)
include hre

theorem Readding.ancestorSet {P : Uint256 → Prop} (hP : ∀ a, P a → a ∈ B)
    {set : List Uint256} (hset : AncestorSet (p.Spends cr) P set) :
    AncestorSet (Hidden (· ∈ B) (p.Spends cr)) P set := by
  refine ⟨hset.nodup, fun a => ?_⟩
  rw [hset.mem]
  constructor
  · rintro ⟨y, hy, hpath⟩
    refine ⟨y, hy, ?_⟩
    rcases reflTransGen_iff_eq_or_transGen.mp hpath with rfl | hpath
    · exact .refl
    · exact ((transGen_hidden_iff hre.upward).mpr ⟨hpath, fun h => h.2 (hP y hy)⟩).to_reflTransGen
  · rintro ⟨y, hy, hpath⟩
    exact ⟨y, hy, ReflTransGen.mono (fun _ _ h => h.1) _ _ hpath⟩

theorem Readding.readd (hx : Readdable cr B p x) :
    Succeeds (p.addUnchecked cr x.entry x.setAncestors) (Readding cr (B ++ [x.tx.hash])) := by
  apply (hre.books.add hx.toLinkable (hre.ancestorSet hx.parents hx.ancestors)).mono
  intro p' hp'
  obtain ⟨hadded, hbooks, hdeltas⟩ := hp'
  have htx : ∀ h, p'.txOf h = if h = x.tx.hash then some x.tx else p.txOf h := hadded.txOf
  have hfresh : ∀ {h}, p.contains h = true → h ≠ x.tx.hash := ne_of_contains hx.new
  have hnewB : x.tx.hash ∉ B := fun hin => hfresh (hre.contains _ hin) rfl
  -- what the new transaction is spent by did not come back
  have hbelow : ∀ {b}, p'.Spends cr x.tx.hash b → b ∉ B ++ [x.tx.hash] := by
    intro b hab hin
    obtain ⟨_, tb, ha, hb, index, hout, hin'⟩ := hab
    rw [htx, if_pos rfl] at ha
    cases ha
    rcases mem_append.mp hin with hin | hin
    · rw [htx, if_neg (hfresh (hre.contains b hin))] at hb
      exact hx.children b hin tb hb index hout hin'
    · rw [mem_singleton.mp hin, htx, if_pos rfl] at hb
      cases hb
      exact hx.no_self_spend hout hin'
  have hcases : ∀ {a b}, p'.Spends cr a b → p.Spends cr a b ∨ (b = x.tx.hash ∧ p.Funds cr x.tx a) ∨
      a = x.tx.hash := by
    intro a b hab
    rcases (spends_of_added hadded hx.new).mp hab with h | h | h
    · exact .inl h
    · exact .inr (.inl h)
    · exact .inr (.inr h.1)
  have hhidden : WithChild x.tx.hash (p.Funds cr x.tx) (Hidden (· ∈ B) (p.Spends cr)) =
      Hidden (· ∈ B ++ [x.tx.hash]) (p'.Spends cr) := by
    funext a b
    apply propext
    constructor
    · rintro (⟨hab, hvisible⟩ | ⟨rfl, hfunds⟩)
      · refine ⟨(spends_of_added hadded hx.new).mpr (.inl hab), ?_⟩
        have ha := hfresh hab.left
        have hb := hfresh hab.right
        simpa [ha, hb] using hvisible
      · refine ⟨(spends_of_added hadded hx.new).mpr (.inr (.inl ⟨rfl, hfunds⟩)), ?_⟩
        simp
    · rintro ⟨hab, hvisible⟩
      rcases hcases hab with hold | hfunds | rfl
      · left
        have ha := hfresh hold.left
        have hb := hfresh hold.right
        exact ⟨hold, by simpa [ha, hb] using hvisible⟩
      · exact .inr hfunds
      · exact absurd ⟨mem_append_right _ (mem_singleton.mpr rfl), hbelow hab⟩ hvisible
  refine ⟨?_, hdeltas hre.deltas, ?_, ?_, ?_, ?_⟩
  · rw [← hhidden]
    exact hbooks
  · rw [nodup_append]
    refine ⟨hre.nodup, nodup_singleton _, fun a ha b hb => ?_⟩
    rw [mem_singleton.mp hb]
    rintro rfl
    exact hnewB ha
  · intro a ha
    rw [contains_iff_txOf, htx]
    rcases mem_append.mp ha with ha | ha
    · rw [if_neg (hfresh (hre.contains a ha))]
      exact contains_iff_txOf.mp (hre.contains a ha)
    · rw [if_pos (mem_singleton.mp ha)]
      exact ⟨x.tx, rfl⟩
  · intro a b hab hb
    rcases hcases hab with hold | ⟨-, hfunds⟩ | rfl
    · have hb' : b ∈ B := by
        rcases mem_append.mp hb with hb | hb
        · exact hb
        · exact absurd (mem_singleton.mp hb) (hfresh hold.right)
      exact mem_append_left _ (hre.upward a b hold hb')
    · exact mem_append_left _ (hx.parents a hfunds)
    · exact mem_append_right _ (mem_singleton.mpr rfl)
  · intro todo u done hl b hb hub
    rcases eq_nil_or_concat done with rfl | ⟨done', last, rfl⟩
    · have hu : u = x.tx.hash := by
        have h := congrArg getLast? hl
        simpa using h
      subst hu
      exact absurd hb (hbelow hub)
    · have hl' : (todo ++ u :: done') ++ [last] = B ++ [x.tx.hash] := by
        rw [← hl]
        simp
      obtain ⟨hB, hlast⟩ := append_inj' hl' rfl
      cases hlast
      have huB : u ∈ B := hB ▸ mem_append_right _ mem_cons_self
      rw [concat_eq_append]
      rcases mem_append.mp hb with hb | hb
      · rcases hcases hub with hold | ⟨rfl, -⟩ | rfl
        · exact mem_append_left _ (hre.ordered todo u done' hB b hb hold)
        · exact absurd hb hnewB
        · exact absurd huB hnewB
      · exact mem_append_right _ hb

/-- **A transaction is refused**, and what depends on it leaves. -/
theorem Readding.refuse {tx : CTransaction} (htx : Refusable cr B p tx) :
    Succeeds (p.removeRecursive cr tx) (Readding cr B) := by
  apply (hre.books.removeRecursive tx).mono
  intro p' hp'
  obtain ⟨stage, -, hmem, hremoved, hbooks⟩ := hp'
  -- what leaves did not come back in the batch
  have hout : ∀ d ∈ B, d ∉ stage := by
    intro d hd hin
    obtain ⟨r, hr, hpath⟩ := (hmem d).mp hin
    have hrB : r ∈ B := by
      rcases reflTransGen_iff_eq_or_transGen.mp hpath with rfl | hpath
      · exact hd
      · exact mem_of_transGen hre.upward ((transGen_hidden_iff hre.upward).mp hpath).1 hd
    unfold recursiveRoots at hr
    split_ifs at hr with hcontains
    · rw [mem_singleton.mp hr] at hrB
      exact htx.new hrB
    · rcases (OrderedSet.mem_insertAll _).mp hr with hnil | hr
      · cases hnil
      · obtain ⟨index, hindex, hspender⟩ := mem_filterMap.mp hr
        obtain ⟨tr, htr, hin'⟩ := (hre.books.spends index r).mp hspender
        exact htx.children r hrB tr htr index hindex hin'
  have hspends : ∀ {a b}, p'.Spends cr a b → p.Spends cr a b := hremoved.partOf.spends
  have hhidden : Dag.Within (· ∉ stage) (Hidden (· ∈ B) (p.Spends cr)) = Hidden (· ∈ B) (p'.Spends cr) := by
    rw [hremoved.spends]
    funext a b
    unfold Dag.Within Hidden
    apply propext
    tauto
  refine ⟨?_, Deltas.removed hremoved fun h e _ => hre.deltas h e, hre.nodup, fun a ha => ?_,
    fun a b hab => hre.upward a b (hspends hab), fun todo u done hl b hb hub =>
      hre.ordered todo u done hl b hb (hspends hub)⟩
  · rw [← hhidden]
    exact hbooks
  · rw [contains_iff_txOf, hremoved.txOf, if_neg (hout a ha)]
    exact contains_iff_txOf.mp (hre.contains a ha)

theorem Readding.update (hfits : p.SigOpsFit (TransGen (p.Spends cr))) :
    Succeeds (p.updateTransactionsFromBlock cr B) fun p' => p'.Accounts cr := by
  have hentry : ∀ {h e}, p.entry h = some e → p.txOf h = some e.tx := by
    intro h e he
    rw [txOf, he]
    rfl
  have hbatch : Batch cr p (p.Spends cr) B :=
    { left := fun _ _ h => h.left
      right := fun _ _ h => h.right
      acyclic := hre.books.exact.linked.acyclic.of_hidden hre.upward
      nodup := hre.nodup
      contains := hre.contains
      upward := hre.upward
      ordered := hre.ordered
      keyed := fun h e he => hre.books.keyed h e.tx (hentry he)
      fits := hfits
      spenders := by
        intro u _ e he c
        rw [mem_filterMap]
        constructor
        · rintro ⟨index, hout, hspender⟩
          obtain ⟨tc, htc, hin⟩ := (hre.books.spends index c).mp hspender
          exact ⟨e.tx, tc, hentry he, htc, index, hout, hin⟩
        · rintro ⟨ta, tc, hta, htc, index, hout, hin⟩
          rw [hentry he] at hta
          cases hta
          exact ⟨index, hout, (hre.books.spends index c).mpr ⟨tc, htc, hin⟩⟩ }
  apply (updateTransactionsFromBlock_spec hbatch hre.books.exact).mono
  intro p' hp'
  obtain ⟨hframed, hexact⟩ := hp'
  refine ⟨⟨fun h tx h' => ?_, fun h tx h' => ?_, ?_, ?_, hframed.sizeExact hre.books.size, fun index h => ?_⟩, ?_⟩
  · rw [hframed.txOf] at h'
    exact hre.books.keyed h tx h'
  · rw [hframed.txOf] at h'
    exact hre.books.plain h tx h'
  · rw [hframed.spends]
    exact hexact
  · rw [hframed.spends]
    exact hframed.sigOpsFit hfits fun _ _ h => h
  · rw [hframed.mapNextTx, hframed.txOf]
    exact hre.books.spends index h
  · intro h e he
    rw [hframed.static] at he
    rw [hframed.mapDeltas]
    exact hre.deltas h e he

end CTxMemPool

end Defcoin.Mempool
