import Defcoin.Mempool.Priority
import Defcoin.Mempool.Reorg

/-! # The books of a pool

  What the pool keeps about its transactions: links, totals, sizes, spends and fee deltas. The links
  are those of a relation, which is a parameter here: in the middle of a reorganisation it is not
  yet that of the spends.

  Each operation is shown to keep the books, with the relation that comes out of it.
-/

namespace Defcoin.Mempool

open Relation Dag List Outcome

namespace CTxMemPool

variable {cr : Mweb.Crypto} {p p' : CTxMemPool} {L : Uint256 → Uint256 → Prop} {stage : List Uint256}

/-- The pool transaction `b` spends an output of the pool transaction `a`. -/
def Spends (cr : Mweb.Crypto) (p : CTxMemPool) (a b : Uint256) : Prop :=
  ∃ ta tb, p.txOf a = some ta ∧ p.txOf b = some tb ∧ ∃ index ∈ getOutputs cr ta, index ∈ getInputs tb

/-- The books, with links that are `L`. -/
structure Books (p : CTxMemPool) (L : Uint256 → Uint256 → Prop) : Prop where
  keyed : ∀ h tx, p.txOf h = some tx → tx.hash = h
  plain : ∀ h tx, p.txOf h = some tx → tx.mweb_tx = none
  exact : p.Exact L
  fits : p.SigOpsFit (TransGen L)
  size : p.SizeExact
  spends : ∀ index h, p.mapNextTx index = some h ↔ ∃ tx, p.txOf h = some tx ∧ index ∈ getInputs tx

def Deltas (p : CTxMemPool) : Prop := ∀ h e, p.static h = some e → e.feeDelta = p.mapDeltas h

theorem Spends.left {a b : Uint256} (h : p.Spends cr a b) : p.contains a = true := by
  obtain ⟨ta, -, ha, -⟩ := h
  exact contains_iff_txOf.mpr ⟨ta, ha⟩

theorem Spends.right {a b : Uint256} (h : p.Spends cr a b) : p.contains b = true := by
  obtain ⟨-, tb, -, hb, -⟩ := h
  exact contains_iff_txOf.mpr ⟨tb, hb⟩

theorem Framed.spends (h : Framed p p') : p'.Spends cr = p.Spends cr := by
  funext a b
  unfold Spends
  rw [h.txOf, h.txOf]

theorem mem_getOutputs_plain {tx : CTransaction} (hplain : tx.mweb_tx = none) {index : OutputIndex} :
    index ∈ getOutputs cr tx ↔ ∃ n < tx.vout.length, index = .outpoint ⟨tx.hash, n⟩ := by
  unfold getOutputs getOutputIDs
  rw [hplain]
  simp only [Option.map_none, Option.getD_none, map_nil, append_nil, mem_map, mem_range]
  exact exists_congr fun n => and_congr_right' eq_comm

/-! ### Removing -/

theorem Removed.spends (h : Removed cr stage p p') : p'.Spends cr = Within (· ∉ stage) (p.Spends cr) := by
  funext a b
  unfold Spends Within
  rw [h.txOf, h.txOf]
  by_cases ha : a ∈ stage
  · simp [ha]
  · by_cases hb : b ∈ stage
    · simp [hb]
    · simp [ha, hb]

theorem Books.removed (hbooks : p.Books L) (hremoved : Removed cr stage p p')
    (hexact : p'.Exact (Within (· ∉ stage) L)) (hsize : p.SizeExact → p'.SizeExact) :
    p'.Books (Within (· ∉ stage) L) := by
  have hold : ∀ {h tx}, p'.txOf h = some tx → p.txOf h = some tx := by
    intro h tx htx
    rw [hremoved.txOf] at htx
    split_ifs at htx
    exact htx
  have hfits : p'.SigOpsFit (TransGen (Within (· ∉ stage) L)) := by
    apply hbooks.fits.of_sub
    · intro h hh
      obtain ⟨tx, htx⟩ := contains_iff_txOf.mp hh
      exact contains_iff_txOf.mpr ⟨tx, hold htx⟩
    · intro h hh
      obtain ⟨tx, htx⟩ := contains_iff_txOf.mp hh
      have hstays : h ∉ stage := by
        intro hin
        rw [hremoved.txOf, if_pos hin] at htx
        cases htx
      have hstatic : p'.static h = p.static h := by rw [hremoved.static, if_neg hstays]
      rw [own_of_static_eq hstatic]
    · exact fun a h _ _ hpath => TransGen.mono (fun _ _ hab => hab.1) _ _ hpath
  exact ⟨fun h tx htx => hbooks.keyed h tx (hold htx), fun h tx htx => hbooks.plain h tx (hold htx),
    hexact, hfits, hsize hbooks.size, hremoved.spendsExact hbooks.spends⟩

theorem Deltas.removed (hremoved : Removed cr stage p p')
    (h : ∀ h e, h ∉ stage → p.static h = some e → e.feeDelta = p.mapDeltas h) : p'.Deltas := by
  intro hash e he
  rw [hremoved.static] at he
  split_ifs at he with hh
  rw [hremoved.mapDeltas]
  exact h hash e hh he

theorem Books.removeStaged (hbooks : p.Books L) (hstage : p.DownClosed L stage) :
    Succeeds (p.removeStaged cr stage false) fun p' =>
      Removed cr stage p p' ∧ p'.Books (Within (· ∉ stage) L) := by
  obtain ⟨p', hp', hexact, hsize⟩ := removeStaged_downClosed hbooks.exact hstage
  have hremoved := removed_of_removeStaged hp'
  exact ⟨p', hp', hremoved, hbooks.removed hremoved hexact hsize⟩

theorem Books.contains_spender (hbooks : p.Books L) {index : OutputIndex} {h : Uint256}
    (hspender : p.mapNextTx index = some h) : p.contains h = true := by
  obtain ⟨tx, htx, -⟩ := (hbooks.spends index h).mp hspender
  exact contains_iff_txOf.mpr ⟨tx, htx⟩

theorem Books.contains_roots (hbooks : p.Books L) (tx : CTransaction) :
    ∀ h ∈ p.recursiveRoots cr tx, p.contains h = true := by
  intro h hh
  unfold recursiveRoots at hh
  split_ifs at hh with hin
  · rw [mem_singleton.mp hh]
    exact hin
  · rcases (OrderedSet.mem_insertAll _).mp hh with hnil | hh
    · cases hnil
    · obtain ⟨index, -, hspender⟩ := mem_filterMap.mp hh
      exact hbooks.contains_spender hspender

theorem Books.removeRecursive (hbooks : p.Books L) (tx : CTransaction) :
    Succeeds (p.removeRecursive cr tx) fun p' => ∃ stage, p.DownClosed L stage ∧
      (∀ d, d ∈ stage ↔ ∃ r ∈ p.recursiveRoots cr tx, ReflTransGen L r d) ∧
      Removed cr stage p p' ∧ p'.Books (Within (· ∉ stage) L) := by
  have hroots : ∀ h ∈ p.recursiveRoots cr tx, p.contains h = true := hbooks.contains_roots tx
  have hlink := hbooks.exact.linked
  obtain ⟨hclosed, hmem⟩ := calculateAllDescendants_spec hlink.down hlink.right _ hroots
  unfold CTxMemPool.removeRecursive
  rw [if_pos (all_eq_true.mpr hroots)]
  apply (hbooks.removeStaged hclosed).mono
  intro p' hp'
  exact ⟨_, hclosed, hmem, hp'⟩

/-! ### Removing for a block -/

theorem Books.withDeltas (hbooks : p.Books L) (mapDeltas : Uint256 → Int) :
    ({ p with mapDeltas } : CTxMemPool).Books L where
  keyed := hbooks.keyed
  plain := hbooks.plain
  exact := ⟨⟨⟨hbooks.exact.linked.up.nodup, hbooks.exact.linked.up.mem⟩,
    ⟨hbooks.exact.linked.down.nodup, hbooks.exact.linked.down.mem⟩, hbooks.exact.linked.left,
    hbooks.exact.linked.right, hbooks.exact.linked.acyclic⟩, hbooks.exact.ancestors, hbooks.exact.descendants⟩
  fits := hbooks.fits
  size := hbooks.size
  spends := hbooks.spends

/-- A pool that accounts for its spends. -/
structure Accounts (cr : Mweb.Crypto) (p : CTxMemPool) : Prop where
  books : p.Books (p.Spends cr)
  deltas : p.Deltas

def PartOf (p' p : CTxMemPool) : Prop := ∀ h tx, p'.txOf h = some tx → p.txOf h = some tx

theorem Removed.partOf (h : Removed cr stage p p') : p'.PartOf p := by
  intro hash tx htx
  rw [h.txOf] at htx
  split_ifs at htx
  exact htx

theorem PartOf.spends (h : p'.PartOf p) {a b : Uint256} (hab : p'.Spends cr a b) : p.Spends cr a b := by
  obtain ⟨ta, tb, ha, hb, hindex⟩ := hab
  exact ⟨ta, tb, h a ta ha, h b tb hb, hindex⟩

theorem Deltas.clearPrioritisation (h : p.Deltas) (hash : Uint256) :
    ∀ h e, h ≠ hash → (p.clearPrioritisation hash).static h = some e →
      e.feeDelta = (p.clearPrioritisation hash).mapDeltas h := by
  intro h' e hne he
  show e.feeDelta = Function.update p.mapDeltas hash 0 h'
  rw [Function.update_of_ne hne]
  exact h h' e he

theorem Accounts.removeConflict (hacc : p.Accounts cr) (tx : CTransaction) (input : OutputIndex) :
    Succeeds (p.removeConflict cr tx input) fun p' => p'.Accounts cr ∧ p'.PartOf p := by
  unfold CTxMemPool.removeConflict
  cases hspender : p.mapNextTx input with
  | none => exact ⟨p, rfl, hacc, fun _ _ h => h⟩
  | some spender =>
    obtain ⟨t, ht, -⟩ := (hacc.books.spends input spender).mp hspender
    obtain ⟨e, he, rfl⟩ := Option.map_eq_some_iff.mp ht
    simp only [he]
    split_ifs with hself
    · exact ⟨p, rfl, hacc, fun _ _ h => h⟩
    · have hkey := hacc.books.keyed spender e.tx ht
      apply ((hacc.books.withDeltas (Function.update p.mapDeltas spender 0)).removeRecursive e.tx).mono
      intro p' hp'
      obtain ⟨stage, -, hmem, hremoved, hbooks⟩ := hp'
      -- the conflict itself is among what is removed
      have hin : spender ∈ stage := by
        rw [hmem]
        refine ⟨spender, ?_, .refl⟩
        unfold recursiveRoots
        have hcontains : (p.clearPrioritisation spender).contains e.tx.hash = true := by
          rw [hkey]
          exact contains_iff.mpr ⟨e, he⟩
        rw [if_pos (by exact hcontains), hkey]
        exact mem_singleton.mpr rfl
      refine ⟨⟨?_, ?_⟩, hremoved.partOf⟩
      · rw [hremoved.spends]
        exact hbooks
      · apply Deltas.removed hremoved
        intro h x hout hx
        exact hacc.deltas.clearPrioritisation spender h x (fun heq => hout (heq ▸ hin)) hx

theorem Accounts.removeConflicts (hacc : p.Accounts cr) (tx : CTransaction) :
    Succeeds (p.removeConflicts cr tx) fun p' => p'.Accounts cr ∧ p'.PartOf p := by
  apply Succeeds.foldlM (fun _ (q : CTxMemPool) => q.Accounts cr ∧ q.PartOf p)
  · exact ⟨hacc, fun _ _ h => h⟩
  · intro _ input _ q _ hinv
    apply (hinv.1.removeConflict tx input).mono
    intro q' hq'
    exact ⟨hq'.1, fun h t ht => hinv.2 h t (hq'.2 h t ht)⟩

theorem Accounts.removeIncluded (hacc : p.Accounts cr) {hash : Uint256} (hroot : ∀ a, ¬ p.Spends cr a hash) :
    Succeeds (p.removeIncluded cr hash) fun p' => p'.Accounts cr ∧ p'.PartOf p ∧
      p'.contains hash = false := by
  unfold CTxMemPool.removeIncluded
  split_ifs with hin
  · have hremove : Succeeds (p.removeStaged cr [hash] true) _ :=
      removeStaged_root hacc.books.exact hacc.books.fits hin hroot
    obtain ⟨p', hp', hexact, hsize⟩ := hremove
    have hremoved := removed_of_removeStaged hp'
    refine ⟨p', hp', ⟨?_, ?_⟩, hremoved.partOf, ?_⟩
    · rw [hremoved.spends]
      exact hacc.books.removed hremoved hexact hsize
    · exact Deltas.removed hremoved fun h e _ => hacc.deltas h e
    · rw [← Bool.not_eq_true, contains_iff_txOf]
      rintro ⟨t, ht⟩
      rw [hremoved.txOf, if_pos (mem_singleton.mpr rfl)] at ht
      cases ht
  · exact ⟨p, rfl, hacc, fun _ _ h => h, Bool.not_eq_true _ ▸ hin⟩

/-- Every parent that a transaction of the block has in the pool comes before it in the block. -/
def BlockOrdered (cr : Mweb.Crypto) (p : CTxMemPool) (vtx : List CTransaction) : Prop :=
  ∀ done tx rest, done ++ tx :: rest = vtx → ∀ a, p.Spends cr a tx.hash → ∃ t ∈ done, t.hash = a

theorem Accounts.removeForBlock (hacc : p.Accounts cr) {vtx : List CTransaction} (hblock : BlockOrdered cr p vtx)
    (block_kernels : Option (List Mweb.Hash)) :
    Succeeds (p.removeForBlock cr vtx block_kernels) fun p' => p'.Accounts cr := by
  -- no transaction of the pool has kernels
  have hkernels : ∀ kernels, p.kernelMatches cr kernels = [] := by
    intro kernels
    unfold kernelMatches
    rw [filter_eq_nil_iff]
    intro tx htx
    obtain ⟨x, hx, rfl⟩ := mem_map.mp htx
    have hent : p.entry x.1 = some x.2 := AList.mem_lookup_iff.mpr hx
    have hplain := hacc.books.plain x.1 x.2.tx (by rw [txOf, hent]; rfl)
    simp [getKernelIDs, hplain]
  have hmatched : ((block_kernels.map fun kernels => p.kernelMatches cr kernels).getD []) = [] := by
    cases block_kernels with
    | none => rfl
    | some kernels => exact hkernels kernels
  unfold CTxMemPool.removeForBlock
  dsimp only
  rw [hmatched, append_nil]
  have hloop := Succeeds.foldlM (f := removeForBlockTx cr)
    (fun done q => q.Accounts cr ∧ q.PartOf p ∧ ∀ t ∈ done, q.contains t.hash = false)
    ⟨hacc, fun _ _ h => h, by simp⟩ (by
      intro done tx rest q hl hinv
      obtain ⟨hacc, hpart, hgone⟩ := hinv
      have hroot : ∀ a, ¬ q.Spends cr a tx.hash := by
        intro a ha
        obtain ⟨t, ht, rfl⟩ := hblock done tx rest hl a (hpart.spends ha)
        have hin := ha.left
        rw [hgone t ht] at hin
        cases hin
      apply Succeeds.bind (hacc.removeIncluded hroot)
      intro q₁ hq₁
      obtain ⟨hacc₁, hpart₁, hgone₁⟩ := hq₁
      apply Succeeds.bind (hacc₁.removeConflicts tx)
      intro q₂ hq₂
      obtain ⟨hacc₂, hpart₂⟩ := hq₂
      have habsent : ∀ {r r' : CTxMemPool} {h}, r'.PartOf r → r.contains h = false → r'.contains h = false := by
        intro r r' h hw hr
        rw [← Bool.not_eq_true, contains_iff_txOf] at hr ⊢
        rintro ⟨t, ht⟩
        exact hr ⟨t, hw h t ht⟩
      refine ⟨_, rfl, ⟨hacc₂.books.withDeltas _, ?_⟩,
        fun h t ht => hpart h t (hpart₁ h t (hpart₂ h t ht)), fun t ht => ?_⟩
      · intro h e he
        apply hacc₂.deltas.clearPrioritisation tx.hash h e _ he
        rintro rfl
        have hno := habsent hpart₂ hgone₁
        have hyes : q₂.contains tx.hash = true := by
          obtain ⟨x, hx, -⟩ := Option.map_eq_some_iff.mp he
          exact contains_iff.mpr ⟨x, hx⟩
        rw [hno] at hyes
        cases hyes
      · rcases mem_append.mp ht with ht | ht
        · exact habsent hpart₂ (habsent hpart₁ (hgone t ht))
        · rw [mem_singleton.mp ht]
          exact habsent hpart₂ hgone₁)
  exact hloop.mono fun q hq => hq.1

end CTxMemPool

end Defcoin.Mempool
