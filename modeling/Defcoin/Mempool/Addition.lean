import Defcoin.Mempool.Removal

/-! # Adding an entry

  `addUnchecked` links a new entry to its parents and takes it into the totals of its ancestors. It
  looks for no children: the pool is exact afterwards for the relation with the new entry below its
  parents and above nothing.
-/

namespace Defcoin.Mempool

open Relation Dag List Outcome Succeeds

namespace CTxMemPoolEntry

variable {e : CTxMemPoolEntry}

/-- The totals are those of the transaction alone, and there are no links. -/
structure Alone (e : CTxMemPoolEntry) : Prop where
  ancestors : e.withAncestors = e.own
  descendants : e.withDescendants = ofTotals e.own
  parents : e.m_parents = []
  children : e.m_children = []

theorem alone_new (tx : CTransaction) (nFee : Int) (txSize mweb_weight sigOpCost : Nat) :
    (new tx nFee txSize mweb_weight sigOpCost).Alone := by
  have hfee : nFee = nFee + 0 := (add_zero nFee).symm
  refine ⟨?_, ?_, rfl, rfl⟩
  · funext q
    cases q with
    | modFees => exact hfee
    | _ => rfl
  · funext q
    obtain ⟨q, hq⟩ := q
    cases q with
    | modFees => exact hfee
    | sigOps => exact absurd rfl hq
    | _ => rfl

theorem own_updateFeeDelta (e : CTxMemPoolEntry) (delta : Int) :
    (e.updateFeeDelta delta).own = e.own + feeChange (delta - e.feeDelta) := by
  funext q
  cases q with
  | modFees =>
    show e.nFee + delta = e.nFee + e.feeDelta + (delta - e.feeDelta)
    omega
  | _ => exact (add_zero _).symm

theorem Alone.updateFeeDelta (h : e.Alone) (delta : Int) : (e.updateFeeDelta delta).Alone := by
  refine ⟨?_, ?_, h.parents, h.children⟩
  · rw [own_updateFeeDelta, ← h.ancestors]
    rfl
  · rw [own_updateFeeDelta, ofTotals_add, ← h.descendants]
    rfl

end CTxMemPoolEntry

namespace CTxMemPool

variable {cr : Mweb.Crypto} {p p' : CTxMemPool} {L : Uint256 → Uint256 → Prop} {e : CTxMemPoolEntry}

theorem alone_prioritised (h : e.Alone) (p : CTxMemPool) : (p.prioritised e).Alone := by
  unfold CTxMemPool.prioritised
  dsimp only
  split_ifs
  · exact h.updateFeeDelta _
  · exact h

/-! ### Into the maps -/

theorem entry_enter (hnew : p.contains e.tx.hash = false) (h : Uint256) :
    (p.enter cr e).entry h = if h = e.tx.hash then some (p.prioritised e) else p.entry h := by
  have hmap : (p.enter cr e).mapTx = p.mapTx.insert e.tx.hash (p.prioritised e) :=
    if_neg (by rw [hnew]; decide)
  have hent : (p.enter cr e).entry h = ({ p with mapTx := p.mapTx.insert e.tx.hash (p.prioritised e) } :
      CTxMemPool).entry h := by
    unfold entry
    rw [hmap]
  rw [hent, entry_insert]

theorem contains_enter (hnew : p.contains e.tx.hash = false) (h : Uint256) :
    (p.enter cr e).contains h = true ↔ h = e.tx.hash ∨ p.contains h = true := by
  rw [contains_iff, entry_enter hnew, contains_iff]
  split_ifs with hh <;> simp [hh]

theorem Linked.not_left (hlink : p.Linked L) {n : Uint256} (hnew : p.contains n = false) (b : Uint256) :
    ¬ L n b := by
  intro h
  exact ne_of_contains hnew (hlink.left n b h) rfl

theorem Linked.not_right (hlink : p.Linked L) {n : Uint256} (hnew : p.contains n = false) (a : Uint256) :
    ¬ TransGen L a n := by
  intro h
  exact ne_of_contains hnew (hlink.right_of_transGen h) rfl

theorem own_enter (hnew : p.contains e.tx.hash = false) {a : Uint256} (ha : p.contains a = true) :
    (p.enter cr e).own a = p.own a :=
  own_of_entry_eq (by rw [entry_enter hnew, if_neg (ne_of_contains hnew ha)])

theorem sumWhere_enter (hnew : p.contains e.tx.hash = false) {P : Uint256 → Prop}
    (hP : ∀ a, P a → p.contains a = true) :
    sumWhere (p.enter cr e).hashes (p.enter cr e).own P = sumWhere p.hashes p.own P := by
  rw [sumWhere_subset
    (fun a ha => mem_hashes.mpr ((contains_enter hnew a).mpr (.inr (mem_hashes.mp ha))))
    (fun a _ ha => mem_hashes.mpr (hP a ha))]
  apply sumWhere_congr fun _ _ => Iff.rfl
  intro a ha _
  exact own_enter hnew (mem_hashes.mp ha)

/-- With its own totals and no links, the new entry changes nothing for the others. -/
theorem exact_enter (hexact : p.Exact L) (hnew : p.contains e.tx.hash = false) (halone : e.Alone) :
    (p.enter cr e).Exact L := by
  have hlink := hexact.linked
  have hentry : ∀ h, (p.enter cr e).entry h =
      if h = e.tx.hash then some (p.prioritised e) else p.entry h := entry_enter hnew
  have halone' := alone_prioritised halone p
  have hnone := Option.not_isSome_iff_eq_none.mp (by rw [← contains, hnew]; decide)
  -- links are those of the old pool
  have hlinks : ∀ {links : CTxMemPoolEntry → List Uint256}, links (p.prioritised e) = [] →
      ∀ h, (((p.enter cr e).entry h).map links).getD [] = ((p.entry h).map links).getD [] := by
    intro links hnil h
    rw [hentry]
    split_ifs with hh
    · rw [hh, hnone]
      exact hnil
    · rfl
  refine ⟨⟨hlink.up.of_parents (hlinks halone'.parents), hlink.down.of_children (hlinks halone'.children),
    ?_, ?_, hlink.acyclic⟩, ?_, ?_⟩
  · exact fun a b hab => (contains_enter hnew a).mpr (.inr (hlink.left a b hab))
  · exact fun a b hab => (contains_enter hnew b).mpr (.inr (hlink.right a b hab))
  · intro h x hx
    rw [sumWhere_enter hnew fun a ha => hlink.left_of_transGen ha]
    rw [hentry] at hx
    split_ifs at hx with hh
    · cases hx
      rw [hh, sumWhere_false fun a _ => hlink.not_right hnew a, add_zero]
      exact halone'.ancestors
    · exact hexact.ancestors h x hx
  · intro h x hx
    rw [sumWhere_enter hnew fun b hb => hlink.right_of_transGen hb]
    rw [hentry] at hx
    split_ifs at hx with hh
    · cases hx
      rw [hh, sumWhere_false, add_zero]
      · exact halone'.descendants
      · intro b _ hpath
        obtain ⟨c, hstep, -⟩ := TransGen.head'_iff.mp hpath
        exact hlink.not_left hnew c hstep
    · exact hexact.descendants h x hx

/-! ### Links to the parents -/

theorem updateParent_spec {add : Bool} {parent hash : Uint256} (hhash : p.contains hash = true) :
    Succeeds (p.updateParent add parent hash) fun p' => Relinked p p' ∧
      (∀ h, p'.children h = p.children h) ∧
      ∀ h, p'.parents h = if h = hash then link add parent (p.parents h) else p.parents h := by
  have hloop : Succeeds ([hash].foldlM (updateParent add parent) p) _ :=
    updateParents_spec (nodup_singleton hash) fun h hh => (mem_singleton.mp hh).symm ▸ hhash
  simpa only [mem_singleton] using hloop.of_singleton

theorem updateParentsOf_spec {hash : Uint256} (hhash : p.contains hash = true) (hnone : p.parents hash = [])
    {set : List Uint256} :
    Succeeds (set.foldlM (fun p parent => updateParent true parent p hash) p) fun p' =>
      Relinked p p' ∧ (∀ h, p'.children h = p.children h) ∧
      (∀ h, h ≠ hash → p'.parents h = p.parents h) ∧
      (p'.parents hash).Nodup ∧ ∀ a, a ∈ p'.parents hash ↔ a ∈ set := by
  apply foldlM (fun done q => Relinked p q ∧
    (∀ h, q.children h = p.children h) ∧ (∀ h, h ≠ hash → q.parents h = p.parents h) ∧
    (q.parents hash).Nodup ∧ ∀ a, a ∈ q.parents hash ↔ a ∈ done)
  · refine ⟨⟨.refl p, fun h => h, fun h => h⟩, fun _ => rfl, fun _ _ => rfl, ?_, ?_⟩
    · rw [hnone]
      exact nodup_nil
    · rw [hnone]
      exact fun _ => Iff.rfl
  · intro done parent rest q _ hinv
    obtain ⟨hrelinked, hchildren, hothers, hnodup, hmem⟩ := hinv
    apply (updateParent_spec (hrelinked.framed.keeps hhash)).mono
    intro q' hq'
    obtain ⟨hrelinked', hchildren', hparents'⟩ := hq'
    have hset : q'.parents hash = insertEntry parent (q.parents hash) := by
      rw [hparents', if_pos rfl]
      rfl
    refine ⟨hrelinked.trans hrelinked', fun h => (hchildren' h).trans (hchildren h), fun h hh => ?_, ?_, ?_⟩
    · rw [hparents', if_neg hh, hothers h hh]
    · rw [hset]
      exact OrderedSet.nodup_insert _ hnodup
    · intro a
      rw [hset, insertEntry, OrderedSet.mem_insert, hmem, mem_append, mem_singleton, or_comm]

/-! ### The whole addition -/

section Below
variable {n : Uint256} {P : Uint256 → Prop} {setAncestors : List Uint256}

/-- The set has the ancestors of an entry with these parents. -/
structure AncestorSet (L : Uint256 → Uint256 → Prop) (P : Uint256 → Prop) (setAncestors : List Uint256) :
    Prop where
  nodup : setAncestors.Nodup
  mem : ∀ a, a ∈ setAncestors ↔ ∃ x, P x ∧ ReflTransGen L a x

section
variable (hset : AncestorSet L P setAncestors)
include hset

theorem AncestorSet.contains (hlink : p.Linked L) (hP : ∀ x, P x → p.contains x = true) :
    ∀ a ∈ setAncestors, p.contains a = true := by
  intro a ha
  obtain ⟨x, hx, hpath⟩ := (hset.mem a).mp ha
  rcases hpath.cases_head with rfl | ⟨b, hstep, -⟩
  · exact hP a hx
  · exact hlink.left a b hstep

theorem sumWhere_withChild_descendants (hchild : ∀ b, ¬ L n b) (hparent : ∀ a, ¬ TransGen L a n)
    (hself : ¬ P n) (hn : p.contains n = true) (a : Uint256) :
    sumWhere p.hashes p.own (fun b => TransGen (WithChild n P L) a b) =
      sumWhere p.hashes p.own (fun b => TransGen L a b) + if a ∈ setAncestors then p.own n else 0 := by
  have hpath : ∀ b, TransGen (WithChild n P L) a b ↔ TransGen L a b ∨ (b = n ∧ a ∈ setAncestors) := by
    intro b
    rw [transGen_withChild_iff hchild hself, hset.mem]
  split_ifs with ha
  · apply sumWhere_insert (mem_hashes.mpr hn) (hparent a)
    intro b _
    rw [hpath]
    simp [ha]
  · rw [add_zero]
    apply sumWhere_congr _ fun _ _ _ => rfl
    intro b _
    rw [hpath]
    simp [ha]

theorem sumWhere_withChild_ancestors (hin : ∀ a ∈ setAncestors, p.contains a = true) (hchild : ∀ b, ¬ L n b)
    (hparent : ∀ a, ¬ TransGen L a n) (hself : ¬ P n) (h : Uint256) :
    sumWhere p.hashes p.own (fun a => TransGen (WithChild n P L) a h) =
      sumWhere p.hashes p.own (fun a => TransGen L a h) + if h = n then (setAncestors.map p.own).sum else 0 := by
  split_ifs with hh
  · rw [hh, sumWhere_false fun a _ => hparent a, zero_add]
    apply sumWhere_mem_list hset.nodup
    intro a
    rw [transGen_withChild_iff hchild hself, mem_hashes, hset.mem]
    constructor
    · intro ha
      exact ⟨hin a ((hset.mem a).mpr ha), .inr ⟨rfl, ha⟩⟩
    · intro ha
      exact (ha.2.resolve_left (hparent a)).2
  · rw [add_zero]
    apply sumWhere_congr _ fun _ _ _ => rfl
    intro a _
    rw [transGen_withChild_iff hchild hself]
    simp [hh]

end

/-- An entry that has its parents, and is in no totals yet but its own. -/
structure Attaching (n : Uint256) (P : Uint256 → Prop) (L : Uint256 → Uint256 → Prop) (p : CTxMemPool) :
    Prop where
  up : p.LinkedUp (WithChild n P L)
  down : p.LinkedDown L
  ancestors : p.HasAncestorTotals (TransGen L)
  descendants : p.HasDescendantTotals (TransGen L)
  entry : p.contains n = true
  parent : ∀ x, P x → p.contains x = true
  child : ∀ b, ¬ L n b
  above : ∀ a, ¬ TransGen L a n
  self : ¬ P n

theorem updateAncestorsOf_spec (hatt : Attaching n P L p) (hset : AncestorSet L P setAncestors)
    (hin : ∀ a ∈ setAncestors, p.contains a = true) :
    Succeeds (p.updateAncestorsOf true n setAncestors) fun p' => Framed p p' ∧
      p'.LinkedUp (WithChild n P L) ∧ p'.LinkedDown (WithChild n P L) ∧
      p'.HasAncestorTotals (TransGen L) ∧ p'.HasDescendantTotals (TransGen (WithChild n P L)) := by
  have hparents : ∀ a, a ∈ p.parents n ↔ P a := by
    intro a
    rw [hatt.up.mem]
    constructor
    · rintro (h | h)
      · exact absurd (.single h) (hatt.above a)
      · exact h.2
    · exact fun h => .inr ⟨rfl, h⟩
  apply bind (updateChildren_spec (hatt.up.nodup n)
    fun a ha => hatt.parent a ((hparents a).mp ha))
  intro q hq
  obtain ⟨hrelinked, hsame, hchildren⟩ := hq
  have hmodify : ((if true = true then 1 else -1) • q.ownDescendant n :
      DescendantTotals) = CTxMemPoolEntry.ofTotals (q.own n) := by
    rw [if_pos rfl, one_zsmul]
    rfl
  dsimp only
  rw [hmodify]
  have hentry := hrelinked.framed.keeps hatt.entry
  have hsum := sumWhere_withChild_descendants hset hatt.child hatt.above hatt.self hentry
  have hstates : Succeeds _ fun q' => DescendantsUpdated q q' ∧
      q'.HasDescendantTotals (TransGen (WithChild n P L)) :=
    updateDescendantStates_spec hset.nodup (fun a ha => hrelinked.framed.keeps (hin a ha))
    (hrelinked.descendants hatt.descendants)
    (fun a ha => by rw [hsum, if_pos ha])
    fun a _ ha => by rw [hsum, if_neg ha, add_zero]
  apply hstates.mono
  intro q' hq'
  obtain ⟨hupd, hD⟩ := hq'
  -- the parents have it as a child now
  have hdown : q.LinkedDown (WithChild n P L) := by
    refine ⟨fun a => ?_, fun a b => ?_⟩
    · rw [hchildren]
      split_ifs
      · exact OrderedSet.nodup_insert _ (hatt.down.nodup a)
      · exact hatt.down.nodup a
    · rw [hchildren, WithChild, ← hatt.down.mem]
      split_ifs with ha
      · rw [link, insertEntry, or_comm]
        simp [(hparents a).mp ha]
      · have hnot : ¬ P a := fun h => ha ((hparents a).mpr h)
        simp [hnot]
  exact ⟨hrelinked.framed.trans hupd.framed,
    (hatt.up.of_parents hsame).of_parents hupd.parents, hdown.of_children hupd.children,
    hupd.ancestors (hrelinked.ancestors hatt.ancestors), hD⟩

theorem updateEntryForAncestors_spec (hset : AncestorSet L P setAncestors)
    (hin : ∀ a ∈ setAncestors, p.contains a = true) (hn : p.contains n = true) (hchild : ∀ b, ¬ L n b)
    (hparent : ∀ a, ¬ TransGen L a n) (hself : ¬ P n) (hA : p.HasAncestorTotals (TransGen L))
    (hfit : p.SigOpsFit (TransGen (WithChild n P L))) :
    Succeeds (p.updateEntryForAncestors n setAncestors) fun p' => AncestorsUpdated p p' ∧
      p'.HasAncestorTotals (TransGen (WithChild n P L)) := by
  have hsum := sumWhere_withChild_ancestors hset hin hchild hparent hself
  have hstates : Succeeds (p.modifyAll (·.updateAncestorState (setAncestors.map p.own).sum) [n])
      fun p' => AncestorsUpdated p p' ∧ p'.HasAncestorTotals (TransGen (WithChild n P L)) :=
    updateAncestorStates_spec (nodup_singleton n)
      (fun h hh => by rw [mem_singleton.mp hh]; exact hn) hA hfit
      (fun h hh => by rw [hsum, if_pos (mem_singleton.mp hh)])
      fun h _ hh => by rw [hsum, if_neg (fun heq => hh (mem_singleton.mpr heq)), add_zero]
  exact hstates.of_singleton

end Below

/-- The parents that `addUnchecked` finds. -/
def IsParent (p : CTxMemPool) (tx : CTransaction) (a : Uint256) : Prop :=
  a ∈ p.setParentTransactions tx ∧ p.contains a = true

theorem sizeExact_enter (hnew : p.contains e.tx.hash = false) (hsize : p.SizeExact) :
    p.totalTxSize + e.txSize = ∑ h ∈ (p.enter cr e).hashes, (p.enter cr e).own h .size := by
  have hhashes : (p.enter cr e).hashes = insert e.tx.hash p.hashes := by
    ext h
    rw [mem_hashes, contains_enter hnew, Finset.mem_insert, mem_hashes]
  have hout : e.tx.hash ∉ p.hashes := by
    rw [mem_hashes, hnew]
    decide
  have hown : (p.enter cr e).own e.tx.hash .size = e.txSize := by
    rw [own_of_entry (by rw [entry_enter hnew, if_pos rfl])]
    unfold prioritised
    dsimp only
    split_ifs <;> rfl
  have hrest : ∑ h ∈ p.hashes, (p.enter cr e).own h .size = ∑ h ∈ p.hashes, p.own h .size := by
    apply Finset.sum_congr rfl
    intro h hh
    have hent : (p.enter cr e).entry h = p.entry h := by
      rw [entry_enter hnew, if_neg (ne_of_contains hnew (mem_hashes.mp hh))]
    rw [own_of_entry_eq hent]
  rw [hhashes, Finset.sum_insert hout, hown, hrest, hsize, add_comm]

theorem sigOpsFit_enter (hlink : p.Linked L) (hfit : p.SigOpsFit (TransGen L)) (hnew : p.contains e.tx.hash = false)
    (hself : ¬ p.IsParent e.tx e.tx.hash) {setAncestors : List Uint256}
    (hset : AncestorSet L (p.IsParent e.tx) setAncestors)
    (hsigops : e.sigOpCost + (setAncestors.map p.own).sum .sigOps < 2 ^ 31) :
    (p.enter cr e).SigOpsFit (TransGen (WithChild e.tx.hash (p.IsParent e.tx) L)) := by
  have hin := hset.contains hlink fun x hx => hx.2
  intro h hh
  rw [sumWhere_withChild_ancestors hset (fun a ha => (contains_enter hnew a).mpr (.inr (hin a ha)))
    (hlink.not_left hnew) (hlink.not_right hnew) hself, sumWhere_enter hnew fun a ha => hlink.left_of_transGen ha]
  split_ifs with heq
  · have hown : (p.enter cr e).own e.tx.hash .sigOps = e.sigOpCost := by
      rw [own_of_entry (by rw [entry_enter hnew, if_pos rfl])]
      unfold prioritised
      dsimp only
      split_ifs <;> rfl
    have hsum : setAncestors.map (p.enter cr e).own = setAncestors.map p.own :=
      map_congr_left fun a ha => own_enter hnew (hin a ha)
    rw [heq, sumWhere_false fun a _ => hlink.not_right hnew a, zero_add, Pi.add_apply, hown, hsum]
    exact hsigops
  · have hold := ((contains_enter hnew h).mp hh).resolve_left heq
    rw [add_zero, own_enter hnew hold]
    exact hfit h hold

theorem addUnchecked_spec (hexact : p.Exact L) (hfit : p.SigOpsFit (TransGen L))
    (hnew : p.contains e.tx.hash = false) (halone : e.Alone)
    (hself : e.tx.hash ∉ p.setParentTransactions e.tx) {setAncestors : List Uint256}
    (hset : AncestorSet L (p.IsParent e.tx) setAncestors)
    (hsigops : e.sigOpCost + (setAncestors.map p.own).sum .sigOps < 2 ^ 31) :
    Succeeds (p.addUnchecked cr e setAncestors) fun p' =>
      p'.Exact (WithChild e.tx.hash (p.IsParent e.tx) L) ∧
      p'.SigOpsFit (TransGen (WithChild e.tx.hash (p.IsParent e.tx) L)) ∧ (p.SizeExact → p'.SizeExact) := by
  have hentered : (p.enter cr e).Exact L := exact_enter hexact hnew halone
  have hlink := hentered.linked
  have hhash : (p.enter cr e).contains e.tx.hash = true := (contains_enter hnew _).mpr (.inl rfl)
  have hchild := hexact.linked.not_left hnew
  have hparent := hexact.linked.not_right hnew
  have hnotself : ¬ p.IsParent e.tx e.tx.hash := fun h => hself h.1
  have hfit' : (p.enter cr e).SigOpsFit _ := sigOpsFit_enter hexact.linked hfit hnew hnotself hset hsigops
  have hnone : (p.enter cr e).parents e.tx.hash = [] := by
    rw [eq_nil_iff_forall_not_mem]
    intro a ha
    exact hparent a (.single ((hlink.up.mem a _).mp ha))
  -- the parents are entries of the old pool
  have hmem : ∀ a, a ∈ (p.setParentTransactions e.tx).filter (fun h => (p.enter cr e).contains h) ↔
      p.IsParent e.tx a := by
    intro a
    rw [mem_filter, contains_enter hnew]
    constructor
    · rintro ⟨ha, rfl | hin⟩
      · exact absurd ha hself
      · exact ⟨ha, hin⟩
    · exact fun ha => ⟨ha.1, .inr ha.2⟩
  apply bind (updateParentsOf_spec hhash hnone)
  intro q₁ hq₁
  obtain ⟨hrelinked, hchildren, hothers, hnodup, hparents⟩ := hq₁
  have hcontains : ∀ a, p.contains a = true → q₁.contains a = true := by
    intro a ha
    rw [hrelinked.framed.contains, contains_enter hnew]
    exact .inr ha
  have hup : q₁.LinkedUp (WithChild e.tx.hash (p.IsParent e.tx) L) := by
    refine ⟨fun b => ?_, fun a b => ?_⟩
    · by_cases hb : b = e.tx.hash
      · rw [hb]
        exact hnodup
      · rw [hothers b hb]
        exact hlink.up.nodup b
    · by_cases hb : b = e.tx.hash
      · have hnot : ¬ L a e.tx.hash := fun h => hparent a (.single h)
        rw [hb, hparents, hmem, WithChild]
        simp [hnot]
      · rw [hothers b hb, hlink.up.mem, WithChild]
        simp [hb]
  have hatt : Attaching e.tx.hash (p.IsParent e.tx) L q₁ :=
    { up := hup
      down := hlink.down.of_children hchildren
      ancestors := hrelinked.ancestors hentered.ancestors
      descendants := hrelinked.descendants hentered.descendants
      entry := hrelinked.framed.keeps hhash
      parent := fun x hx => hcontains x hx.2
      child := hchild
      above := hparent
      self := hnotself }
  have hin : ∀ a ∈ setAncestors, q₁.contains a = true := fun a ha =>
    hcontains a (hset.contains hexact.linked (fun x hx => hx.2) a ha)
  apply bind (updateAncestorsOf_spec hatt hset hin)
  intro q₂ hq₂
  obtain ⟨hframed, hup₂, hdown₂, hA₂, hD₂⟩ := hq₂
  apply bind (updateEntryForAncestors_spec hset
    (fun a ha => hframed.keeps (hin a ha)) (hframed.keeps hatt.entry) hchild hparent hnotself hA₂
    ((hrelinked.framed.trans hframed).sigOpsFit hfit' fun _ _ h => h))
  intro q₃ hq₃
  obtain ⟨hupd, hA₃⟩ := hq₃
  have hframed₃ := (hrelinked.framed.trans hframed).trans hupd.framed
  have hcontains₃ : ∀ a, q₃.contains a = true ↔ a = e.tx.hash ∨ p.contains a = true := by
    intro a
    rw [hframed₃.contains, contains_enter hnew]
  refine ⟨_, rfl, ⟨⟨hup₂.of_parents hupd.parents, hdown₂.of_children hupd.children, ?_, ?_,
    hexact.linked.acyclic.withChild hchild hnotself⟩, hA₃, hupd.descendants hD₂⟩,
    hframed₃.sigOpsFit hfit' fun _ _ h => h, ?_⟩
  · rintro a b (hab | ⟨-, ha⟩)
    · exact (hcontains₃ a).mpr (.inr (hexact.linked.left a b hab))
    · exact (hcontains₃ a).mpr (.inr ha.2)
  · rintro a b (hab | ⟨rfl, -⟩)
    · exact (hcontains₃ b).mpr (.inr (hexact.linked.right a b hab))
    · exact (hcontains₃ _).mpr (.inl rfl)
  · intro hsize
    show q₃.totalTxSize + e.txSize = ∑ h ∈ q₃.hashes, q₃.own h .size
    have hown := hframed₃.own
    rw [hframed₃.totalTxSize, hframed₃.hashes]
    simp only [hown]
    exact sizeExact_enter hnew hsize

end CTxMemPool

end Defcoin.Mempool
