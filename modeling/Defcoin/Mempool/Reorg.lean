import Defcoin.Mempool.Addition

/-! # After a reorganisation

  Transactions of disconnected blocks come back into a pool that has children of them.
  `addUnchecked` does not look for children, so the links from what came back to what was there
  before are hidden until `UpdateTransactionsFromBlock` repairs them, last transaction first.
-/

namespace Defcoin.Mempool

open Relation Dag CTxMemPoolEntry OrderedSet List Outcome Succeeds

namespace CTxMemPool

variable {cr : Mweb.Crypto} {p q : CTxMemPool} {E : Uint256 → Uint256 → Prop} {B : List Uint256}

structure Batch (cr : Mweb.Crypto) (p : CTxMemPool) (E : Uint256 → Uint256 → Prop) (B : List Uint256) :
    Prop where
  left : ∀ a b, E a b → p.contains a = true
  right : ∀ a b, E a b → p.contains b = true
  acyclic : Acyclic E
  nodup : B.Nodup
  contains : ∀ a ∈ B, p.contains a = true
  /-- No parent of a transaction of the batch is outside it. -/
  upward : ∀ a b, E a b → b ∈ B → a ∈ B
  /-- Parents come before children. -/
  ordered : ∀ todo u done, todo ++ u :: done = B → ∀ b ∈ B, E u b → b ∈ done
  keyed : ∀ h e, p.entry h = some e → e.tx.hash = h
  fits : p.SigOpsFit (TransGen E)
  /-- The spenders of the outputs are the children. -/
  spenders : ∀ u ∈ B, ∀ e, p.entry u = some e → ∀ c,
    c ∈ (getOutputs cr e.tx).filterMap p.mapNextTx ↔ E u c

theorem Batch.later (hbatch : Batch cr p E B) {todo done : List Uint256} {u : Uint256}
    (hl : todo ++ u :: done = B) {b : Uint256} (hpath : TransGen E u b) (hb : b ∈ B) : b ∈ done := by
  -- a suffix of the batch has the children of its members, as far as they are in the batch
  have hsuffix : ∀ x ∈ done, ∀ y ∈ B, E x y → y ∈ done := by
    intro x hx y hy hxy
    obtain ⟨s, t, rfl⟩ := append_of_mem hx
    have := hbatch.ordered (todo ++ u :: s) x t (by rw [← hl]; simp) y hy hxy
    exact mem_append_right _ (mem_cons_of_mem _ this)
  induction hpath with
  | single hstep => exact hbatch.ordered todo u done hl _ hb hstep
  | tail _ hstep ih =>
    have hmid := hbatch.upward _ _ hstep hb
    exact hsuffix _ (ih hmid) _ hb hstep

/-- The transactions `todo` of the batch are still to be done. -/
structure Repairing (E : Uint256 → Uint256 → Prop) (B todo : List Uint256) (p q : CTxMemPool)
    (cache : CacheMap) : Prop where
  framed : Framed p q
  up : q.LinkedUp (Partly (· ∈ todo) (· ∈ B) E)
  down : q.LinkedDown (Partly (· ∈ todo) (· ∈ B) E)
  ancestors : q.HasAncestorTotals fun a h => TransGen E a h ∧ ¬ (a ∈ todo ∧ h ∉ B)
  descendants : q.HasDescendantTotals fun h b => TransGen E h b ∧ ¬ (h ∈ todo ∧ b ∉ B)
  cached : ∀ c known, cache c = some known →
    c ∈ B ∧ c ∉ todo ∧ ∀ d, d ∈ known ↔ d ∉ B ∧ TransGen E c d

/-! ### Links -/

theorem updateChild_spec {add : Bool} {child hash : Uint256} (hhash : p.contains hash = true) :
    Succeeds (p.updateChild add child hash) fun p' => Relinked p p' ∧
      (∀ h, p'.parents h = p.parents h) ∧
      ∀ h, p'.children h = if h = hash then link add child (p.children h) else p.children h := by
  have hloop : Succeeds ([hash].foldlM (updateChild add child) p) _ :=
    updateChildren_spec (nodup_singleton hash) fun h hh => (mem_singleton.mp hh).symm ▸ hhash
  simpa only [mem_singleton] using hloop.of_singleton

/-- The links of a parent to children, from both ends. -/
structure Adopted (u : Uint256) (set : List Uint256) (p p' : CTxMemPool) : Prop where
  relinked : Relinked p p'
  childrenNodup : ∀ h, (p'.children h).Nodup
  children : ∀ h b, b ∈ p'.children h ↔ b ∈ p.children h ∨ (h = u ∧ b ∈ set)
  parentsNodup : ∀ h, (p'.parents h).Nodup
  parents : ∀ a h, a ∈ p'.parents h ↔ a ∈ p.parents h ∨ (a = u ∧ h ∈ set)

theorem linkChild_spec {u : Uint256} (hu : p.contains u = true) {set : List Uint256}
    (hset : ∀ c ∈ set, p.contains c = true) (hchildren : ∀ h, (p.children h).Nodup)
    (hparents : ∀ h, (p.parents h).Nodup) :
    Succeeds (set.foldlM (linkChild u) p) (Adopted u set p) := by
  apply foldlM (fun done q => Adopted u done p q)
  · exact ⟨⟨.refl p, fun h => h, fun h => h⟩, hchildren, by simp, hparents, by simp⟩
  · intro done c rest q hl hadopted
    have hc : c ∈ set := hl ▸ mem_append_right _ mem_cons_self
    apply bind (updateChild_spec (hadopted.relinked.framed.keeps hu))
    intro q₁ hq₁
    obtain ⟨hrelinked₁, hparents₁, hchildren₁⟩ := hq₁
    apply (updateParent_spec (hrelinked₁.framed.keeps
      (hadopted.relinked.framed.keeps (hset c hc)))).mono
    intro q₂ hq₂
    obtain ⟨hrelinked₂, hchildren₂, hparents₂⟩ := hq₂
    refine ⟨(hadopted.relinked.trans hrelinked₁).trans hrelinked₂, fun h => ?_, fun h b => ?_, fun h => ?_,
      fun a h => ?_⟩
    · rw [hchildren₂, hchildren₁]
      split_ifs
      · exact nodup_insert _ (hadopted.childrenNodup h)
      · exact hadopted.childrenNodup h
    · rw [hchildren₂, hchildren₁]
      split_ifs with hh
      · rw [link, if_pos rfl, insertEntry, mem_insert, hadopted.children, mem_append, mem_singleton]
        tauto
      · rw [hadopted.children]
        simp [hh]
    · rw [hparents₂, hparents₁]
      split_ifs
      · exact nodup_insert _ (hadopted.parentsNodup h)
      · exact hadopted.parentsNodup h
    · rw [hparents₂, hparents₁]
      split_ifs with hh
      · rw [link, if_pos rfl, insertEntry, mem_insert, hadopted.parents, mem_append, mem_singleton]
        tauto
      · rw [hadopted.parents]
        simp [hh]

section Step
variable {todo done : List Uint256} {u : Uint256} {cache : CacheMap}

theorem Framed.entry_tx (h : Framed p q) {hash : Uint256} {e : CTxMemPoolEntry} (he : q.entry hash = some e) :
    ∃ e', p.entry hash = some e' ∧ e'.tx = e.tx := by
  have htx := h.txOf hash
  unfold CTxMemPool.txOf at htx
  rw [he] at htx
  exact Option.map_eq_some_iff.mp htx.symm

theorem Batch.clear (hbatch : Batch cr p E B) (hl : todo ++ done = B) {c x : Uint256} (hc : c ∈ done)
    (hpath : ReflTransGen E c x) : x ∉ todo := by
  intro hx
  have hnodup := hbatch.nodup
  obtain ⟨s, t, rfl⟩ := append_of_mem hc
  have hdisj : ∀ y ∈ s ++ c :: t, y ∉ todo := by
    intro y hy hin
    rw [← hl] at hnodup
    exact (nodup_append.mp hnodup).2.2 y hin y hy rfl
  rcases hpath.cases_head with rfl | ⟨y, hstep, hrest⟩
  · exact hdisj c hc hx
  · have hxB : x ∈ B := by
      rw [← hl]
      exact mem_append_left _ hx
    have hsplit : (todo ++ s) ++ c :: t = B := by
      rw [← hl]
      simp
    have hlater := hbatch.later hsplit (TransGen.head' hstep hrest) hxB
    exact hdisj x (mem_append_right _ (mem_cons_of_mem _ hlater)) hx

theorem linkChildren_spec (hbatch : Batch cr p E B) (hl : todo ++ u :: done = B)
    (hrep : Repairing E B (todo ++ [u]) p q cache) {e : CTxMemPoolEntry} (he : q.entry u = some e) :
    Succeeds (q.linkChildren cr B e) fun q' => Relinked q q' ∧
      q'.LinkedUp (Partly (· ∈ todo) (· ∈ B) E) ∧ q'.LinkedDown (Partly (· ∈ todo) (· ∈ B) E) := by
  have hu : u ∈ B := hl ▸ mem_append_right _ mem_cons_self
  have hnew : u ∉ todo := hbatch.clear hl mem_cons_self .refl
  obtain ⟨e', he', htx⟩ := hrep.framed.entry_tx he
  have hkey : e.tx.hash = u := by
    rw [← htx]
    exact hbatch.keyed u e' he'
  have hspenders : ∀ c, c ∈ (getOutputs cr e.tx).filterMap q.mapNextTx ↔ E u c := by
    intro c
    rw [hrep.framed.mapNextTx, ← htx]
    exact hbatch.spenders u hu e' he' c
  have hcontains : ∀ c, E u c → q.contains c = true := fun c hc =>
    hrep.framed.keeps (hbatch.right u c hc)
  unfold linkChildren
  rw [if_pos (all_eq_true.mpr fun c hc => hcontains c ((hspenders c).mp hc)), hkey]
  apply (linkChild_spec (contains_iff.mpr ⟨e, he⟩) (by
    intro c hc
    exact hcontains c ((hspenders c).mp (mem_dedup.mp (mem_of_mem_filter hc))))
    hrep.down.nodup hrep.up.nodup).mono
  intro q' hadopted
  have hset : ∀ c, c ∈ ((getOutputs cr e.tx).filterMap q.mapNextTx).dedup.filter (· ∉ B) ↔ E u c ∧ c ∉ B := by
    intro c
    rw [mem_filter, mem_dedup, hspenders, decide_eq_true_eq]
  -- what was hidden below `u` is not any more
  have hshown : ∀ a b, Partly (· ∈ todo ++ [u]) (· ∈ B) E a b ∨ (a = u ∧ E u b ∧ b ∉ B) ↔
      Partly (· ∈ todo) (· ∈ B) E a b := by
    intro a b
    unfold Partly
    by_cases ha : a = u
    · subst ha
      tauto
    · simp [ha]
  refine ⟨hadopted.relinked, ⟨hadopted.parentsNodup, fun a b => ?_⟩,
    ⟨hadopted.childrenNodup, fun a b => ?_⟩⟩
  · rw [hadopted.parents, hrep.up.mem, hset, hshown]
  · rw [hadopted.children, hrep.down.mem, hset, hshown]

theorem mem_descendantsFrom (hbatch : Batch cr p E B) (hl : todo ++ u :: done = B) (hframed : Framed p q)
    (hdown : q.LinkedDown (Partly (· ∈ todo) (· ∈ B) E))
    (hcached : ∀ c known, cache c = some known →
      c ∈ B ∧ c ∉ todo ++ [u] ∧ ∀ d, d ∈ known ↔ d ∉ B ∧ TransGen E c d) :
    ((q.descendantsFrom u cache).filter (· ∉ B)).Nodup ∧
      ∀ d, d ∈ (q.descendantsFrom u cache).filter (· ∉ B) ↔ d ∉ B ∧ TransGen E u d := by
  have hnext : OrderedSet.Next q.children = Partly (· ∈ todo) (· ∈ B) E := by
    funext a b
    exact propext (hdown.mem a b)
  have hdone : ∀ c ∈ B, c ∉ todo → c ∈ u :: done := by
    intro c hc hout
    rw [← hl] at hc
    exact (mem_append.mp hc).resolve_left hout
  -- from what is done, and from `u`, everything is visible
  have hpath : ∀ c ∈ B, c ∉ todo → ∀ d, TransGen (OrderedSet.Next q.children) c d ↔ TransGen E c d := by
    intro c hc hout d
    rw [hnext]
    exact transGen_partly_iff fun x hx => hbatch.clear hl (hdone c hc hout) hx
  have hu : u ∈ B ∧ u ∉ todo :=
    ⟨hl ▸ mem_append_right _ mem_cons_self, hbatch.clear hl mem_cons_self .refl⟩
  have huniv : ∀ x ∈ q.hashes, ∀ y ∈ q.children x, y ∈ q.hashes := by
    intro x _ y hy
    exact mem_hashes.mpr (hframed.keeps (hbatch.right x y ((hdown.mem x y).mp hy).1))
  have hcache : ∀ c known, cache c = some known →
      ¬ c ∉ B ∧ ∀ d, d ∈ known ↔ d ∉ B ∧ TransGen (OrderedSet.Next q.children) c d := by
    intro c known hc
    obtain ⟨hin, hout, hmem⟩ := hcached c known hc
    refine ⟨not_not.mpr hin, fun d => ?_⟩
    rw [hmem, hpath c hin (fun h => hout (mem_append_left _ h))]
  obtain ⟨hsound, hcovered⟩ := cachedClosure_spec Uint256.memcmpKey huniv hcache q.size
    (q.children u) [] [] (by
      intro x hx
      exact mem_hashes.mpr (hframed.keeps (hbatch.right u x ((hdown.mem u x).mp hx).1))) (by simp) (hdown.nodup u) nodup_nil (by simp)
    (by simp) (by rw [card_hashes]; simp) (by simp) (by simp)
  refine ⟨(nodup_cachedClosure _ nodup_nil).filter _, fun d => ?_⟩
  rw [mem_filter, decide_eq_true_eq, and_comm]
  apply and_congr_right
  intro hd
  rw [← hpath u hu.1 hu.2]
  constructor
  · intro hin
    rcases hsound d hin with hnil | ⟨x, hx, hreach⟩
    · cases hnil
    · exact TransGen.head' hx hreach
  · intro hreach
    obtain ⟨x, hstep, hrest⟩ := TransGen.head'_iff.mp hreach
    exact hcovered x (Or.inr (Or.inl hstep)) d hd hrest

theorem sum_map_ownDescendant (p : CTxMemPool) (l : List Uint256) :
    (l.map p.ownDescendant).sum = ofTotals (l.map p.own).sum := by
  induction l with
  | nil => rfl
  | cons a l ih =>
    rw [map_cons, sum_cons, ih]
    rfl

theorem updateForDescendants_spec (hbatch : Batch cr p E B) (hl : todo ++ u :: done = B)
    (hframed : Framed p q) (hup : q.LinkedUp (Partly (· ∈ todo) (· ∈ B) E))
    (hdown : q.LinkedDown (Partly (· ∈ todo) (· ∈ B) E))
    (hA : q.HasAncestorTotals fun a h => TransGen E a h ∧ ¬ (a ∈ todo ++ [u] ∧ h ∉ B))
    (hD : q.HasDescendantTotals fun h b => TransGen E h b ∧ ¬ (h ∈ todo ++ [u] ∧ b ∉ B))
    (hcached : ∀ c known, cache c = some known →
      c ∈ B ∧ c ∉ todo ++ [u] ∧ ∀ d, d ∈ known ↔ d ∉ B ∧ TransGen E c d) :
    Succeeds (q.updateForDescendants B cache u) fun r => Repairing E B todo p r.1 r.2 := by
  have hu : u ∈ B := hl ▸ mem_append_right _ mem_cons_self
  have hnew : u ∉ todo := hbatch.clear hl mem_cons_self .refl
  have hcontains := hframed.keeps (hbatch.contains u hu)
  obtain ⟨hnodup, hmem⟩ := mem_descendantsFrom hbatch hl hframed hdown hcached
  have hin : ∀ d, TransGen E u d → q.contains d = true := by
    intro d hpath
    obtain ⟨c, -, hstep⟩ := TransGen.tail'_iff.mp hpath
    exact hframed.keeps (hbatch.right c d hstep)
  unfold updateForDescendants
  generalize (q.descendantsFrom u cache).filter (· ∉ B) = counted at hnodup hmem ⊢
  -- each of the descendants has one more ancestor
  have hfirst : Succeeds (q.modifyAll (·.updateAncestorState (q.own u)) counted) fun q' =>
      AncestorsUpdated q q' ∧ q'.HasAncestorTotals fun a h => TransGen E a h ∧ ¬ (a ∈ todo ∧ h ∉ B) := by
    apply updateAncestorStates_spec hnodup (fun d hd => hin d ((hmem d).mp hd).2) hA
      (hframed.sigOpsFit hbatch.fits fun _ _ h => h.1)
    · intro d hd
      obtain ⟨hout, hpath⟩ := (hmem d).mp hd
      apply sumWhere_insert (mem_hashes.mpr hcontains)
      · simp [hout]
      · intro a _
        by_cases ha : a = u
        · subst ha
          simp [hpath, hnew]
        · simp [ha]
    · intro d _ hd
      apply sumWhere_congr _ fun _ _ _ => rfl
      intro a _
      by_cases ha : a = u
      · subst ha
        have hnot : TransGen E a d → d ∈ B := fun hpath => by_contra fun hout => hd ((hmem d).mpr ⟨hout, hpath⟩)
        simp only [hnew, false_and, not_false_eq_true, and_true, mem_append, mem_singleton, or_true,
          true_and, not_not]
        exact ⟨fun hpath => ⟨hpath, hnot hpath⟩, fun h => h.1⟩
      · simp [ha]
  apply bind hfirst
  intro q₁ hq₁
  obtain ⟨hupd, hA₁⟩ := hq₁
  -- and `u` has them as descendants
  have hsecond : Succeeds (q₁.modifyAll (·.updateDescendantState
      (ofTotals (counted.map q₁.own).sum)) [u]) fun q' =>
      DescendantsUpdated q₁ q' ∧ q'.HasDescendantTotals fun h b => TransGen E h b ∧ ¬ (h ∈ todo ∧ b ∉ B) := by
    apply updateDescendantStates_spec (nodup_singleton u) _ (hupd.descendants hD)
    · intro h hh
      rw [mem_singleton.mp hh]
      have hlist : sumWhere q₁.hashes q₁.own (fun b => TransGen E u b ∧ ¬ b ∈ B) = (counted.map q₁.own).sum := by
        apply sumWhere_mem_list hnodup
        intro d
        rw [hmem, mem_hashes, hupd.framed.contains]
        exact ⟨fun h => ⟨hin d h.2, h.2, h.1⟩, fun h => ⟨h.2.2, h.2.1⟩⟩
      have hall : sumWhere q₁.hashes q₁.own (fun b => TransGen E u b ∧ ¬ (u ∈ todo ∧ b ∉ B)) =
          sumWhere q₁.hashes q₁.own (fun b => TransGen E u b) := by
        apply sumWhere_congr _ fun _ _ _ => rfl
        simp [hnew]
      have hinside : sumWhere q₁.hashes q₁.own (fun b => TransGen E u b ∧ ¬ (u ∈ todo ++ [u] ∧ b ∉ B)) =
          sumWhere q₁.hashes q₁.own (fun b => TransGen E u b ∧ b ∈ B) := by
        apply sumWhere_congr _ fun _ _ _ => rfl
        simp
      rw [hall, hinside, sumWhere_split fun b => b ∈ B, hlist]
    · intro h _ hh
      have hne : h ≠ u := fun heq => hh (mem_singleton.mpr heq)
      apply sumWhere_congr _ fun _ _ _ => rfl
      simp [hne]
    · intro h hh
      rw [mem_singleton.mp hh]
      exact hupd.framed.keeps hcontains
  obtain ⟨q₂, hq₃, hupd₂, hD₂⟩ := hsecond.of_singleton
  have hmodify : (counted.map q.ownDescendant).sum = ofTotals (counted.map q₁.own).sum := by
    rw [sum_map_ownDescendant]
    have hown : q₁.own = q.own := funext hupd.framed.own
    rw [hown]
  rw [hmodify]
  refine ⟨_, bind_eq_ok.mpr ⟨q₂, hq₃, rfl⟩, ⟨(hframed.trans hupd.framed).trans hupd₂.framed,
    (hup.of_parents hupd.parents).of_parents hupd₂.parents,
    (hdown.of_children hupd.children).of_children hupd₂.children, hupd₂.ancestors hA₁, hD₂, ?_⟩⟩
  -- what was counted is remembered
  intro c known hc
  simp only [remember] at hc
  have hold : ∀ known, cache c = some known → c ∈ B ∧ c ∉ todo ∧ ∀ d, d ∈ known ↔ d ∉ B ∧ TransGen E c d := by
    intro known hc
    obtain ⟨h₁, h₂, h₃⟩ := hcached c known hc
    exact ⟨h₁, fun h => h₂ (mem_append_left _ h), h₃⟩
  split_ifs at hc with hnil
  · exact hold known hc
  · by_cases heq : c = u
    · subst heq
      have hnone : cache c = none := by
        rw [Option.eq_none_iff_forall_ne_some]
        intro known' hknown'
        exact (hcached c known' hknown').2.1 (mem_append_right _ (mem_singleton.mpr rfl))
      rw [Function.update_self, hnone] at hc
      cases hc
      refine ⟨hu, hnew, fun d => ?_⟩
      rw [← hmem]
      show d ∈ counted.foldl (fun l x => insert Uint256.memcmpKey x l) [] ↔ _
      rw [mem_insertAll]
      simp
    · rw [Function.update_of_ne heq] at hc
      exact hold known hc

theorem updateTransactionFromBlock_spec (hbatch : Batch cr p E B) (hl : todo ++ u :: done = B)
    (hrep : Repairing E B (todo ++ [u]) p q cache) :
    Succeeds (updateTransactionFromBlock cr B (q, cache) u) fun r =>
      Repairing E B todo p r.1 r.2 := by
  have hu := hrep.framed.keeps (hbatch.contains u (hl ▸ mem_append_right _ mem_cons_self))
  obtain ⟨e, he⟩ := contains_iff.mp hu
  unfold updateTransactionFromBlock
  rw [he]
  apply bind (linkChildren_spec hbatch hl hrep he)
  intro q' hq'
  obtain ⟨hrelinked, hup, hdown⟩ := hq'
  exact updateForDescendants_spec hbatch hl (hrep.framed.trans hrelinked.framed) hup hdown
    (hrelinked.ancestors hrep.ancestors) (hrelinked.descendants hrep.descendants) hrep.cached

end Step

/-- **`UpdateTransactionsFromBlock`** makes a pool exact that has hidden links. -/
theorem updateTransactionsFromBlock_spec (hbatch : Batch cr p E B) (hexact : p.Exact (Hidden (· ∈ B) E)) :
    Succeeds (p.updateTransactionsFromBlock cr B) fun q => Framed p q ∧ q.Exact E := by
  have hhidden : ∀ a b, TransGen (Hidden (· ∈ B) E) a b ↔ TransGen E a b ∧ ¬ (a ∈ B ∧ b ∉ B) := fun a b =>
    transGen_hidden_iff hbatch.upward
  have hinit : Repairing E B B p p fun _ => none :=
    { framed := .refl p
      up := hexact.linked.up
      down := hexact.linked.down
      ancestors := hexact.ancestors.congr fun a b _ _ => hhidden a b
      descendants := hexact.descendants.congr fun a b _ _ => hhidden a b
      cached := by simp }
  -- the loop runs backwards; hashes not yet reached still hide their links
  have hloop := foldlM (s := (p, fun _ => none))
    (l := B.reverse) (fun past r => ∃ todo, todo ++ past.reverse = B ∧ Repairing E B todo p r.1 r.2)
    ⟨B, by simp, hinit⟩ (by
      intro past u rest r hl hinv
      obtain ⟨todo, htodo, hrep⟩ := hinv
      have hB : rest.reverse ++ u :: past.reverse = B := by
        have h := congrArg List.reverse hl
        simpa using h
      have hsplit : todo ++ past.reverse = (rest.reverse ++ [u]) ++ past.reverse := by
        rw [htodo, ← hB]
        simp
      have heq := append_cancel_right hsplit
      rw [heq] at hrep
      apply (updateTransactionFromBlock_spec hbatch hB hrep).mono
      intro r' hr'
      exact ⟨rest.reverse, by rw [← hB]; simp, hr'⟩)
  apply map hloop
  intro r hr
  obtain ⟨todo, htodo, hrep⟩ := hr
  have hnil : todo = [] := by
    rw [reverse_reverse] at htodo
    exact append_cancel_right (htodo.trans (nil_append B).symm)
  subst hnil
  have hall : Partly (· ∈ []) (· ∈ B) E = E := by
    funext a b
    simp [Partly]
  have hup := hrep.up
  have hdown := hrep.down
  rw [hall] at hup hdown
  exact ⟨hrep.framed, ⟨hup, hdown, fun a b hab => hrep.framed.keeps (hbatch.left a b hab),
    fun a b hab => hrep.framed.keeps (hbatch.right a b hab), hbatch.acyclic⟩,
    hrep.ancestors.congr (by simp), hrep.descendants.congr (by simp)⟩

end CTxMemPool

end Defcoin.Mempool
