import Defcoin.Mempool.Totals

/-! # Removing entries

  `UpdateForRemoveFromMempool` takes the entries of a stage out of the totals and links of the
  others, in three loops: over their descendants, if that is asked for, over their ancestors and
  parents, and over their children.

  After the removal totals and links are exact again when no path between entries that stay leads
  through one that leaves.
-/

namespace Defcoin.Mempool

open Relation Dag Outcome Succeeds List

namespace CTxMemPool

variable {cr : Mweb.Crypto} {p p' p'' : CTxMemPool} {A D L : Uint256 → Uint256 → Prop}
  {stage done : List Uint256} {hash : Uint256}

theorem AncestorsUpdated.refl (p : CTxMemPool) : AncestorsUpdated p p :=
  ⟨.refl p, fun _ => rfl, fun _ => rfl, fun h => h⟩

theorem AncestorsUpdated.trans (h : AncestorsUpdated p p') (h' : AncestorsUpdated p' p'') :
    AncestorsUpdated p p'' :=
  ⟨h.framed.trans h'.framed, fun hash => (h'.parents hash).trans (h.parents hash),
    fun hash => (h'.children hash).trans (h.children hash), fun hD => h'.descendants (h.descendants hD)⟩

theorem Relinked.trans (h : Relinked p p') (h' : Relinked p' p'') : Relinked p p'' :=
  ⟨h.framed.trans h'.framed, fun hA => h'.ancestors (h.ancestors hA),
    fun hD => h'.descendants (h.descendants hD)⟩

theorem AncestorsUpdated.linked (h : AncestorsUpdated p p') (hlink : p.Linked L) : p'.Linked L where
  up := hlink.up.of_parents h.parents
  down := hlink.down.of_children h.children
  left a b hab := h.framed.keeps (hlink.left a b hab)
  right a b hab := h.framed.keeps (hlink.right a b hab)
  acyclic := hlink.acyclic

/-! ### The descendants lose an ancestor -/

theorem updateDescendantsForRemoval_spec (hlink : p.Linked L) (hhash : p.contains hash = true)
    (hnew : hash ∉ done) (hA : p.HasAncestorTotals fun a h => TransGen L a h ∧ a ∉ done)
    (hfit : p.SigOpsFit (TransGen L)) :
    Succeeds (p.updateDescendantsForRemoval hash) fun p' => AncestorsUpdated p p' ∧
      p'.HasAncestorTotals fun a h => TransGen L a h ∧ a ∉ done ++ [hash] := by
  have hmem := mem_properDescendants hlink hhash
  have hnodup := (calculateDescendants_spec hlink.down hlink.right downClosed_nil hhash).1.nodup
  refine updateAncestorStates_spec (hnodup.filter _) ?_ hA ((Framed.refl p).sigOpsFit hfit fun _ _ h => h.1) ?_ ?_
  · intro d hd
    exact hlink.right_of_transGen ((hmem d).mp hd)
  · intro d hd
    -- the entry itself is the one ancestor less
    exact sumWhere_leave (mem_hashes.mpr hhash) ((hmem d).mp hd) hnew
  · intro d _ hd
    exact sumWhere_leave_of_not fun hpath => hd ((hmem d).mpr hpath)

theorem updateDescendantsForRemovals_spec (hlink : p.Linked L) (hnodup : stage.Nodup)
    (hin : ∀ r ∈ stage, p.contains r = true) (hA : p.HasAncestorTotals (TransGen L))
    {updateDescendants : Bool} (hfit : updateDescendants = true → p.SigOpsFit (TransGen L)) :
    Succeeds (p.updateDescendantsForRemovals stage updateDescendants) fun p' =>
      AncestorsUpdated p p' ∧
        p'.HasAncestorTotals fun a h => TransGen L a h ∧ (updateDescendants = true → a ∉ stage) := by
  cases updateDescendants with
  | false =>
    refine ⟨p, rfl, .refl p, hA.congr ?_⟩
    simp
  | true =>
    have hloop := foldlM_nodup
      (fun done q => AncestorsUpdated p q ∧ q.HasAncestorTotals fun a h => TransGen L a h ∧ a ∉ done)
      hnodup ⟨.refl p, hA.congr (by simp)⟩ (by
        intro done r q hr hnew hinv
        obtain ⟨hupd, hA⟩ := hinv
        apply (updateDescendantsForRemoval_spec (hupd.linked hlink)
          (hupd.framed.keeps (hin r hr)) hnew hA (hupd.framed.sigOpsFit (hfit rfl) fun _ _ h => h)).mono
        intro q' hq'
        exact ⟨hupd.trans hq'.1, hq'.2⟩)
    apply hloop.mono
    intro q hq
    exact ⟨hq.1, hq.2.congr (by simp)⟩

/-! ### The ancestors lose a descendant -/

structure Detaching (L : Uint256 → Uint256 → Prop) (done : List Uint256) (p p' : CTxMemPool) : Prop where
  framed : Framed p p'
  parents : ∀ h, p'.parents h = p.parents h
  ancestors : ∀ {A}, p.HasAncestorTotals A → p'.HasAncestorTotals A
  down : p'.LinkedDown fun a b => L a b ∧ b ∉ done
  descendants : p'.HasDescendantTotals fun h b => TransGen L h b ∧ b ∉ done

theorem updateAncestorsForRemoval_spec (hlink : p.Linked L) (hhash : p.contains hash = true)
    (hnew : hash ∉ done) (hdet : Detaching L done p p') :
    Succeeds (p'.updateAncestorsForRemoval hash) (Detaching L (done ++ [hash]) p) := by
  have hup : p'.LinkedUp L := hlink.up.of_parents hdet.parents
  have hleft : ∀ a b, L a b → p'.contains a = true := fun a b hab =>
    hdet.framed.keeps (hlink.left a b hab)
  obtain ⟨hnodup, hmem⟩ := calculateMemPoolAncestors_spec hup hleft hash
  apply bind (updateChildren_spec (hup.nodup hash)
    fun a ha => hleft a hash ((hup.mem a hash).mp ha))
  intro q hq
  obtain ⟨hrelinked, hparents, hchildren⟩ := hq
  have hframed := hdet.framed.trans hrelinked.framed
  have hmodify : ((if false = true then 1 else -1) • q.ownDescendant hash :
      DescendantTotals) = CTxMemPoolEntry.ofTotals (-q.own hash) := by
    rw [if_neg (by decide), neg_one_zsmul]
    rfl
  dsimp only
  rw [hmodify]
  have hhash' : hash ∈ q.hashes := mem_hashes.mpr (hframed.keeps hhash)
  have hstates := updateDescendantStates_spec hnodup
    (fun a ha => hframed.keeps (hlink.left_of_transGen ((hmem a).mp ha)))
    (hrelinked.descendants hdet.descendants)
    (fun a ha => sumWhere_leave hhash' ((hmem a).mp ha) hnew)
    fun a _ ha => sumWhere_leave_of_not fun hpath => ha ((hmem a).mpr hpath)
  apply mono hstates
  intro q' hq'
  obtain ⟨hupd, hD⟩ := hq'
  -- a child is dropped where it was one
  have hdown : q.LinkedDown fun a b => L a b ∧ b ∉ done ++ [hash] := by
    have hfilter : ∀ a, q.children a = (p'.children a).filter (· ≠ hash) := by
      intro a
      rw [hchildren]
      split_ifs with ha
      · rfl
      · symm
        rw [filter_eq_self]
        intro b hb
        rw [decide_eq_true_eq]
        rintro rfl
        exact ha ((hup.mem a b).mpr ((hdet.down.mem a b).mp hb).1)
    refine ⟨fun a => ?_, fun a b => ?_⟩
    · rw [hfilter]
      exact (hdet.down.nodup a).filter _
    · rw [hfilter, mem_filter, hdet.down.mem, decide_eq_true_eq, mem_append,
        mem_singleton, not_or, and_assoc]
  exact ⟨hframed.trans hupd.framed,
    fun h => (hupd.parents h).trans ((hparents h).trans (hdet.parents h)),
    fun hA => hupd.ancestors (hrelinked.ancestors (hdet.ancestors hA)),
    hdown.of_children hupd.children, hD⟩

theorem updateAncestorsForRemovals_spec (hlink : p.Linked L) (hnodup : stage.Nodup)
    (hin : ∀ r ∈ stage, p.contains r = true) (hD : p.HasDescendantTotals (TransGen L)) :
    Succeeds (stage.foldlM updateAncestorsForRemoval p) (Detaching L stage p) := by
  apply foldlM_nodup (fun done q => Detaching L done p q) hnodup
  · refine ⟨.refl p, fun _ => rfl, fun h => h, ⟨hlink.down.nodup, fun a b => ?_⟩, hD.congr (by simp)⟩
    rw [hlink.down.mem]
    simp
  · intro done r q hr hnew hdet
    exact updateAncestorsForRemoval_spec hlink (hin r hr) hnew hdet

/-! ### The children lose a parent -/

structure Orphaning (L : Uint256 → Uint256 → Prop) (stage done : List Uint256) (p p' : CTxMemPool) :
    Prop where
  relinked : Relinked p p'
  children : ∀ h, p'.children h = p.children h
  nodup : ∀ h, (p'.parents h).Nodup
  mem : ∀ a h, h ∉ stage → (a ∈ p'.parents h ↔ L a h ∧ a ∉ done)

theorem updateChildrenForRemovals_spec (hup : p.LinkedUp L) (hdown : p.LinkedDown fun a b => L a b ∧ b ∉ stage)
    (hright : ∀ a b, L a b → p.contains b = true) :
    Succeeds (stage.foldlM updateChildrenForRemoval p) (Orphaning L stage stage p) := by
  apply foldlM (fun done q => Orphaning L stage done p q)
  · refine ⟨⟨.refl p, fun h => h, fun h => h⟩, fun _ => rfl, hup.nodup, fun a h _ => ?_⟩
    rw [hup.mem]
    simp
  · intro done r rest q _ horph
    have hmem : ∀ b, b ∈ q.children r ↔ L r b ∧ b ∉ stage := by
      intro b
      rw [horph.children, hdown.mem]
    have hnodup : (q.children r).Nodup := by
      rw [horph.children]
      exact hdown.nodup r
    apply (updateParents_spec hnodup fun b hb =>
      horph.relinked.framed.keeps (hright r b ((hmem b).mp hb).1)).mono
    intro q' hq'
    obtain ⟨hrelinked, hchildren, hparents⟩ := hq'
    refine ⟨horph.relinked.trans hrelinked, fun h => (hchildren h).trans (horph.children h),
      fun h => ?_, fun a h hstays => ?_⟩
    · rw [hparents]
      split_ifs
      · exact (horph.nodup h).filter _
      · exact horph.nodup h
    · rw [hparents, mem_append, mem_singleton, not_or, ← and_assoc, ← horph.mem a h hstays]
      split_ifs with hchild
      · simp [link]
      · constructor
        · intro ha
          refine ⟨ha, ?_⟩
          rintro rfl
          exact hchild ((hmem h).mpr ⟨((horph.mem a h hstays).mp ha).1, hstays⟩)
        · exact fun ha => ha.1

/-! ### Exact pools -/

structure Exact (p : CTxMemPool) (L : Uint256 → Uint256 → Prop) : Prop where
  linked : p.Linked L
  ancestors : p.HasAncestorTotals (TransGen L)
  descendants : p.HasDescendantTotals (TransGen L)

/-- `totalTxSize` is the sum of the sizes. -/
def SizeExact (p : CTxMemPool) : Prop := p.totalTxSize = ∑ h ∈ p.hashes, p.own h .size

theorem Framed.sizeExact (h : Framed p p') (hsize : p.SizeExact) : p'.SizeExact := by
  unfold SizeExact
  rw [h.totalTxSize, hsize, h.hashes]
  apply Finset.sum_congr rfl
  intro a _
  rw [h.own]

/-- The state between the updates of a removal and the removal itself. -/
structure Detached (L : Uint256 → Uint256 → Prop) (stage : List Uint256) (updateDescendants : Bool)
    (p p' : CTxMemPool) : Prop where
  framed : Framed p p'
  nodup : ∀ h, (p'.parents h).Nodup
  mem : ∀ a h, h ∉ stage → (a ∈ p'.parents h ↔ L a h ∧ a ∉ stage)
  down : p'.LinkedDown fun a b => L a b ∧ b ∉ stage
  ancestors : p'.HasAncestorTotals fun a h => TransGen L a h ∧ (updateDescendants = true → a ∉ stage)
  descendants : p'.HasDescendantTotals fun h b => TransGen L h b ∧ b ∉ stage

theorem updateForRemoveFromMempool_spec (hexact : p.Exact L) (hnodup : stage.Nodup)
    (hin : ∀ r ∈ stage, p.contains r = true) {updateDescendants : Bool}
    (hfit : updateDescendants = true → p.SigOpsFit (TransGen L)) :
    Succeeds (p.updateForRemoveFromMempool stage updateDescendants)
      (Detached L stage updateDescendants p) := by
  apply bind
    (updateDescendantsForRemovals_spec hexact.linked hnodup hin hexact.ancestors hfit)
  intro q₁ hq₁
  obtain ⟨hupd, hA⟩ := hq₁
  have hlink₁ := hupd.linked hexact.linked
  have hin₁ : ∀ r ∈ stage, q₁.contains r = true := fun r hr => hupd.framed.keeps (hin r hr)
  apply bind
    (updateAncestorsForRemovals_spec hlink₁ hnodup hin₁ (hupd.descendants hexact.descendants))
  intro q₂ hdet
  apply (updateChildrenForRemovals_spec (hlink₁.up.of_parents hdet.parents) hdet.down
    fun a b hab => hdet.framed.keeps (hlink₁.right a b hab)).mono
  intro q₃ horph
  exact ⟨(hupd.framed.trans hdet.framed).trans horph.relinked.framed, horph.nodup, horph.mem,
    hdet.down.of_children horph.children, horph.relinked.ancestors (hdet.ancestors hA),
    horph.relinked.descendants hdet.descendants⟩

/-! ### The entries leave -/

theorem entry_eraseEntry (e : CTxMemPoolEntry) (h : Uint256) :
    (p.eraseEntry cr hash e).entry h = if h = hash then none else p.entry h := by
  split_ifs with hh
  · rw [hh]
    exact AList.lookup_erase ..
  · exact AList.lookup_erase_ne hh

theorem own_of_entry_eq {h : Uint256} (heq : p'.entry h = p.entry h) : p'.own h = p.own h := by
  rw [own, own, heq]

theorem sizeExact_eraseEntry {e : CTxMemPoolEntry} (hent : p.entry hash = some e) (hsize : p.SizeExact) :
    (p.eraseEntry cr hash e).SizeExact := by
  have hhashes : (p.eraseEntry cr hash e).hashes = p.hashes.erase hash := by
    ext h
    rw [Finset.mem_erase, mem_hashes, mem_hashes, contains_iff, contains_iff, entry_eraseEntry]
    split_ifs with hh <;> simp [hh]
  have hsum := Finset.add_sum_erase p.hashes (fun h => p.own h .size)
    (mem_hashes.mpr (contains_iff.mpr ⟨e, hent⟩))
  have hown : p.own hash .size = e.txSize := by
    rw [own_of_entry hent]
    rfl
  have hrest : ∑ h ∈ p.hashes.erase hash, (p.eraseEntry cr hash e).own h .size =
      ∑ h ∈ p.hashes.erase hash, p.own h .size := by
    apply Finset.sum_congr rfl
    intro h hh
    have hent : (p.eraseEntry cr hash e).entry h = p.entry h := by
      rw [entry_eraseEntry, if_neg (Finset.ne_of_mem_erase hh)]
    rw [own_of_entry_eq hent]
  unfold SizeExact at hsize ⊢
  rw [hhashes]
  show p.totalTxSize - e.txSize = _
  omega

theorem removeAll_spec (hnodup : stage.Nodup) (hin : ∀ r ∈ stage, p.contains r = true) :
    Succeeds (stage.foldlM (removeUnchecked cr) p) fun p' =>
      (∀ h, p'.entry h = if h ∈ stage then none else p.entry h) ∧ (p.SizeExact → p'.SizeExact) := by
  apply foldlM_nodup (fun done (q : CTxMemPool) =>
    (∀ h, q.entry h = if h ∈ done then none else p.entry h) ∧ (p.SizeExact → q.SizeExact)) hnodup
  · exact ⟨by simp, fun h => h⟩
  · intro done r q hr hnew hinv
    obtain ⟨hentry, hsize⟩ := hinv
    obtain ⟨e, he⟩ := contains_iff.mp (hin r hr)
    have hq : q.entry r = some e := by rw [hentry, if_neg hnew, he]
    refine ⟨q.eraseEntry cr r e, ?_, fun h => ?_, fun hs => sizeExact_eraseEntry hq (hsize hs)⟩
    · rw [removeUnchecked, hq]
    · rw [entry_eraseEntry, hentry]
      by_cases heq : h = r
      · simp [heq]
      · simp [heq]

theorem Detached.exact {updateDescendants : Bool} {q : CTxMemPool} (hdet : Detached L stage updateDescendants p q)
    (hlink : p.Linked L) (hentry : ∀ h, p'.entry h = if h ∈ stage then none else q.entry h)
    (hthrough : ∀ a r b, a ∉ stage → r ∈ stage → b ∉ stage → TransGen L a r → ¬ TransGen L r b)
    (hbelow : updateDescendants = false → ∀ r ∈ stage, ∀ b, b ∉ stage → ¬ TransGen L r b) :
    p'.Exact (Within (· ∉ stage) L) := by
  have hstays : ∀ {h e}, p'.entry h = some e → h ∉ stage ∧ q.entry h = some e := by
    intro h e he
    rw [hentry] at he
    split_ifs at he with hh
    exact ⟨hh, he⟩
  have hcontains : ∀ h, p'.contains h = true ↔ h ∉ stage ∧ p.contains h = true := by
    intro h
    rw [contains, hentry, ← hdet.framed.contains, contains]
    split_ifs with hh <;> simp [hh]
  have hparents : ∀ h, p'.parents h = if h ∈ stage then [] else q.parents h := by
    intro h
    rw [parents, hentry]
    split_ifs <;> rfl
  have hchildren : ∀ h, p'.children h = if h ∈ stage then [] else q.children h := by
    intro h
    rw [children, hentry]
    split_ifs <;> rfl
  have hsub : p'.hashes ⊆ q.hashes := by
    intro h hh
    exact mem_hashes.mpr (hdet.framed.keeps ((hcontains h).mp (mem_hashes.mp hh)).2)
  have hpath : ∀ {a b}, a ∉ stage → b ∉ stage →
      (TransGen (Within (· ∉ stage) L) a b ↔ TransGen L a b) :=
    fun ha hb => transGen_within_iff
      (fun a r b ha hr hb => hthrough a r b ha (not_not.mp hr) hb) ha hb
  -- a sum over entries that stay is the same in both pools
  have hsum : ∀ P Q : Uint256 → Prop, (∀ a ∈ q.hashes, P a → a ∉ stage) → (∀ a, a ∉ stage → (P a ↔ Q a)) →
      sumWhere q.hashes q.own P = sumWhere p'.hashes p'.own Q := by
    intro P Q hP hPQ
    rw [sumWhere_subset hsub (by
      intro a ha hPa
      rw [mem_hashes, hcontains, ← hdet.framed.contains]
      exact ⟨hP a ha hPa, mem_hashes.mp ha⟩)]
    have hout : ∀ a ∈ p'.hashes, a ∉ stage := fun a ha => ((hcontains a).mp (mem_hashes.mp ha)).1
    apply sumWhere_congr
    · exact fun a ha => hPQ a (hout a ha)
    · intro a ha _
      rw [own_of_entry_eq (by rw [hentry, if_neg (hout a ha)])]
  refine ⟨⟨⟨fun h => ?_, fun a h => ?_⟩, ⟨fun h => ?_, fun a h => ?_⟩, ?_, ?_, hlink.acyclic.within _⟩, ?_, ?_⟩
  · rw [hparents]
    split_ifs
    · exact nodup_nil
    · exact hdet.nodup h
  · rw [hparents, Within]
    split_ifs with hh
    · simp [hh]
    · rw [hdet.mem a h hh]
      simp [hh]
  · rw [hchildren]
    split_ifs
    · exact nodup_nil
    · exact hdet.down.nodup h
  · rw [hchildren, Within]
    split_ifs with hh
    · simp [hh]
    · rw [hdet.down.mem]
      simp [hh]
  · intro a b hab
    exact (hcontains a).mpr ⟨hab.2.1, hlink.left a b hab.1⟩
  · intro a b hab
    exact (hcontains b).mpr ⟨hab.2.2, hlink.right a b hab.1⟩
  · intro h e he
    obtain ⟨hout, hq⟩ := hstays he
    rw [hdet.ancestors h e hq]
    congr 1
    apply hsum
    · intro a _ ha hin
      cases updateDescendants with
      | true => exact ha.2 rfl hin
      | false => exact hbelow rfl a hin h hout ha.1
    · intro a ha
      rw [hpath ha hout]
      simp [ha]
  · intro h e he
    obtain ⟨hout, hq⟩ := hstays he
    rw [hdet.descendants h e hq]
    congr 2
    apply hsum
    · exact fun a _ ha => ha.2
    · intro a ha
      rw [hpath hout ha]
      simp [ha]

theorem removeStaged_spec (hexact : p.Exact L) (hnodup : stage.Nodup)
    (hin : ∀ r ∈ stage, p.contains r = true) {updateDescendants : Bool}
    (hfit : updateDescendants = true → p.SigOpsFit (TransGen L))
    (hthrough : ∀ a r b, a ∉ stage → r ∈ stage → b ∉ stage → TransGen L a r → ¬ TransGen L r b)
    (hbelow : updateDescendants = false → ∀ r ∈ stage, ∀ b, b ∉ stage → ¬ TransGen L r b) :
    Succeeds (p.removeStaged cr stage updateDescendants) fun p' =>
      p'.Exact (Within (· ∉ stage) L) ∧ (p.SizeExact → p'.SizeExact) := by
  apply bind (updateForRemoveFromMempool_spec hexact hnodup hin hfit)
  intro q hdet
  apply (removeAll_spec hnodup fun r hr => hdet.framed.keeps (hin r hr)).mono
  intro p' hp'
  exact ⟨hdet.exact hexact.linked hp'.1 hthrough hbelow, fun hsize => hp'.2 (hdet.framed.sizeExact hsize)⟩

theorem removeStaged_downClosed (hexact : p.Exact L) (hstage : p.DownClosed L stage) :
    Succeeds (p.removeStaged cr stage false) fun p' =>
      p'.Exact (Within (· ∉ stage) L) ∧ (p.SizeExact → p'.SizeExact) := by
  apply removeStaged_spec hexact hstage.nodup hstage.contains (by simp)
  · exact fun a r b _ hr hb _ hpath => hb (hstage.mem_of_transGen hr hpath)
  · exact fun _ r hr b hb hpath => hb (hstage.mem_of_transGen hr hpath)

theorem removeStaged_root (hexact : p.Exact L) (hfit : p.SigOpsFit (TransGen L)) (hhash : p.contains hash = true) (hroot : ∀ a, ¬ L a hash) :
    Succeeds (p.removeStaged cr [hash] true) fun p' =>
      p'.Exact (Within (· ∉ [hash]) L) ∧ (p.SizeExact → p'.SizeExact) := by
  apply removeStaged_spec hexact (nodup_singleton hash) _ fun _ => hfit
  · intro a r b _ hr _ hpath
    obtain ⟨c, -, hstep⟩ := TransGen.tail'_iff.mp hpath
    rw [mem_singleton.mp hr] at hstep
    exact absurd hstep (hroot c)
  · exact fun h => absurd h (by decide)
  · intro r hr
    rw [mem_singleton.mp hr]
    exact hhash

end CTxMemPool

end Defcoin.Mempool
