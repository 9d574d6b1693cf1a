import Defcoin.Mempool.Addition
import Mathlib.Tactic.Abel

/-! # Prioritising a transaction

  `PrioritiseTransaction` moves the modified fee of an entry, and with it the fee totals of its
  ancestors and descendants. The entry itself takes the whole delta that is on record, the others
  only the new part of it, so the totals stay exact if the entry had the delta on record before.
-/

namespace Defcoin.Mempool

open Relation Dag CTxMemPoolEntry

theorem Nonneg.add_feeChange {t : Totals} (h : Nonneg t) (delta : Int) :
    Nonneg (t + feeChange delta) := by
  simpa [Nonneg, feeChange] using h

namespace CTxMemPool

variable {p p' : CTxMemPool} {L : Uint256 → Uint256 → Prop} {hash : Uint256}

open CTxMemPoolEntry in
def reprice (p : CTxMemPool) (hash : Uint256) (nFeeDelta : Int) (h : Uint256) (e : CTxMemPoolEntry) :
    CTxMemPoolEntry :=
  let e := if h = hash then e.updateFeeDelta (p.mapDeltas hash + nFeeDelta) else e
  let e := if h ∈ p.calculateMemPoolAncestors hash then
    { e with withDescendants := e.withDescendants + ofTotals (feeChange nFeeDelta) } else e
  if h ∈ (p.calculateDescendants hash []).filter (· ≠ hash) then
    { e with withAncestors := e.withAncestors + feeChange nFeeDelta } else e

theorem calculateMemPoolAncestors_congr (hparents : ∀ h, p'.parents h = p.parents h) (hsize : p'.size = p.size) :
    p'.calculateMemPoolAncestors hash = p.calculateMemPoolAncestors hash := by
  have heq := funext hparents
  rw [calculateMemPoolAncestors, calculateMemPoolAncestors, heq, hsize]

theorem calculateDescendants_congr (hchildren : ∀ h, p'.children h = p.children h) (hsize : p'.size = p.size)
    (set : List Uint256) : p'.calculateDescendants hash set = p.calculateDescendants hash set := by
  have heq := funext hchildren
  rw [calculateDescendants, calculateDescendants, heq, hsize]

theorem Rewritten.size {G : Uint256 → CTxMemPoolEntry → CTxMemPoolEntry} (h : Rewritten G p p') :
    p'.size = p.size := by
  rw [← card_hashes, ← card_hashes, h.hashes]

variable {e : CTxMemPoolEntry}

theorem prioritiseTransaction_rewrites (hexact : p.Exact L) (hfit : p.SigOpsFit (TransGen L))
    (hent : p.entry hash = some e) (nFeeDelta : Int) :
    Outcome.Succeeds (p.prioritiseTransaction hash nFeeDelta) fun p' =>
      p'.mapDeltas = Function.update p.mapDeltas hash (p.mapDeltas hash + nFeeDelta) ∧
      p'.mapNextTx = p.mapNextTx ∧ p'.mapTxOutputs_MWEB = p.mapTxOutputs_MWEB ∧
      p'.totalTxSize = p.totalTxSize ∧
      ∀ h, p'.entry h = (p.entry h).map (p.reprice hash nFeeDelta h) := by
  have hlink := hexact.linked
  have hhash := contains_iff.mpr ⟨e, hent⟩
  obtain ⟨hnodup, hanc⟩ := calculateMemPoolAncestors_spec hlink.up hlink.left hash
  have hdesc := mem_properDescendants hlink hhash
  have hdescnodup := (calculateDescendants_spec hlink.down hlink.right downClosed_nil hhash).1.nodup
  have hne : ∀ h, TransGen L h hash ∨ TransGen L hash h → h ≠ hash := by
    rintro h hpath rfl
    exact hlink.acyclic h (hpath.elim id id)
  -- the delta goes on record, and to the entry
  let q₀ : CTxMemPool :=
    { p with mapDeltas := Function.update p.mapDeltas hash (p.mapDeltas hash + nFeeDelta) }
  have hq₀ : q₀.contains hash = true := hhash
  obtain ⟨q₁, hq₁, hrew⟩ := modify_rewrites (p := q₀)
    (f := fun x => .ok (x.updateFeeDelta (p.mapDeltas hash + nFeeDelta))) hent rfl
  have hrew₁ : Rewritten (fun h x => if h = hash then x.updateFeeDelta (p.mapDeltas hash + nFeeDelta) else x)
      q₀ q₁ := by
    apply hrew.congr
    intro h x hx
    split_ifs with hh
    · rw [hh] at hx
      rw [Option.some.inj (hent.symm.trans hx)]
    · rfl
  have hanc₁ : q₁.calculateMemPoolAncestors hash = p.calculateMemPoolAncestors hash :=
    calculateMemPoolAncestors_congr (hrew₁.parents fun h x => by split_ifs <;> rfl) hrew₁.size
  -- the ancestors have it as a descendant
  obtain ⟨q₂, hq₂, hrew₂⟩ := modifyAll_rewrites
    (g := fun _ x => { x with
      withDescendants := x.withDescendants + ofTotals (feeChange nFeeDelta) })
    hnodup (by
      intro h hh
      have hpath := (hanc h).mp hh
      obtain ⟨x, hx⟩ := contains_iff.mp (hlink.left_of_transGen hpath)
      refine ⟨x, ?_, updateDescendantState_of_sum
        ((p.sumWhere_nonneg p.hashes fun b => TransGen L h b).add_feeChange nFeeDelta) ?_⟩
      · rw [hrew₁.entry_eq hx, if_neg (hne h (Or.inl hpath))]
      · rw [hexact.descendants h x hx, ← ofTotals_add, add_assoc])
  have hdesc₂ : (q₂.calculateDescendants hash []).filter (· ≠ hash) =
      (p.calculateDescendants hash []).filter (· ≠ hash) := by
    rw [calculateDescendants_congr (hrew₂.children fun h x => by split_ifs <;> rfl) hrew₂.size,
      calculateDescendants_congr (hrew₁.children fun h x => by split_ifs <;> rfl) hrew₁.size]
    rfl
  -- the descendants have it as an ancestor
  obtain ⟨q₃, hq₃, hrew₃⟩ := modifyAll_rewrites
    (g := fun _ x => { x with withAncestors := x.withAncestors + feeChange nFeeDelta })
    (hdescnodup.filter (· ≠ hash)) (by
      intro h hh
      have hpath := (hdesc h).mp hh
      obtain ⟨x, hx⟩ := contains_iff.mp (hlink.right_of_transGen hpath)
      have hnot : h ∉ p.calculateMemPoolAncestors hash := fun hin =>
        hlink.acyclic hash (hpath.trans ((hanc h).mp hin))
      refine ⟨x, ?_, updateAncestorState_of_sum
        ((p.sumWhere_nonneg p.hashes fun a => TransGen L a h).add_feeChange nFeeDelta) ?_ ?_⟩
      · rw [hrew₂.entry_eq (hrew₁.entry_eq hx), if_neg hnot, if_neg (hne h (Or.inr hpath))]
      · have hbound := hfit h (contains_iff.mpr ⟨x, hx⟩)
        rw [own_of_entry hx] at hbound
        simpa [feeChange] using hbound
      · rw [hexact.ancestors h x hx, add_assoc])
  refine ⟨q₃, ?_, ?_⟩
  · unfold prioritiseTransaction
    rw [if_pos hq₀]
    refine Outcome.bind_eq_ok.mpr ⟨q₁, hq₁, Outcome.bind_eq_ok.mpr ⟨q₂, ?_, ?_⟩⟩
    · rw [hanc₁]
      exact hq₂
    · rw [hdesc₂]
      exact hq₃
  · have hall := (hrew₁.trans hrew₂).trans hrew₃
    exact ⟨hall.mapDeltas, hall.mapNextTx, hall.mapTxOutputs_MWEB, hall.totalTxSize, hall.entry⟩

section
variable {h : Uint256} (hdelta : h = hash → e.feeDelta = p.mapDeltas hash) (nFeeDelta : Int)
include hdelta nFeeDelta

theorem own_reprice : (p.reprice hash nFeeDelta h e).own =
      e.own + if h = hash then feeChange nFeeDelta else 0 := by
  have hlast : (p.reprice hash nFeeDelta h e).own =
      (if h = hash then e.updateFeeDelta (p.mapDeltas hash + nFeeDelta) else e).own := by
    unfold reprice
    split_ifs <;> rfl
  rw [hlast]
  split_ifs with hh
  · rw [own_updateFeeDelta, hdelta hh, add_sub_cancel_left]
  · rw [add_zero]

theorem withAncestors_reprice : (p.reprice hash nFeeDelta h e).withAncestors = e.withAncestors +
      (if h = hash then feeChange nFeeDelta else 0) +
      if h ∈ (p.calculateDescendants hash []).filter (· ≠ hash) then feeChange nFeeDelta
      else 0 := by
  have hfirst : (if h = hash then e.updateFeeDelta (p.mapDeltas hash + nFeeDelta) else e).withAncestors =
      e.withAncestors + if h = hash then feeChange nFeeDelta else 0 := by
    split_ifs with hh
    · rw [updateFeeDelta, hdelta hh, add_sub_cancel_left]
    · rw [add_zero]
  rw [← hfirst]
  unfold reprice
  split_ifs <;> simp

theorem withDescendants_reprice :
    (p.reprice hash nFeeDelta h e).withDescendants = e.withDescendants +
      ofTotals ((if h = hash then feeChange nFeeDelta else 0) +
      if h ∈ p.calculateMemPoolAncestors hash then feeChange nFeeDelta else 0) := by
  have hfirst : (if h = hash then e.updateFeeDelta (p.mapDeltas hash + nFeeDelta) else e).withDescendants =
      e.withDescendants +
        ofTotals (if h = hash then feeChange nFeeDelta else 0) := by
    split_ifs with hh
    · rw [updateFeeDelta, hdelta hh, add_sub_cancel_left]
      rfl
    · rw [ofTotals_zero, add_zero]
  rw [ofTotals_add, ← add_assoc, ← hfirst]
  unfold reprice
  split_ifs <;> simp

end

theorem reprice_keeps (hash : Uint256) (nFeeDelta : Int) (h : Uint256) (e : CTxMemPoolEntry) :
    (p.reprice hash nFeeDelta h e).tx = e.tx ∧ (p.reprice hash nFeeDelta h e).txSize = e.txSize ∧
    (p.reprice hash nFeeDelta h e).m_parents = e.m_parents ∧
    (p.reprice hash nFeeDelta h e).m_children = e.m_children ∧
    (p.reprice hash nFeeDelta h e).feeDelta = if h = hash then p.mapDeltas hash + nFeeDelta else e.feeDelta := by
  unfold reprice
  split_ifs <;> exact ⟨rfl, rfl, rfl, rfl, rfl⟩

theorem exact_of_reprice (hexact : p.Exact L) (hhash : p.contains hash = true)
    (hdelta : ∀ e, p.entry hash = some e → e.feeDelta = p.mapDeltas hash) {nFeeDelta : Int}
    (hentry : ∀ h, p'.entry h = (p.entry h).map (p.reprice hash nFeeDelta h)) : p'.Exact L := by
  have hlink := hexact.linked
  have hinv : ∀ {h e'}, p'.entry h = some e' → ∃ e, p.entry h = some e ∧ e' = p.reprice hash nFeeDelta h e ∧
      (h = hash → e.feeDelta = p.mapDeltas hash) := by
    intro h e' he'
    rw [hentry] at he'
    obtain ⟨e, he, rfl⟩ := Option.map_eq_some_iff.mp he'
    exact ⟨e, he, rfl, fun hh => hdelta e (hh ▸ he)⟩
  have hcontains : ∀ h, p'.contains h = p.contains h := by
    intro h
    rw [contains, contains, hentry, Option.isSome_map]
  have hhashes : p'.hashes = p.hashes := by
    ext h
    rw [mem_hashes, mem_hashes, hcontains]
  have hown : ∀ h, p'.own h = p.own h + if h = hash then feeChange nFeeDelta else 0 := by
    intro h
    cases hent : p.entry h with
    | none =>
      have hne : h ≠ hash := by
        rintro rfl
        rw [contains, hent] at hhash
        cases hhash
      rw [own, own, hentry, hent, if_neg hne]
      rfl
    | some e =>
      have hent' : p'.entry h = some (p.reprice hash nFeeDelta h e) := by
        rw [hentry, hent]
        rfl
      rw [own_of_entry hent', own_of_entry hent, own_reprice fun hh => hdelta e (hh ▸ hent)]
  have hparents : ∀ h, p'.parents h = p.parents h := by
    simp [parents, read_rewritten hentry, reprice_keeps]
  have hchildren : ∀ h, p'.children h = p.children h := by
    simp [children, read_rewritten hentry, reprice_keeps]
  refine ⟨⟨hlink.up.of_parents hparents, hlink.down.of_children hchildren, ?_, ?_, hlink.acyclic⟩, ?_, ?_⟩
  · intro a b hab
    rw [hcontains]
    exact hlink.left a b hab
  · intro a b hab
    rw [hcontains]
    exact hlink.right a b hab
  · intro h e' he'
    obtain ⟨e, he, rfl, hfee⟩ := hinv he'
    have hsum := sumWhere_update (P := fun a => TransGen L a h) (mem_hashes.mpr hhash) hown
    rw [withAncestors_reprice hfee, own_reprice hfee, hexact.ancestors h e he, hhashes, hsum]
    classical rw [if_congr (mem_properDescendants hlink hhash h) rfl rfl]
    abel
  · intro h e' he'
    obtain ⟨e, he, rfl, hfee⟩ := hinv he'
    have hsum := sumWhere_update (P := fun b => TransGen L h b) (mem_hashes.mpr hhash) hown
    rw [withDescendants_reprice hfee, own_reprice hfee, hexact.descendants h e he, hhashes, hsum,
      ← ofTotals_add]
    classical rw [if_congr ((calculateMemPoolAncestors_spec hlink.up hlink.left hash).2 h) rfl rfl]
    abel_nf

end CTxMemPool

end Defcoin.Mempool
