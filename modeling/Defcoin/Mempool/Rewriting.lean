import Defcoin.Framework.Dag
import Defcoin.Mempool.Effects
import Mathlib.Algebra.Order.BigOperators.Group.Finset

/-! # Rewriting cached data

  The updates of links and totals change entries one by one and leave the maps alone. `Rewritten`
  says by which function each entry is changed; loops of such updates compose.

  Totals are sums over the transaction and its relatives; such sums pass the assertions of the
  updates.
-/

namespace Defcoin.Mempool

open Dag Option

namespace CTxMemPool

variable {p p' p'' : CTxMemPool}

/-! ### Rewriting -/

/-- Each entry is changed by `G`, and nothing else is different. -/
structure Rewritten (G : Uint256 → CTxMemPoolEntry → CTxMemPoolEntry) (p p' : CTxMemPool) : Prop where
  entry : ∀ h, p'.entry h = (p.entry h).map (G h)
  mapNextTx : p'.mapNextTx = p.mapNextTx
  mapTxOutputs_MWEB : p'.mapTxOutputs_MWEB = p.mapTxOutputs_MWEB
  mapDeltas : p'.mapDeltas = p.mapDeltas
  totalTxSize : p'.totalTxSize = p.totalTxSize

variable {G G' : Uint256 → CTxMemPoolEntry → CTxMemPoolEntry}

theorem Rewritten.refl (p : CTxMemPool) : Rewritten (fun _ e => e) p p :=
  ⟨fun h => by rw [map_id'], rfl, rfl, rfl, rfl⟩

theorem Rewritten.trans (h : Rewritten G p p') (h' : Rewritten G' p' p'') :
    Rewritten (fun hash e => G' hash (G hash e)) p p'' :=
  ⟨fun hash => by rw [h'.entry, h.entry, map_map]; rfl, h'.mapNextTx.trans h.mapNextTx,
    h'.mapTxOutputs_MWEB.trans h.mapTxOutputs_MWEB, h'.mapDeltas.trans h.mapDeltas,
    h'.totalTxSize.trans h.totalTxSize⟩

theorem Rewritten.congr (h : Rewritten G p p') (heq : ∀ hash e, p.entry hash = some e → G hash e = G' hash e) :
    Rewritten G' p p' := by
  refine ⟨fun hash => ?_, h.mapNextTx, h.mapTxOutputs_MWEB, h.mapDeltas, h.totalTxSize⟩
  rw [h.entry]
  cases hent : p.entry hash with
  | none => rfl
  | some e => rw [map_some, map_some, heq hash e hent]

variable {e e' : CTxMemPoolEntry} {f : CTxMemPoolEntry → Except Fault CTxMemPoolEntry} {hash : Uint256}

theorem Rewritten.entry_eq (h : Rewritten G p p') (hent : p.entry hash = some e) :
    p'.entry hash = some (G hash e) := by
  rw [h.entry, hent]
  rfl

theorem Rewritten.entry_inv (h : Rewritten G p p') (hent : p'.entry hash = some e') :
    ∃ e, p.entry hash = some e ∧ e' = G hash e := by
  rw [h.entry] at hent
  obtain ⟨e, he, rfl⟩ := map_eq_some_iff.mp hent
  exact ⟨e, he, rfl⟩

theorem Rewritten.contains (h : Rewritten G p p') (hash : Uint256) : p'.contains hash = p.contains hash := by
  rw [CTxMemPool.contains, CTxMemPool.contains, h.entry, isSome_map]

theorem modify_rewrites (hent : p.entry hash = some e) (hf : f e = .ok e') :
    ∃ p', p.modify f hash = .ok p' ∧ Rewritten (fun h x => if h = hash then e' else x) p p' := by
  refine ⟨{ p with mapTx := p.mapTx.insert hash e' }, ?_, fun h => ?_, rfl, rfl, rfl, rfl⟩
  · rw [modify, hent]
    simp only [hf]
    rfl
  · rw [entry_insert]
    split_ifs with hh
    · rw [hh, hent]
      rfl
    · exact map_id'.symm

/-- **Loops**: if every entry of a set can be changed, the loop changes them all. -/
theorem modifyAll_rewrites {g : Uint256 → CTxMemPoolEntry → CTxMemPoolEntry} {hashes : List Uint256}
    (hnodup : hashes.Nodup) (hok : ∀ h ∈ hashes, ∃ e, p.entry h = some e ∧ f e = .ok (g h e)) :
    ∃ p', p.modifyAll f hashes = .ok p' ∧ Rewritten (fun h e => if h ∈ hashes then g h e else e) p p' := by
  induction hashes generalizing p with
  | nil => exact ⟨p, rfl, (Rewritten.refl p).congr fun _ _ _ => (if_neg List.not_mem_nil).symm⟩
  | cons hash rest ih =>
    obtain ⟨hout, hnodup'⟩ := List.nodup_cons.mp hnodup
    obtain ⟨e, hent, hf⟩ := hok hash List.mem_cons_self
    obtain ⟨q, hq, hfirst⟩ := modify_rewrites hent hf
    -- the others are still what they were
    have hrest : ∀ h ∈ rest, ∃ e, q.entry h = some e ∧ f e = .ok (g h e) := by
      intro h hh
      obtain ⟨x, hx, hfx⟩ := hok h (List.mem_cons_of_mem _ hh)
      refine ⟨x, ?_, hfx⟩
      have hne : h ≠ hash := fun heq => hout (heq ▸ hh)
      rw [hfirst.entry_eq hx, if_neg hne]
    obtain ⟨p', hp', hlater⟩ := ih hnodup' hrest
    refine ⟨p', ?_, (hfirst.trans hlater).congr fun h x hx => ?_⟩
    · show (p.modify f hash >>= fun q => _) = _
      rw [hq]
      exact hp'
    · by_cases hh : h = hash
      · subst hh
        rw [hent] at hx
        cases hx
        simp [hout]
      · simp [hh]

/-! ### The elements of the pool -/

def hashes (p : CTxMemPool) : Finset Uint256 := p.mapTx.keys.toFinset

theorem mem_hashes : hash ∈ p.hashes ↔ p.contains hash = true := by
  rw [hashes, List.mem_toFinset, contains_iff_mem_keys]

theorem card_hashes (p : CTxMemPool) : p.hashes.card = p.size := by
  rw [hashes, List.toFinset_card_of_nodup p.mapTx.keys_nodup, size]

theorem Rewritten.hashes (h : Rewritten G p p') : p'.hashes = p.hashes := by
  ext hash
  rw [mem_hashes, mem_hashes, h.contains]

theorem own_of_entry (h : p.entry hash = some e) : p.own hash = e.own := by
  rw [own, h]
  rfl

theorem read_rewritten {β : Type} (hentry : ∀ h, p'.entry h = (p.entry h).map (G h))
    (f : CTxMemPoolEntry → β) (d : β) (hash : Uint256) :
    ((p'.entry hash).map f).getD d = ((p.entry hash).map fun e => f (G hash e)).getD d := by
  rw [hentry, map_map]
  rfl

theorem ite_keeps {β : Type} (f : CTxMemPoolEntry → β) {c : Prop} [Decidable c] (h : f e' = f e) :
    f (if c then e' else e) = f e := by
  split_ifs
  · exact h
  · rfl

theorem Rewritten.own (h : Rewritten G p p') (hG : ∀ hash e, (G hash e).own = e.own) (hash : Uint256) :
    p'.own hash = p.own hash := by
  simp only [CTxMemPool.own, read_rewritten h.entry, hG]

theorem Rewritten.sumWhere_eq (h : Rewritten G p p') (hG : ∀ hash e, (G hash e).own = e.own)
    (P : Uint256 → Prop) : sumWhere p'.hashes p'.own P = sumWhere p.hashes p.own P := by
  rw [h.hashes]
  exact sumWhere_congr (fun _ _ => Iff.rfl) fun a _ _ => h.own hG a

end CTxMemPool

/-! ### Sums that pass the assertions -/

/-- Totals that a transaction and others make up. -/
def Nonneg (t : Totals) : Prop := 0 ≤ t .count ∧ 0 ≤ t .size ∧ 0 ≤ t .sigOps ∧ 0 ≤ t .mwebWeight

theorem CTxMemPoolEntry.own_nonneg (e : CTxMemPoolEntry) : Nonneg e.own :=
  ⟨Int.one_nonneg, Int.natCast_nonneg _, Int.natCast_nonneg _, Int.natCast_nonneg _⟩

theorem CTxMemPool.own_nonneg (p : CTxMemPool) (hash : Uint256) : Nonneg (p.own hash) := by
  rw [CTxMemPool.own]
  cases p.entry hash with
  | none => exact ⟨le_refl _, le_refl _, le_refl _, le_refl _⟩
  | some e => exact e.own_nonneg

open scoped Classical in
theorem CTxMemPool.sumWhere_nonneg (p : CTxMemPool) (V : Finset Uint256) (P : Uint256 → Prop) :
    Nonneg (sumWhere V p.own P) := by
  have hterm : ∀ (q : Quantity), (∀ h, 0 ≤ p.own h q) → 0 ≤ sumWhere V p.own P q := by
    intro q hq
    unfold sumWhere
    rw [Finset.sum_apply]
    apply Finset.sum_nonneg
    intro h _
    split_ifs
    · exact hq h
    · exact le_refl _
  exact ⟨hterm _ fun h => (p.own_nonneg h).1, hterm _ fun h => (p.own_nonneg h).2.1,
    hterm _ fun h => (p.own_nonneg h).2.2.1, hterm _ fun h => (p.own_nonneg h).2.2.2⟩

namespace CTxMemPoolEntry

variable {e : CTxMemPoolEntry}

/-- The part of totals that is kept for descendants. -/
def ofTotals (t : Totals) : DescendantTotals := fun q => t q.1

@[simp] theorem ofTotals_add (t u : Totals) : ofTotals (t + u) = ofTotals t + ofTotals u := rfl

@[simp] theorem ofTotals_zero : ofTotals 0 = 0 := rfl

theorem updateAncestorState_of_sum {modify t : Totals} (ht : Nonneg t) (hfit : (e.own + t) .sigOps < 2 ^ 31)
    (h : e.withAncestors + modify = e.own + t) :
    e.updateAncestorState modify = .ok { e with withAncestors := e.withAncestors + modify } := by
  obtain ⟨hcount, hsize, hsigops, hweight⟩ := ht
  obtain ⟨-, hsize', hsigops', hweight'⟩ := e.own_nonneg
  have hcount' : e.own .count = 1 := rfl
  have hq : ∀ q, (e.withAncestors + modify) q = e.own q + t q := fun q => congrFun h q
  -- in the range of an `int` the cast changes nothing
  have hcast : ((e.withAncestors + modify) .sigOps).bmod (2 ^ 32) = e.own .sigOps + t .sigOps := by
    rw [Pi.add_apply] at hfit
    rw [hq, Int.bmod_eq_of_le (by omega) (by omega)]
  unfold updateAncestorState
  rw [if_neg (by rw [hq]; omega), if_neg (by rw [hq]; omega), if_neg (by rw [hcast]; omega),
    if_neg (by rw [hq]; omega)]

theorem updateDescendantState_of_sum {modify : DescendantTotals} {t : Totals} (ht : Nonneg t)
    (h : e.withDescendants + modify = ofTotals (e.own + t)) :
    e.updateDescendantState modify = .ok { e with withDescendants := e.withDescendants + modify } := by
  obtain ⟨hcount, hsize, -, hweight⟩ := ht
  obtain ⟨-, hsize', -, hweight'⟩ := e.own_nonneg
  have hcount' : e.own .count = 1 := rfl
  have hq : ∀ q hne, (e.withDescendants + modify) ⟨q, hne⟩ = e.own q + t q :=
    fun q hne => congrFun h ⟨q, hne⟩
  unfold updateDescendantState
  rw [if_neg (by rw [hq]; omega), if_neg (by rw [hq]; omega), if_neg (by rw [hq]; omega)]

end CTxMemPoolEntry

end Defcoin.Mempool
