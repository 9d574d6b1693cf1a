import Defcoin.Mempool.Links

/-! # Totals over a relation

  The totals of the entries are exact for a relation when they are the sums over it. In the middle
  of an operation the relation for ancestors and the one for descendants are not the same, and
  neither is the one the links give, so each is a parameter.
-/

namespace Defcoin.Mempool

open Relation Dag CTxMemPoolEntry Option

namespace CTxMemPool

variable {p p' : CTxMemPool} {A D L : Uint256 → Uint256 → Prop}
  {G : Uint256 → CTxMemPoolEntry → CTxMemPoolEntry}

def HasAncestorTotals (p : CTxMemPool) (A : Uint256 → Uint256 → Prop) : Prop :=
  ∀ h e, p.entry h = some e → e.withAncestors = e.own + sumWhere p.hashes p.own fun a => A a h

def HasDescendantTotals (p : CTxMemPool) (D : Uint256 → Uint256 → Prop) : Prop :=
  ∀ h e, p.entry h = some e →
    e.withDescendants = ofTotals (e.own + sumWhere p.hashes p.own fun b => D h b)

/-! ### What a frame keeps -/

theorem Framed.hashes (h : Framed p p') : p'.hashes = p.hashes := by
  ext hash
  rw [mem_hashes, mem_hashes, h.contains]

theorem own_of_static_eq {hash : Uint256} (hstatic : p'.static hash = p.static hash) :
    p'.own hash = p.own hash := by
  unfold CTxMemPool.static at hstatic
  unfold CTxMemPool.own
  cases hent : p.entry hash with
  | none =>
    rw [hent, map_none, map_eq_none_iff] at hstatic
    rw [hstatic]
  | some e =>
    rw [hent, map_some, map_eq_some_iff] at hstatic
    obtain ⟨_, he', heq⟩ := hstatic
    rw [he', map_some, map_some, static_own heq]

theorem Framed.own (h : Framed p p') (hash : Uint256) : p'.own hash = p.own hash :=
  own_of_static_eq (h.static hash)

variable {add : Bool} {modify : Totals} {A' D' : Uint256 → Uint256 → Prop}

theorem HasAncestorTotals.congr (h : p.HasAncestorTotals A)
    (hA : ∀ a b, p.contains a = true → p.contains b = true → (A a b ↔ A' a b)) :
    p.HasAncestorTotals A' := by
  intro hash e he
  rw [h hash e he]
  congr 1
  apply sumWhere_congr _ fun _ _ _ => rfl
  intro a ha
  exact hA a hash (mem_hashes.mp ha) (contains_iff.mpr ⟨e, he⟩)

theorem HasDescendantTotals.congr (h : p.HasDescendantTotals D)
    (hD : ∀ a b, p.contains a = true → p.contains b = true → (D a b ↔ D' a b)) :
    p.HasDescendantTotals D' := by
  intro hash e he
  rw [h hash e he]
  congr 2
  apply sumWhere_congr _ fun _ _ _ => rfl
  intro b hb
  exact hD hash b (contains_iff.mpr ⟨e, he⟩) (mem_hashes.mp hb)

theorem Rewritten.hasAncestorTotals (h : Rewritten G p p') (hown : ∀ hash e, (G hash e).own = e.own)
    (hG : ∀ hash e, (G hash e).withAncestors = e.withAncestors) (hA : p.HasAncestorTotals A) :
    p'.HasAncestorTotals A := by
  intro hash e' he'
  obtain ⟨e, he, rfl⟩ := h.entry_inv he'
  rw [hG, hown, hA hash e he, h.sumWhere_eq hown]

theorem Rewritten.hasDescendantTotals (h : Rewritten G p p') (hown : ∀ hash e, (G hash e).own = e.own)
    (hG : ∀ hash e, (G hash e).withDescendants = e.withDescendants) (hD : p.HasDescendantTotals D) :
    p'.HasDescendantTotals D := by
  intro hash e' he'
  obtain ⟨e, he, rfl⟩ := h.entry_inv he'
  rw [hG, hown, hD hash e he, h.sumWhere_eq hown]

theorem Rewritten.parents (h : Rewritten G p p') (hG : ∀ hash e, (G hash e).m_parents = e.m_parents)
    (hash : Uint256) : p'.parents hash = p.parents hash := by
  simp only [CTxMemPool.parents, read_rewritten h.entry, hG]

theorem Rewritten.children (h : Rewritten G p p') (hG : ∀ hash e, (G hash e).m_children = e.m_children)
    (hash : Uint256) : p'.children hash = p.children hash := by
  simp only [CTxMemPool.children, read_rewritten h.entry, hG]

theorem LinkedUp.of_parents (h : p.LinkedUp L) (heq : ∀ hash, p'.parents hash = p.parents hash) :
    p'.LinkedUp L :=
  ⟨fun b => by rw [heq]; exact h.nodup b, fun a b => by rw [heq]; exact h.mem a b⟩

theorem LinkedDown.of_children (h : p.LinkedDown L) (heq : ∀ hash, p'.children hash = p.children hash) :
    p'.LinkedDown L :=
  ⟨fun b => by rw [heq]; exact h.nodup b, fun a b => by rw [heq]; exact h.mem a b⟩

/-! ### Signature operations that fit -/

/-- The signature operations of an entry and its ancestors fit into an `int`. -/
def SigOpsFit (p : CTxMemPool) (A : Uint256 → Uint256 → Prop) : Prop :=
  ∀ h, p.contains h = true → (p.own h + sumWhere p.hashes p.own fun a => A a h) .sigOps < 2 ^ 31

open scoped Classical in
theorem SigOpsFit.of_sub (hfit : p.SigOpsFit A) (hin : ∀ h, p'.contains h = true → p.contains h = true)
    (hown : ∀ h, p'.contains h = true → p'.own h .sigOps = p.own h .sigOps)
    (hA : ∀ a h, p'.contains a = true → p'.contains h = true → A' a h → A a h) : p'.SigOpsFit A' := by
  intro h hh
  have hterm : ∀ a, 0 ≤ (if A a h then p.own a else 0) .sigOps := by
    intro a
    split_ifs
    · exact (p.own_nonneg a).2.2.1
    · exact le_refl _
  have hsum : (sumWhere p'.hashes p'.own fun a => A' a h) .sigOps ≤ (sumWhere p.hashes p.own fun a => A a h) .sigOps := by
    unfold sumWhere
    rw [Finset.sum_apply, Finset.sum_apply]
    calc ∑ a ∈ p'.hashes, (if A' a h then p'.own a else 0) .sigOps
        ≤ ∑ a ∈ p'.hashes, (if A a h then p.own a else 0) .sigOps := by
          apply Finset.sum_le_sum
          intro a ha
          by_cases hpath : A' a h
          · have ha := mem_hashes.mp ha
            rw [if_pos hpath, if_pos (hA a h ha hh hpath), hown a ha]
          · rw [if_neg hpath]
            exact hterm a
      _ ≤ ∑ a ∈ p.hashes, (if A a h then p.own a else 0) .sigOps :=
          Finset.sum_le_sum_of_subset_of_nonneg
            (fun a ha => mem_hashes.mpr (hin a (mem_hashes.mp ha))) fun a _ _ => hterm a
  have hbound := hfit h (hin h hh)
  rw [Pi.add_apply] at hbound ⊢
  rw [hown h hh]
  omega

theorem Framed.sigOpsFit (h : Framed p p') (hfit : p.SigOpsFit A)
    (hA : ∀ a h, A' a h → A a h) : p'.SigOpsFit A' :=
  hfit.of_sub (fun a ha => by rw [← h.contains]; exact ha) (fun a _ => by rw [h.own]) fun a b _ _ => hA a b

/-! ### Updates of totals -/

structure AncestorsUpdated (p p' : CTxMemPool) : Prop where
  framed : Framed p p'
  parents : ∀ hash, p'.parents hash = p.parents hash
  children : ∀ hash, p'.children hash = p.children hash
  descendants : ∀ {D}, p.HasDescendantTotals D → p'.HasDescendantTotals D

structure DescendantsUpdated (p p' : CTxMemPool) : Prop where
  framed : Framed p p'
  parents : ∀ hash, p'.parents hash = p.parents hash
  children : ∀ hash, p'.children hash = p.children hash
  ancestors : ∀ {A}, p.HasAncestorTotals A → p'.HasAncestorTotals A

section
variable {hashes : List Uint256} (hnodup : hashes.Nodup) (hin : ∀ h ∈ hashes, p.contains h = true)
include hnodup hin

theorem modifyAll_keeps {f : CTxMemPoolEntry → Except Fault CTxMemPoolEntry}
    {g : CTxMemPoolEntry → CTxMemPoolEntry} (hown : ∀ e, (g e).own = e.own)
    (hok : ∀ h e, h ∈ hashes → p.entry h = some e → f e = .ok (g e)) :
    ∃ p', p.modifyAll f hashes = .ok p' ∧ Rewritten (fun h e => if h ∈ hashes then g e else e) p p' ∧
      ∀ (h : Uint256) e, (if h ∈ hashes then g e else e).own = e.own := by
  obtain ⟨p', hp', hrew⟩ := modifyAll_rewrites hnodup (by
    intro h hh
    obtain ⟨e, he⟩ := contains_iff.mp (hin h hh)
    exact ⟨e, he, hok h e hh he⟩)
  exact ⟨p', hp', hrew, fun _ e => ite_keeps _ (hown e)⟩

/-- **Totals over ancestors**: the entries of a set take in a change, and the sums over another
    relation are what comes out. -/
theorem updateAncestorStates_spec (hA : p.HasAncestorTotals A) (hfit : p.SigOpsFit A')
    (hmem : ∀ h ∈ hashes, sumWhere p.hashes p.own (fun a => A' a h) = sumWhere p.hashes p.own (fun a => A a h) + modify)
    (hout : ∀ h, p.contains h = true → h ∉ hashes → sumWhere p.hashes p.own (fun a => A' a h) = sumWhere p.hashes p.own (fun a => A a h)) :
    ∃ p', p.modifyAll (·.updateAncestorState modify) hashes = .ok p' ∧ AncestorsUpdated p p' ∧
      p'.HasAncestorTotals A' := by
  obtain ⟨p', hp', hrew, hown⟩ := modifyAll_keeps
    (g := fun e => { e with withAncestors := e.withAncestors + modify }) hnodup hin (fun _ => rfl) (by
      intro h e hh he
      apply updateAncestorState_of_sum (p.sumWhere_nonneg p.hashes fun a => A' a h)
      · rw [← own_of_entry he]
        exact hfit h (contains_iff.mpr ⟨e, he⟩)
      · rw [hA h e he, hmem h hh, add_assoc])
  refine ⟨p', hp', ⟨Framed.updateAncestorStates hp', hrew.parents fun _ _ => ite_keeps _ rfl,
    hrew.children fun _ _ => ite_keeps _ rfl,
    hrew.hasDescendantTotals hown fun _ _ => ite_keeps _ rfl⟩, ?_⟩
  intro h e' he'
  obtain ⟨e, he, rfl⟩ := hrew.entry_inv he'
  rw [hrew.sumWhere_eq hown, hown]
  split_ifs with hh
  · rw [hmem h hh, hA h e he, add_assoc]
  · rw [hout h (contains_iff.mpr ⟨e, he⟩) hh, hA h e he]

theorem updateDescendantStates_spec (hD : p.HasDescendantTotals D)
    (hmem : ∀ h ∈ hashes, sumWhere p.hashes p.own (fun b => D' h b) = sumWhere p.hashes p.own (fun b => D h b) + modify)
    (hout : ∀ h, p.contains h = true → h ∉ hashes → sumWhere p.hashes p.own (fun b => D' h b) = sumWhere p.hashes p.own (fun b => D h b)) :
    ∃ p', p.modifyAll (·.updateDescendantState (ofTotals modify)) hashes = .ok p' ∧
      DescendantsUpdated p p' ∧ p'.HasDescendantTotals D' := by
  obtain ⟨p', hp', hrew, hown⟩ := modifyAll_keeps
    (g := fun e => { e with withDescendants := e.withDescendants + ofTotals modify })
    hnodup hin (fun _ => rfl) (by
      intro h e hh he
      apply updateDescendantState_of_sum (p.sumWhere_nonneg p.hashes fun b => D' h b)
      rw [hD h e he, hmem h hh, ← ofTotals_add, add_assoc])
  refine ⟨p', hp', ⟨Framed.updateDescendantStates hp', hrew.parents fun _ _ => ite_keeps _ rfl,
    hrew.children fun _ _ => ite_keeps _ rfl,
    hrew.hasAncestorTotals hown fun _ _ => ite_keeps _ rfl⟩, ?_⟩
  intro h e' he'
  obtain ⟨e, he, rfl⟩ := hrew.entry_inv he'
  rw [hrew.sumWhere_eq hown, hown]
  split_ifs with hh
  · rw [hmem h hh, hD h e he, ← ofTotals_add, add_assoc]
  · rw [hout h (contains_iff.mpr ⟨e, he⟩) hh, hD h e he]

/-! ### Updates of links -/

structure Relinked (p p' : CTxMemPool) : Prop where
  framed : Framed p p'
  ancestors : ∀ {A}, p.HasAncestorTotals A → p'.HasAncestorTotals A
  descendants : ∀ {D}, p.HasDescendantTotals D → p'.HasDescendantTotals D

theorem updateChildren_spec {child : Uint256} :
    Outcome.Succeeds (hashes.foldlM (updateChild add child) p) fun p' => Relinked p p' ∧
      (∀ h, p'.parents h = p.parents h) ∧
      ∀ h, p'.children h = if h ∈ hashes then link add child (p.children h) else p.children h := by
  obtain ⟨p', hp', hrew, hown⟩ := modifyAll_keeps
    (g := fun e => { e with m_children := link add child e.m_children }) hnodup hin (fun _ => rfl)
    fun _ _ _ _ => rfl
  refine ⟨p', hp', ⟨Framed.foldlM (fun _ _ _ h => Framed.updateChild h) hp',
    hrew.hasAncestorTotals hown fun _ _ => ite_keeps _ rfl,
    hrew.hasDescendantTotals hown fun _ _ => ite_keeps _ rfl⟩,
    hrew.parents fun _ _ => ite_keeps _ rfl, ?_⟩
  intro h
  rw [children, children, read_rewritten hrew.entry]
  by_cases hh : h ∈ hashes
  · obtain ⟨e, he⟩ := contains_iff.mp (hin h hh)
    simp [he, hh]
  · simp [hh]

theorem updateParents_spec {parent : Uint256} :
    Outcome.Succeeds (hashes.foldlM (updateParent add parent) p) fun p' => Relinked p p' ∧
      (∀ h, p'.children h = p.children h) ∧
      ∀ h, p'.parents h = if h ∈ hashes then link add parent (p.parents h) else p.parents h := by
  obtain ⟨p', hp', hrew, hown⟩ := modifyAll_keeps
    (g := fun e => { e with m_parents := link add parent e.m_parents }) hnodup hin (fun _ => rfl)
    fun _ _ _ _ => rfl
  refine ⟨p', hp', ⟨Framed.foldlM (fun _ _ _ h => Framed.updateParent h) hp',
    hrew.hasAncestorTotals hown fun _ _ => ite_keeps _ rfl,
    hrew.hasDescendantTotals hown fun _ _ => ite_keeps _ rfl⟩,
    hrew.children fun _ _ => ite_keeps _ rfl, ?_⟩
  intro h
  rw [parents, parents, read_rewritten hrew.entry]
  by_cases hh : h ∈ hashes
  · obtain ⟨e, he⟩ := contains_iff.mp (hin h hh)
    simp [he, hh]
  · simp [hh]

end

end CTxMemPool

end Defcoin.Mempool
