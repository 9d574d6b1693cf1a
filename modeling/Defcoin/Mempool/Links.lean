import Defcoin.Mempool.Rewriting

/-! # Links and traversals

  The links of the entries are one relation between hashes, seen from both ends. With that,
  `CalculateMemPoolAncestors` and `CalculateDescendants` give the transitive closure.
-/

namespace Defcoin.Mempool

open Relation Dag OrderedSet List

namespace CTxMemPool

variable {p p' : CTxMemPool} {L : Uint256 → Uint256 → Prop}

structure LinkedUp (p : CTxMemPool) (L : Uint256 → Uint256 → Prop) : Prop where
  nodup : ∀ b, (p.parents b).Nodup
  mem : ∀ a b, a ∈ p.parents b ↔ L a b

structure LinkedDown (p : CTxMemPool) (L : Uint256 → Uint256 → Prop) : Prop where
  nodup : ∀ a, (p.children a).Nodup
  mem : ∀ a b, b ∈ p.children a ↔ L a b

/-- The links are the relation, which is one between entries of the pool and has no cycles. -/
structure Linked (p : CTxMemPool) (L : Uint256 → Uint256 → Prop) : Prop where
  up : p.LinkedUp L
  down : p.LinkedDown L
  left : ∀ a b, L a b → p.contains a = true
  right : ∀ a b, L a b → p.contains b = true
  acyclic : Acyclic L

variable {set : List Uint256} {e : CTxMemPoolEntry} {hash : Uint256}

theorem Linked.left_of_transGen (h : p.Linked L) {a b : Uint256} (hab : TransGen L a b) :
    p.contains a = true := by
  obtain ⟨c, hstep, -⟩ := TransGen.head'_iff.mp hab
  exact h.left a c hstep

theorem Linked.right_of_transGen (h : p.Linked L) {a b : Uint256} (hab : TransGen L a b) :
    p.contains b = true := by
  obtain ⟨c, -, hstep⟩ := TransGen.tail'_iff.mp hab
  exact h.right c b hstep

/-! ### Traversals -/

theorem reflTransGen_parents_iff (h : p.LinkedUp L) {a b : Uint256} :
    ReflTransGen (Next p.parents) b a ↔ ReflTransGen L a b := by
  constructor
  · intro hpath
    induction hpath with
    | refl => exact .refl
    | tail _ hstep ih => exact .head ((h.mem _ _).mp hstep) ih
  · intro hpath
    induction hpath using ReflTransGen.head_induction_on with
    | refl => exact .refl
    | head hstep _ ih => exact ih.tail ((h.mem _ _).mpr hstep)

theorem reflTransGen_children_iff (h : p.LinkedDown L) {a b : Uint256} :
    ReflTransGen (Next p.children) a b ↔ ReflTransGen L a b := by
  have heq : Next p.children = L := by
    funext a b
    exact propext (h.mem a b)
  rw [heq]

theorem closure_parents_spec (hup : p.LinkedUp L) (hleft : ∀ a b, L a b → p.contains a = true)
    {stage : List Uint256} (hstage : ∀ x ∈ stage, p.contains x = true) (hnodup : stage.Nodup) :
    (closure Uint256.memcmpKey p.parents p.size stage []).Nodup ∧
      ∀ a, a ∈ closure Uint256.memcmpKey p.parents p.size stage [] ↔
        ∃ x, x ∈ stage ∧ ReflTransGen L a x := by
  have huniv : ∀ x ∈ p.hashes, ∀ y ∈ p.parents x, y ∈ p.hashes := by
    intro x _ y hy
    exact mem_hashes.mpr (hleft y x ((hup.mem y x).mp hy))
  obtain ⟨hclosed, hmem⟩ := closure_spec Uint256.memcmpKey huniv p.size stage []
    (fun x hx => mem_hashes.mpr (hstage x hx)) (by simp) hnodup
    nodup_nil (by simp) (by rw [card_hashes]; simp) (by simp)
  refine ⟨hclosed, fun a => ?_⟩
  rw [hmem]
  simp only [not_mem_nil, false_or, reflTransGen_parents_iff hup]

theorem calculateMemPoolAncestors_spec (hup : p.LinkedUp L)
    (hleft : ∀ a b, L a b → p.contains a = true) (hash : Uint256) :
    (p.calculateMemPoolAncestors hash).Nodup ∧
      ∀ a, a ∈ p.calculateMemPoolAncestors hash ↔ TransGen L a hash := by
  obtain ⟨hnodup, hmem⟩ := closure_parents_spec hup hleft
    (fun x hx => hleft x hash ((hup.mem x hash).mp hx)) (hup.nodup hash)
  refine ⟨hnodup, fun a => ?_⟩
  rw [calculateMemPoolAncestors, hmem, TransGen.tail'_iff]
  simp only [hup.mem, and_comm]

/-- A set of entries that has the descendants of its members. -/
structure DownClosed (p : CTxMemPool) (L : Uint256 → Uint256 → Prop) (set : List Uint256) : Prop where
  nodup : set.Nodup
  contains : ∀ a ∈ set, p.contains a = true
  closed : ∀ a ∈ set, ∀ b, L a b → b ∈ set

theorem DownClosed.mem_of_transGen (h : p.DownClosed L set) {a b : Uint256} (ha : a ∈ set)
    (hab : TransGen L a b) : b ∈ set := by
  induction hab with
  | single hstep => exact h.closed _ ha _ hstep
  | tail _ hstep ih => exact h.closed _ ih _ hstep

theorem downClosed_nil : p.DownClosed L [] := ⟨nodup_nil, by simp, by simp⟩

/-- **Descendants**: `CalculateDescendants` adds an entry and all below it to a set that is closed
    downwards. -/
theorem calculateDescendants_spec (hdown : p.LinkedDown L) (hright : ∀ a b, L a b → p.contains b = true)
    (hset : p.DownClosed L set) (hhash : p.contains hash = true) :
    p.DownClosed L (p.calculateDescendants hash set) ∧
      ∀ d, d ∈ p.calculateDescendants hash set ↔ d ∈ set ∨ ReflTransGen L hash d := by
  have huniv : ∀ x ∈ p.hashes, ∀ y ∈ p.children x, y ∈ p.hashes := by
    intro x _ y hy
    exact mem_hashes.mpr (hright x y ((hdown.mem x y).mp hy))
  -- what is staged is the entry itself, unless the set has it
  have hstage : ∀ x, x ∈ (if hash ∈ set then [] else [hash]) ↔ hash ∉ set ∧ x = hash := by
    split_ifs with hin <;> simp [hin]
  obtain ⟨hnodup, hmem⟩ := closure_spec Uint256.memcmpKey huniv p.size
    (if hash ∈ set then [] else [hash]) set
    (fun x hx => by rw [((hstage x).mp hx).2]; exact mem_hashes.mpr hhash)
    (fun x hx => mem_hashes.mpr (hset.contains x hx))
    (by split_ifs <;> simp) hset.nodup
    (fun x hx => by
      obtain ⟨hout, rfl⟩ := (hstage x).mp hx
      exact hout)
    (by rw [card_hashes]; omega)
    (fun x hx y hy => .inl (hset.closed x hx y ((hdown.mem x y).mp hy)))
  have hdesc : ∀ d, d ∈ p.calculateDescendants hash set ↔ d ∈ set ∨ ReflTransGen L hash d := by
    intro d
    rw [calculateDescendants, hmem]
    constructor
    · rintro ⟨x, hx | hx, hpath⟩
      · left
        exact mem_of_closed
          (fun a ha b hb => hset.closed a ha b ((hdown.mem a b).mp hb)) hx hpath
      · obtain ⟨-, rfl⟩ := (hstage x).mp hx
        exact .inr ((reflTransGen_children_iff hdown).mp hpath)
    · rintro (hd | hpath)
      · exact ⟨d, .inl hd, .refl⟩
      · refine ⟨hash, ?_, (reflTransGen_children_iff hdown).mpr hpath⟩
        by_cases hin : hash ∈ set
        · exact .inl hin
        · exact .inr ((hstage hash).mpr ⟨hin, rfl⟩)
  refine ⟨⟨hnodup, fun a ha => ?_, fun a ha b hab => ?_⟩, hdesc⟩
  · rcases (hdesc a).mp ha with ha | hpath
    · exact hset.contains a ha
    · rcases hpath.cases_tail with rfl | ⟨c, -, hstep⟩
      · exact hhash
      · exact hright c a hstep
  · rw [hdesc]
    rcases (hdesc a).mp ha with ha | hpath
    · exact .inl (hset.closed a ha b hab)
    · exact .inr (hpath.tail hab)

theorem mem_properDescendants (h : p.Linked L) (hhash : p.contains hash = true) (d : Uint256) :
    d ∈ (p.calculateDescendants hash []).filter (· ≠ hash) ↔ TransGen L hash d := by
  rw [mem_filter, (calculateDescendants_spec h.down h.right downClosed_nil hhash).2,
    decide_eq_true_eq]
  constructor
  · rintro ⟨hd | hpath, hne⟩
    · cases hd
    · rcases hpath.cases_head with heq | ⟨c, hstep, hrest⟩
      · exact absurd heq.symm hne
      · exact TransGen.head' hstep hrest
  · intro hpath
    refine ⟨.inr hpath.to_reflTransGen, ?_⟩
    rintro rfl
    exact h.acyclic d hpath

theorem calculateAllDescendants_spec (hdown : p.LinkedDown L)
    (hright : ∀ a b, L a b → p.contains b = true) (roots : List Uint256)
    (hroots : ∀ a ∈ roots, p.contains a = true) : p.DownClosed L (p.calculateAllDescendants roots) ∧
      ∀ d, d ∈ p.calculateAllDescendants roots ↔ ∃ a ∈ roots, ReflTransGen L a d := by
  have hloop : ∀ (roots : List Uint256) set, (∀ a ∈ roots, p.contains a = true) →
      p.DownClosed L set →
      p.DownClosed L (roots.foldl (fun set hash => p.calculateDescendants hash set) set) ∧
        ∀ d, d ∈ roots.foldl (fun set hash => p.calculateDescendants hash set) set ↔
          d ∈ set ∨ ∃ a ∈ roots, ReflTransGen L a d := by
    intro roots
    induction roots with
    | nil =>
      intro set _ hset
      exact ⟨hset, by simp⟩
    | cons a roots ih =>
      intro set hroots hset
      obtain ⟨hclosed, hmem⟩ := calculateDescendants_spec hdown hright hset
        (hroots a mem_cons_self)
      obtain ⟨hclosed', hmem'⟩ := ih (p.calculateDescendants a set)
        (fun b hb => hroots b (mem_cons_of_mem _ hb)) hclosed
      refine ⟨hclosed', fun d => ?_⟩
      rw [foldl_cons, hmem', hmem, exists_mem_cons_iff, or_assoc]
  obtain ⟨hclosed, hmem⟩ := hloop roots [] hroots downClosed_nil
  refine ⟨hclosed, fun d => ?_⟩
  rw [calculateAllDescendants, hmem]
  simp

end CTxMemPool

end Defcoin.Mempool
