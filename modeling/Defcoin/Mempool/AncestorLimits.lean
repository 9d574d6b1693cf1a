import Defcoin.Mempool.Accounting
import Defcoin.Mempool.OutputIndex

/-! # Limits on ancestors

  What the walk has seen never exceeds what there is, and in the end it has seen everything, so that
  it stops exactly if a limit is exceeded by the whole set of ancestors.
-/

namespace Defcoin.Mempool

open Relation Dag List OrderedSet Uint256 Outcome

namespace CTxMemPool

variable {p : CTxMemPool} {limits : AncestorLimits} {txSize : Nat} {stage done : List Uint256} {total : Int}
variable {hash : Uint256} {r set staged : List Uint256}

theorem sum_sizes_le {l : List Uint256} (hnodup : l.Nodup) (hsub : ∀ a ∈ l, a ∈ set) :
    (l.map fun a => p.own a .size).sum ≤ (set.map fun a => p.own a .size).sum := by
  obtain ⟨_, hperm, hsublist⟩ := subperm_of_subset hnodup hsub
  rw [← (hperm.map _).sum_eq]
  apply (hsublist.map _).sum_le_sum
  intro size hsize
  obtain ⟨a, -, rfl⟩ := mem_map.mp hsize
  exact (p.own_nonneg a).2.1

theorem Walking.length_le (h : p.Walking txSize stage done total) (hstage : ∀ a ∈ stage, a ∈ set)
    (hdone : ∀ a ∈ done, a ∈ set) : stage.length + done.length ≤ set.length := by
  have hnodup : (stage ++ done).Nodup := by
    rw [nodup_append]
    refine ⟨h.stage_nodup, h.done_nodup, fun a ha b hb heq => ?_⟩
    exact h.disjoint a ha (heq ▸ hb)
  have hsub : stage ++ done ⊆ set := by
    intro a ha
    rcases mem_append.mp ha with ha | ha
    · exact hstage a ha
    · exact hdone a ha
  have hle := (subperm_of_subset hnodup hsub).length_le
  rwa [length_append] at hle

/-- **Completeness**: a walk inside a closed set that is within the limits does not fail. -/
theorem ancestorLoop_of_fits (hclosed : ∀ a ∈ set, ∀ b ∈ p.parents a, b ∈ set)
    (hfits : p.Fits limits txSize set) (fuel : Nat) (stage done : List Uint256) (total : Int)
    (hwalk : p.Walking txSize stage done total) (hstage : ∀ a ∈ stage, a ∈ set) (hdone : ∀ a ∈ done, a ∈ set) :
    ∃ r, p.ancestorLoop limits txSize fuel stage done total = .ok r := by
  induction fuel generalizing stage done total with
  | zero => exact ⟨done, rfl⟩
  | succ fuel ih =>
    cases stage with
    | nil => exact ⟨done, rfl⟩
    | cons hash stage =>
      have hmem : hash ∈ set := hstage hash mem_cons_self
      have hround := hwalk.round
      have hdone' : ∀ a ∈ insertEntry hash done, a ∈ set := by
        intro a ha
        rcases (mem_insert _).mp ha with rfl | ha
        · exact hmem
        · exact hdone a ha
      have hstage' : ∀ a ∈ insertUnless memcmpKey
          (fun y => decide (y ∈ insertEntry hash done)) (p.parents hash) stage, a ∈ set := by
        intro a ha
        rcases (mem_insertUnless _).mp ha with ha | ⟨ha, -⟩
        · exact hstage a (mem_cons_of_mem _ ha)
        · exact hclosed hash hmem a ha
      -- partial sums are at most the sums over the whole set
      have htotal : total + p.own hash .size ≤ limits.limitAncestorSize := by
        apply le_trans _ (hfits.size (ne_nil_of_mem hmem))
        rw [hround.total_eq]
        exact Int.add_le_add_left (sum_sizes_le hround.done_nodup hdone') _
      have hcheck := checkAncestor_eq_ok_iff.mpr ⟨hfits.room hash hmem, htotal⟩
      have hcount := hround.length_le hstage' hdone'
      have hlimit := hfits.count (ne_nil_of_mem hmem)
      have hgrow : stage.length ≤ (insertUnless memcmpKey
          (fun y => decide (y ∈ insertEntry hash done)) (p.parents hash) stage).length :=
        length_le_insertUnless _
      have hparents : stageParents limits (insertEntry hash done) (p.parents hash) stage = .ok _ :=
        (stageParents_eq_ok_iff (by omega)).mpr ⟨rfl, by omega⟩
      obtain ⟨r, hr⟩ := ih _ _ _ hround hstage' hdone'
      refine ⟨r, ?_⟩
      apply bind_eq_ok.mpr
      refine ⟨(), hcheck, ?_⟩
      exact bind_eq_ok.mpr ⟨_, hparents, hr⟩

/-! ### Ancestors in a consistent pool -/

variable {cr : Mweb.Crypto}

section
variable (cr : Mweb.Crypto) (p : CTxMemPool)

/-- The transaction `a` of the pool makes the output that an input spends. -/
def MakesInput (a : Uint256) : OutputIndex → Prop
  | .outpoint prevout => prevout.hash = a
  | .mweb id => p.Creates cr a id

def InPoolParent (tx : CTransaction) (a : Uint256) : Prop :=
  p.contains a = true ∧ ∃ input ∈ getInputs tx, p.MakesInput cr a input

/-- The same, for transactions of the pool. -/
def Feeds (a b : Uint256) : Prop :=
  ∃ tx, p.txOf b = some tx ∧ p.InPoolParent cr tx a

/-- Links and totals are those of the transactions, and the index leads to the transactions that
    create the outputs. -/
structure Consistent (cr : Mweb.Crypto) (p : CTxMemPool) : Prop where
  exact : p.Exact (p.Feeds cr)
  index : ∀ id a, p.mapTxOutputs_MWEB id = some a ↔ p.Creates cr a id

def InPoolAncestor (tx : CTransaction) (a : Uint256) : Prop :=
  ∃ x, p.InPoolParent cr tx x ∧ ReflTransGen (p.Feeds cr) a x

end

open scoped Classical in
noncomputable def ancestorsOf (cr : Mweb.Crypto) (p : CTxMemPool) (tx : CTransaction) : Finset Uint256 :=
  p.hashes.filter (p.InPoolAncestor cr tx)

open scoped Classical in
noncomputable def descendantsOf (cr : Mweb.Crypto) (p : CTxMemPool) (a : Uint256) : Finset Uint256 :=
  p.hashes.filter (TransGen (p.Feeds cr) a)

/-- The limits hold for the whole set of ancestors, with the entry added to the descendants of
    each. -/
structure WithinLimits (cr : Mweb.Crypto) (p : CTxMemPool) (limits : AncestorLimits) (e : CTxMemPoolEntry) :
    Prop where
  count : (p.ancestorsOf cr e.tx).Nonempty →
    (p.ancestorsOf cr e.tx).card + 1 ≤ limits.limitAncestorCount
  size : (p.ancestorsOf cr e.tx).Nonempty →
    e.txSize + ∑ a ∈ p.ancestorsOf cr e.tx, p.own a .size ≤ limits.limitAncestorSize
  descendantCount : ∀ a ∈ p.ancestorsOf cr e.tx,
    1 + (p.descendantsOf cr a).card + 1 ≤ limits.limitDescendantCount
  descendantSize : ∀ a ∈ p.ancestorsOf cr e.tx,
    p.own a .size + ∑ d ∈ p.descendantsOf cr a, p.own d .size + e.txSize ≤ limits.limitDescendantSize

/-- A pool that accounts for its spends is consistent, if inputs that name a pool transaction are
    outputs of it and nothing is in the index. -/
theorem Accounts.consistent (h : p.Accounts cr) (hindex : ∀ id, p.mapTxOutputs_MWEB id = none)
    (hvalid : ∀ b tb, p.txOf b = some tb → ∀ prevout, .outpoint prevout ∈ getInputs tb →
      ∀ ta, p.txOf prevout.hash = some ta → .outpoint prevout ∈ getOutputs cr ta) : p.Consistent cr := by
  have hcreates : ∀ id a, ¬ p.Creates cr a id := by
    intro id a hcreates
    obtain ⟨tx, htx, hid⟩ := hcreates
    simp [getOutputIDs, h.books.plain a tx htx] at hid
  have hfeeds : p.Feeds cr = p.Spends cr := by
    funext a b
    apply propext
    constructor
    · intro hab
      obtain ⟨tb, htb, hcontains, input, hinput, hmakes⟩ := hab
      obtain ⟨ta, hta⟩ := contains_iff_txOf.mp hcontains
      cases input with
      | outpoint prevout =>
        cases hmakes
        exact ⟨ta, tb, hta, htb, _, hvalid b tb htb prevout hinput ta hta, hinput⟩
      | mweb id => exact absurd hmakes (hcreates id a)
    · intro hab
      obtain ⟨ta, tb, hta, htb, _, hout, hin⟩ := hab
      obtain ⟨_, -, rfl⟩ := (mem_getOutputs_plain (h.books.plain a ta hta)).mp hout
      exact ⟨tb, htb, contains_iff_txOf.mpr ⟨ta, hta⟩, _, hin, h.books.keyed a ta hta⟩
  constructor
  · rw [hfeeds]
    exact h.books.exact
  · intro id a
    rw [hindex]
    simp [hcreates id a]

variable {tx : CTransaction} {a : Uint256}

theorem Consistent.getIter_eq_some (h : p.Consistent cr) {input : OutputIndex} :
    p.getIter input = some a ↔ p.contains a = true ∧ p.MakesInput cr a input := by
  rw [getIter, Option.filter_eq_some_iff, and_comm]
  apply and_congr_right
  intro _
  cases input with
  | outpoint prevout => exact Option.some_inj
  | mweb id => exact h.index id a

theorem Consistent.mem_parentsInPool (h : p.Consistent cr) :
    a ∈ p.parentsInPool tx ↔ p.InPoolParent cr tx a := by
  unfold parentsInPool InPoolParent
  have hmem : a ∈ ((getInputs tx).filterMap p.getIter).foldl (fun set hash => insertEntry hash set) [] ↔
      a ∈ [] ∨ a ∈ (getInputs tx).filterMap p.getIter := mem_insertAll _
  rw [hmem, mem_filterMap]
  simp only [not_mem_nil, false_or, h.getIter_eq_some]
  constructor
  · intro hinput
    obtain ⟨input, hin, hcontains, hmakes⟩ := hinput
    exact ⟨hcontains, input, hin, hmakes⟩
  · intro hinput
    obtain ⟨hcontains, input, hin, hmakes⟩ := hinput
    exact ⟨input, hin, hcontains, hmakes⟩

theorem InPoolAncestor.contains (h : p.Consistent cr) (ha : p.InPoolAncestor cr tx a) :
    p.contains a = true := by
  obtain ⟨_, hx, hpath⟩ := ha
  rcases hpath.cases_head with rfl | ⟨b, hstep, -⟩
  · exact hx.1
  · exact h.exact.linked.left a b hstep

open scoped Classical in
theorem mem_ancestorsOf (h : p.Consistent cr) {tx : CTransaction} {a : Uint256} :
    a ∈ p.ancestorsOf cr tx ↔ p.InPoolAncestor cr tx a := by
  unfold ancestorsOf
  rw [Finset.mem_filter, mem_hashes]
  constructor
  · intro ha
    exact ha.2
  · intro ha
    exact ⟨ha.contains h, ha⟩

theorem Consistent.closure_spec (h : p.Consistent cr) (tx : CTransaction) :
    (p.searchAncestors tx).Nodup ∧
      ∀ a, a ∈ p.searchAncestors tx ↔
        p.InPoolAncestor cr tx a := by
  have hlinked := h.exact.linked
  obtain ⟨hnodup, hmem⟩ := closure_parents_spec hlinked.up hlinked.left
    (fun x hx => (h.mem_parentsInPool.mp hx).1) (nodup_parentsInPool tx)
  refine ⟨hnodup, fun a => ?_⟩
  rw [searchAncestors, hmem]
  simp only [h.mem_parentsInPool]
  rfl

open scoped Classical in
theorem Consistent.withDescendants_eq (h : p.Consistent cr) (ha : p.contains a = true)
    (q : {q : Quantity // q ≠ .sigOps}) :
    p.withDescendants a q = p.own a q.1 + ∑ d ∈ p.descendantsOf cr a, p.own d q.1 := by
  obtain ⟨e, he⟩ := contains_iff.mp ha
  have hwith : p.withDescendants a = e.withDescendants := by
    rw [withDescendants, he]
    rfl
  rw [hwith, h.exact.descendants a e he, own_of_entry he]
  show e.own q.1 + sumWhere p.hashes p.own _ q.1 = _
  unfold sumWhere descendantsOf
  rw [Finset.sum_apply, Finset.sum_filter]
  congr 1
  apply Finset.sum_congr rfl
  intro d _
  split_ifs <;> rfl

theorem own_count (ha : p.contains a = true) : p.own a .count = 1 := by
  obtain ⟨_, he⟩ := contains_iff.mp ha
  rw [own_of_entry he]
  rfl

theorem sum_count_descendantsOf (a : Uint256) :
    ∑ d ∈ p.descendantsOf cr a, p.own d .count = (p.descendantsOf cr a).card := by
  classical
  have hone : ∀ d ∈ p.descendantsOf cr a, p.own d .count = 1 := by
    intro d hd
    exact own_count (mem_hashes.mp (Finset.mem_filter.mp hd).1)
  rw [Finset.sum_congr rfl hone]
  simp

theorem Consistent.hasRoom_iff (h : p.Consistent cr) (ha : p.contains a = true) :
    p.HasRoom limits txSize a ↔
      p.own a .size + ∑ d ∈ p.descendantsOf cr a, p.own d .size + txSize ≤ limits.limitDescendantSize ∧
        1 + (p.descendantsOf cr a).card + 1 ≤ limits.limitDescendantCount := by
  unfold HasRoom
  rw [h.withDescendants_eq ha, h.withDescendants_eq ha, sum_count_descendantsOf, own_count ha]
  apply and_congr_right
  omega

theorem Consistent.fits_iff (h : p.Consistent cr) {e : CTxMemPoolEntry} {set : List Uint256}
    (hnodup : set.Nodup) (hset : ∀ a, a ∈ set ↔ p.InPoolAncestor cr e.tx a) :
    p.Fits limits e.txSize set ↔ p.WithinLimits cr limits e := by
  have heq : p.ancestorsOf cr e.tx = set.toFinset := by
    ext a
    rw [mem_ancestorsOf h, mem_toFinset, hset]
  have hne : (p.ancestorsOf cr e.tx).Nonempty ↔ set ≠ [] := by
    rw [heq, toFinset_nonempty_iff]
  have hcard : (p.ancestorsOf cr e.tx).card = set.length := by
    rw [heq, toFinset_card_of_nodup hnodup]
  have hsum : ∑ a ∈ p.ancestorsOf cr e.tx, p.own a .size = (set.map fun a => p.own a .size).sum := by
    rw [heq, sum_toFinset _ hnodup]
  have hmem : ∀ a, a ∈ p.ancestorsOf cr e.tx ↔ a ∈ set := by
    intro a
    rw [heq, mem_toFinset]
  have hroom : ∀ a ∈ set, (p.HasRoom limits e.txSize a ↔ _) := fun a ha =>
    h.hasRoom_iff (((hset a).mp ha).contains h)
  constructor
  · intro hfits
    constructor
    · rw [hne, hcard]
      exact hfits.count
    · rw [hne, hsum]
      exact hfits.size
    · intro a ha
      have hin := (hmem a).mp ha
      exact ((hroom a hin).mp (hfits.room a hin)).2
    · intro a ha
      have hin := (hmem a).mp ha
      exact ((hroom a hin).mp (hfits.room a hin)).1
  · intro hwithin
    constructor
    · intro a ha
      have hin := (hmem a).mpr ha
      exact (hroom a ha).mpr ⟨hwithin.descendantSize a hin, hwithin.descendantCount a hin⟩
    · rw [← hne, ← hsum]
      exact hwithin.size
    · rw [← hne, ← hcard]
      exact hwithin.count

/-- **Limits**: the walk succeeds exactly if the limits hold for all ancestors, and then it has
    found them. -/
theorem calculateLimitedAncestors_iff {p : CTxMemPool} (h : p.Consistent cr) (limits : AncestorLimits)
    (e : CTxMemPoolEntry) :
    ((p.calculateLimitedAncestors limits e).isOk = true ↔ p.WithinLimits cr limits e) ∧
      ∀ set, p.calculateLimitedAncestors limits e = .ok set →
        set.Nodup ∧ ∀ a, a ∈ set ↔ a ∈ p.ancestorsOf cr e.tx := by
  obtain ⟨hnodup, hmem⟩ := h.closure_spec e.tx
  have hwalk : p.Walking e.txSize (p.parentsInPool e.tx) [] e.txSize := walking_parentsInPool e
  refine ⟨?_, ?_⟩
  · constructor
    · intro hok
      obtain ⟨set, hset⟩ := exists_of_isOk hok
      obtain ⟨rfl, hfits⟩ := calculateLimitedAncestors_eq_ok hset
      exact (h.fits_iff hnodup hmem).mp hfits
    · intro hwithin
      have hfits := (h.fits_iff hnodup hmem).mpr hwithin
      have hparents : ∀ a ∈ p.parentsInPool e.tx, a ∈ p.searchAncestors e.tx := by
        intro a ha
        exact (hmem a).mpr ⟨a, h.mem_parentsInPool.mp ha, .refl⟩
      have hclosed : ∀ a ∈ p.searchAncestors e.tx,
          ∀ b ∈ p.parents a, b ∈ p.searchAncestors e.tx := by
        intro a ha b hb
        obtain ⟨x, hx, hpath⟩ := (hmem a).mp ha
        exact (hmem b).mpr ⟨x, hx, hpath.head ((h.exact.linked.up.mem b a).mp hb)⟩
      have hstaged : p.stageInputs limits (getInputs e.tx) [] = .ok (p.parentsInPool e.tx) := by
        apply (stageInputs_eq_ok_iff (by simp)).mpr
        refine ⟨rfl, fun hne => ?_⟩
        have hle := hwalk.length_le hparents (by simp)
        obtain ⟨a, ha⟩ := exists_mem_of_ne_nil _ hne
        have hcount := hfits.count (ne_nil_of_mem (hparents a ha))
        omega
      obtain ⟨r, hr⟩ := ancestorLoop_of_fits hclosed hfits p.size _ _ _ hwalk hparents (by simp)
      have hresult : p.calculateLimitedAncestors limits e = .ok r :=
        bind_eq_ok.mpr ⟨_, hstaged, hr⟩
      rw [hresult]
      rfl
  · intro set hset
    obtain ⟨rfl, -⟩ := calculateLimitedAncestors_eq_ok hset
    refine ⟨hnodup, fun a => ?_⟩
    rw [hmem, mem_ancestorsOf h]

theorem consistent_parentTx :
    ∃ p, empty.addUnchecked Mweb.numberCrypto (rootAddition parentTx).entry [] = .ok p ∧
      p.Consistent Mweb.numberCrypto := by
  have haddable : Addable Mweb.numberCrypto empty (rootAddition parentTx) := by
    refine ⟨⟨⟨rfl, rfl, fun _ _ => rfl, ⟨nodup_nil, fun a => ?_⟩, by decide⟩, ?_, by decide⟩, fun _ _ => rfl⟩
    · simp only [rootAddition, not_mem_nil, false_iff]
      rintro ⟨x, ⟨tx, htx, -⟩, -⟩
      cases htx
    · intro index _ a ta _ hta
      cases hta
  obtain ⟨p, hp, hacc⟩ := (accounts_empty Mweb.numberCrypto).add haddable
  have hadded := added_of_addUnchecked rfl hp
  refine ⟨p, hp, hacc.consistent (fun id => ?_) ?_⟩
  · rw [hadded.mapTxOutputs_MWEB]
    rfl
  · intro b tb htb prevout hprevout ta hta
    rw [hadded.txOf] at htb hta
    split_ifs at htb
    · cases htb
      have heq : prevout = ⟨7, 0⟩ := by
        simpa [getInputs, rootAddition, Addition.entry, parentTx, CTxMemPoolEntry.new] using hprevout
      subst heq
      cases hta
    · cases htb

/-- A child of `parentTx` with room for both. -/
theorem calculateLimitedAncestors_childTx :
    ∃ p, empty.addUnchecked Mweb.numberCrypto (rootAddition parentTx).entry [] = .ok p ∧
      ((p.calculateLimitedAncestors ⟨2, 200, 2, 200⟩ (rootAddition childTx).entry).isOk = true ↔
        p.WithinLimits Mweb.numberCrypto ⟨2, 200, 2, 200⟩ (rootAddition childTx).entry) := by
  obtain ⟨p, hp, hconsistent⟩ := consistent_parentTx
  exact ⟨p, hp, (calculateLimitedAncestors_iff hconsistent ⟨2, 200, 2, 200⟩ (rootAddition childTx).entry).1⟩

/-- Without ancestors no limit is looked at, not even one that leaves no room for the entry
    itself. -/
theorem calculateLimitedAncestors_no_room : empty.Consistent Mweb.numberCrypto ∧
      empty.calculateLimitedAncestors ⟨0, 0, 0, 0⟩ (rootAddition parentTx).entry = .ok [] ∧
      ¬ (empty.ancestorsOf Mweb.numberCrypto (rootAddition parentTx).entry.tx).card + 1 ≤ 0 := by
  refine ⟨(accounts_empty _).consistent (fun _ => rfl) ?_, rfl, by omega⟩
  intro b tb htb
  cases htb

end CTxMemPool

end Defcoin.Mempool
