import Defcoin.Framework.FiniteMap
import Defcoin.Mweb.CoinsView

/-! # What a view of the extension block's coins shows

  `CoinsState` is the meaning of a stack of layers: the unspent coins, the leaf set, the leaves of
  the output MMR and the best header.

  * `CoinsView.Shows`: the read operations of a view answer from a state.
  * `CoinsViewCache.Over`: the members of a cache turn one state into another.
  * `CoinsView.Rep`: both, for every layer, with each state committed to by its header.
-/

namespace Defcoin.Mweb

open ByteCodec PostOrder Function

/-! ### States -/

structure CoinsState where
  header : Option Header
  utxos : Hash → Option UTXO
  unspent : Nat → Bool
  leaves : List Bytes

namespace CoinsState
section
variable (cr : Crypto)

def outputRoot (s : CoinsState) : Except Error Hash :=
  mmrRoot cr (leafPos s.leaves.length) fun p => (mmrNodes cr s.leaves).getD p BigInt.zero

def leafsetRoot (s : CoinsState) : Hash :=
  leafSetRoot cr s.leaves.length (PackedBits.pack s.unspent)

/-- The header commits to the leaves and the leaf set of the state. -/
structure Commits (h : Header) (s : CoinsState) : Prop where
  outputRoot : s.outputRoot cr = .ok h.outputRoot
  size : h.outputMMRSize.toNat = s.leaves.length
  leafsetRoot : h.leafsetRoot = s.leafsetRoot cr

/-- Coins are filed under their own id and point to leaves that are there. -/
structure Coherent (s : CoinsState) : Prop where
  unspent_lt : ∀ i, s.unspent i = true → i < s.leaves.length
  utxo_id : ∀ id u, s.utxos id = some u → u.getOutputID cr = id
  utxo_leaf : ∀ id u, s.utxos id = some u → u.leafIndex < s.leaves.length
  utxo_message : ∀ id u, s.utxos id = some u → u.output.message.Wf

/-- A state between two blocks. -/
structure Wf (s : CoinsState) : Prop extends Coherent cr s where
  committed : ∀ h, s.header = some h → Commits cr h s
  genesis : s.header = none → s.leaves = [] ∧ ∀ id, s.utxos id = none

def added (s : CoinsState) (height : BitVec 32) (o : Output) : CoinsState :=
  { s with
    utxos := update s.utxos (o.getOutputID cr)
      (some { blockHeight := height, leafIndex := s.leaves.length, output := o })
    unspent := fun i => s.unspent i || decide (i = s.leaves.length)
    leaves := s.leaves ++ [(o.getOutputID cr).bytes] }

end

/-- The state without the coin `u`, filed under `id`. -/
def spent (s : CoinsState) (id : Hash) (u : UTXO) : CoinsState :=
  { s with
    utxos := update s.utxos id none
    unspent := fun i => s.unspent i && decide (i ≠ u.leafIndex) }

variable {cr : Crypto} {s : CoinsState}

@[simp] theorem utxos_added_self (height : BitVec 32) (o : Output) :
    (s.added cr height o).utxos (o.getOutputID cr) = some ⟨height, s.leaves.length, o⟩ :=
  update_self ..

theorem utxos_added_ne (height : BitVec 32) {o : Output} {id : Hash} (h : id ≠ o.getOutputID cr) :
    (s.added cr height o).utxos id = s.utxos id :=
  update_of_ne h ..

@[simp] theorem utxos_spent_self (id : Hash) (u : UTXO) : (s.spent id u).utxos id = none :=
  update_self ..

theorem utxos_spent_ne {id id' : Hash} (h : id' ≠ id) (u : UTXO) :
    (s.spent id u).utxos id' = s.utxos id' :=
  update_of_ne h ..

theorem utxos_added_cases {height : BitVec 32} {o : Output} {id : Hash} {u : UTXO}
    (hu : (s.added cr height o).utxos id = some u) :
    (id = o.getOutputID cr ∧ u = ⟨height, s.leaves.length, o⟩) ∨ s.utxos id = some u := by
  by_cases hid : id = o.getOutputID cr
  · subst hid
    rw [utxos_added_self] at hu
    exact Or.inl ⟨rfl, (Option.some.inj hu).symm⟩
  · rw [utxos_added_ne height hid] at hu
    exact Or.inr hu

theorem utxos_spent_cases {id id' : Hash} {u u' : UTXO} (hu' : (s.spent id u).utxos id' = some u') :
    id' ≠ id ∧ s.utxos id' = some u' := by
  by_cases hid : id' = id
  · rw [hid, utxos_spent_self] at hu'
    cases hu'
  · rw [utxos_spent_ne hid] at hu'
    exact ⟨hid, hu'⟩

theorem Coherent.added (h : s.Coherent cr) (height : BitVec 32) {o : Output} (ho : o.message.Wf) :
    (s.added cr height o).Coherent cr := by
  have hlen : (s.added cr height o).leaves.length = s.leaves.length + 1 := by simp [CoinsState.added]
  refine ⟨fun i hi => ?_, fun id u hu => ?_, fun id u hu => ?_, fun id u hu => ?_⟩
  · rcases Bool.or_eq_true_iff.mp hi with hi | hi
    · have := h.unspent_lt i hi
      omega
    · have : i = s.leaves.length := by simpa using hi
      omega
  · rcases utxos_added_cases hu with ⟨rfl, rfl⟩ | hu
    · rfl
    · exact h.utxo_id id u hu
  · rw [hlen]
    rcases utxos_added_cases hu with ⟨_, rfl⟩ | hu
    · exact Nat.lt_succ_self _
    · have := h.utxo_leaf id u hu
      omega
  · rcases utxos_added_cases hu with ⟨_, rfl⟩ | hu
    · exact ho
    · exact h.utxo_message id u hu

theorem Coherent.spent (h : s.Coherent cr) (id : Hash) (u : UTXO) : (s.spent id u).Coherent cr where
  unspent_lt i hi := h.unspent_lt i (Bool.and_eq_true_iff.mp hi).1
  utxo_id id' u' hu' := h.utxo_id id' u' (utxos_spent_cases hu').2
  utxo_leaf id' u' hu' := h.utxo_leaf id' u' (utxos_spent_cases hu').2
  utxo_message id' u' hu' := h.utxo_message id' u' (utxos_spent_cases hu').2

/-- Every coin has a leaf of its own, which is unspent. -/
structure Live (s : CoinsState) : Prop where
  unspent : ∀ id u, s.utxos id = some u → s.unspent u.leafIndex = true
  leaf_inj : ∀ id id' u u', s.utxos id = some u → s.utxos id' = some u' →
    u.leafIndex = u'.leafIndex → id = id'

theorem Live.added (h : s.Live) (hs : s.Coherent cr) (height : BitVec 32) (o : Output) :
    (s.added cr height o).Live := by
  constructor
  · intro id u hu
    show (s.unspent u.leafIndex || decide (u.leafIndex = s.leaves.length)) = true
    rcases utxos_added_cases hu with ⟨_, rfl⟩ | hold
    · rw [decide_eq_true rfl, Bool.or_true]
    · rw [h.unspent id u hold, Bool.true_or]
  · intro id id' u u' hu hu' hleaf
    rcases utxos_added_cases hu with ⟨rfl, rfl⟩ | hold
    · rcases utxos_added_cases hu' with ⟨rfl, rfl⟩ | hold'
      · rfl
      · exact absurd hleaf.symm (Nat.ne_of_lt (hs.utxo_leaf id' u' hold'))
    · rcases utxos_added_cases hu' with ⟨rfl, rfl⟩ | hold'
      · exact absurd hleaf (Nat.ne_of_lt (hs.utxo_leaf id u hold))
      · exact h.leaf_inj id id' u u' hold hold' hleaf

theorem Live.spent (h : s.Live) {id : Hash} {u : UTXO} (hu : s.utxos id = some u) :
    (s.spent id u).Live := by
  constructor
  · intro id' u' hu'
    obtain ⟨hne, hu''⟩ := utxos_spent_cases hu'
    have hleaf : u'.leafIndex ≠ u.leafIndex := fun heq => hne (h.leaf_inj id' id u' u hu'' hu heq)
    show (s.unspent u'.leafIndex && decide (u'.leafIndex ≠ u.leafIndex)) = true
    rw [h.unspent id' u' hu'', decide_eq_true hleaf]
    rfl
  · intro id₁ id₂ u₁ u₂ h₁ h₂ hleaf
    exact h.leaf_inj id₁ id₂ u₁ u₂ (utxos_spent_cases h₁).2 (utxos_spent_cases h₂).2 hleaf

end CoinsState

/-! ### The action log -/

namespace CoinsViewUpdates

theorem getActions_addAction_self (u : CoinsViewUpdates) (id : Hash) (a : Option UTXO) :
    (u.addAction id a).getActions id = u.getActions id ++ [a] := by
  simp [addAction, getActions]

theorem getActions_addAction_ne (u : CoinsViewUpdates) {id id' : Hash} (h : id' ≠ id)
    (a : Option UTXO) : (u.addAction id a).getActions id' = u.getActions id' := by
  simp [addAction, getActions, AList.lookup_insert_ne h]

@[simp] theorem getActions_empty (id : Hash) : getActions ∅ id = [] := by
  simp [getActions]

/-- The actions for each id name coins with that id. -/
def Filed (cr : Crypto) (u : CoinsViewUpdates) : Prop :=
  ∀ id utxo, some utxo ∈ u.getActions id → utxo.getOutputID cr = id

theorem Filed.addAction {cr : Crypto} {u : CoinsViewUpdates} (h : u.Filed cr) {id : Hash}
    {a : Option UTXO} (ha : ∀ utxo, a = some utxo → utxo.getOutputID cr = id) :
    (u.addAction id a).Filed cr := by
  intro id' utxo hmem
  by_cases hid : id' = id
  · subst hid
    rw [getActions_addAction_self] at hmem
    rcases List.mem_append.mp hmem with hmem | hmem
    · exact h _ _ hmem
    · exact ha utxo (List.mem_singleton.mp hmem).symm
  · rw [getActions_addAction_ne u hid] at hmem
    exact h _ _ hmem

end CoinsViewUpdates

theorem replay_append (v : Option UTXO) (as bs : List (Option UTXO)) :
    replay v (as ++ bs) = replay v as >>= fun w => replay w bs := by
  induction as generalizing v with
  | nil => rfl
  | cons a as ih =>
    cases v <;> cases a <;> first | exact ih _ | rfl

theorem replay_addAction {u : CoinsViewUpdates} {m₀ m : Hash → Option UTXO}
    (h : ∀ id, replay (m₀ id) (u.getActions id) = .ok (m id)) {id : Hash} {a : Option UTXO}
    (ha : a.isSome ↔ m id = none) (id' : Hash) :
    replay (m₀ id') ((u.addAction id a).getActions id') = .ok (update m id a id') := by
  by_cases hid : id' = id
  · subst hid
    rw [CoinsViewUpdates.getActions_addAction_self, replay_append, h, update_self]
    cases a with
    | some utxo => rw [ha.mp rfl]; rfl
    | none =>
      cases hm : m id' with
      | some _ => rfl
      | none => simp [hm] at ha
  · rw [CoinsViewUpdates.getActions_addAction_ne u hid, h, update_of_ne hid]

/-! ### Reading -/

/-- The read operations of a view answer from a state. -/
structure CoinsView.Shows (cr : Crypto) (v : CoinsView) (s : CoinsState) : Prop where
  header : v.getBestHeader = s.header
  utxo : ∀ id, v.getUTXO id = .ok (s.utxos id)
  next : v.getNextLeafIdx = s.leaves.length
  byte : v.getByte = PackedBits.pack s.unspent
  mmr : HoldsMmr cr v.getNumLeaves v.getHash (v.getLeaf cr) s.leaves

/-- The members of a cache over `base`, which shows `s₀`, make it show `s`. -/
structure CoinsViewCache.Over (cr : Crypto) (base : CoinsView) (s₀ : CoinsState) (c : CoinsViewCache)
    (s : CoinsState) : Prop where
  header : c.header = s.header
  utxo : ∀ id, replay (s₀.utxos id) (c.updates.getActions id) = .ok (s.utxos id)
  filed : c.updates.Filed cr
  next : c.leafSet.nextLeafIdx = s.leaves.length
  leaf : ∀ i, c.leafSet.contains base.getByte i = s.unspent i
  mmr : c.outputPMMR.Extends cr s₀.leaves s.leaves

namespace CoinsView
variable {cr : Crypto} {v : CoinsView} {s : CoinsState}

theorem Shows.outputRoot_eq (h : v.Shows cr s) : v.outputRoot cr = s.outputRoot cr := by
  unfold CoinsView.outputRoot CoinsState.outputRoot
  rw [h.mmr.size]
  exact mmrRoot_congr cr h.mmr.node

theorem Shows.leafsetRoot_eq (h : v.Shows cr s) : v.leafsetRoot cr = s.leafsetRoot cr := by
  unfold CoinsView.leafsetRoot CoinsState.leafsetRoot
  rw [h.next, h.byte]

end CoinsView

namespace CoinsViewCache
variable {cr : Crypto} {base : CoinsView} {c c' : CoinsViewCache} {s₀ s : CoinsState}

theorem Over.shows (h : c.Over cr base s₀ s) (hbase : base.Shows cr s₀) :
    (CoinsView.cache base c).Shows cr s where
  header := h.header
  utxo := fun id => by
    rw [CoinsView.getUTXO, hbase.utxo]
    exact h.utxo id
  next := h.next
  byte := PackedBits.eq_pack h.leaf
  mmr := h.mmr.holds hbase.mmr

theorem new_over (hbase : base.Shows cr s) : (new base).Over cr base s s where
  header := hbase.header
  utxo := fun id => by simp [new, replay]
  filed := fun id utxo hmem => by simp [new] at hmem
  next := hbase.next
  leaf := fun i => by
    show PackedBits.contains ((LeafSetCache.new _).getByte base.getByte) i = _
    rw [LeafSetCache.getByte_new, hbase.byte, PackedBits.contains_pack]
  mmr := by
    have hnew : (PMMRCache.new s.leaves.length).Extends cr s.leaves s.leaves :=
      PMMRCache.extends_new s.leaves
    rwa [← hbase.mmr.size] at hnew

end CoinsViewCache

end Defcoin.Mweb
