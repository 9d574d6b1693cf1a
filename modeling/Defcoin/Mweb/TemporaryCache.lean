import Mathlib.Data.List.TakeWhile
import Defcoin.Mweb.Flush

/-! # Changes made in a temporary cache

  `ApplyBlock` makes its changes in a fresh cache over the one it is called on, and flushes them.
  Making them directly leads to the same cache, whatever that cache and the layers below it hold.
-/

namespace Defcoin.Mweb

open ByteCodec PostOrder Outcome CoinsView CoinsViewUpdates List CoinsViewCache LeafSetCache Leaf

variable {cr : Crypto}

/-! ### MMR caches -/

namespace PMMRCache

/-- What the constructor, `Add` and `Rewind` build; the other operations are made of these. -/
inductive Built (cr : Crypto) : PMMRCache → Prop where
  | new (nextLeafIdx : Nat) : Built cr (new nextLeafIdx)
  | add {c : PMMRCache} (baseHash : Nat → Hash) (data : Bytes) :
    Built cr c → Built cr (c.add cr baseHash data).2
  | rewind {c : PMMRCache} (numLeaves : Nat) : Built cr c → Built cr (c.rewind numLeaves)

/-- The leaves are numbered from the first one, and the nodes are those that belong to them. -/
structure Wf (c : PMMRCache) : Prop where
  leaves : c.leaves.map Leaf.index = range' c.firstLeaf c.leaves.length
  nodes : leafPos c.firstLeaf + c.nodes.length = leafPos c.getNextLeafIdx

variable {c : PMMRCache}

theorem getNextLeafIdx_of_numbered (h : c.leaves.map index = range' c.firstLeaf c.leaves.length) :
    c.getNextLeafIdx = c.firstLeaf + c.leaves.length := by
  unfold getNextLeafIdx
  rcases eq_nil_or_concat c.leaves with hnil | ⟨_, _, hleaf⟩
  · simp [hnil]
  · rw [concat_eq_append] at hleaf
    rw [hleaf, map_append, length_append, length_singleton, range'_1_concat,
      map_singleton] at h
    have hlast := (append_inj_right' h rfl)
    rw [singleton_inj] at hlast
    simp only [hleaf, getLast?_append, getLast?_singleton, length_append,
      length_singleton, Option.some_or]
    omega

theorem Wf.next (h : c.Wf) : c.getNextLeafIdx = c.firstLeaf + c.leaves.length :=
  getNextLeafIdx_of_numbered h.leaves

theorem wf_new (n : Nat) : (new n).Wf where
  leaves := rfl
  nodes := rfl

theorem Wf.add (h : c.Wf) (baseHash : Nat → Hash) (data : Bytes) : (c.add cr baseHash data).2.Wf := by
  have hleaves : (c.add cr baseHash data).2.leaves.map index =
      range' c.firstLeaf (c.add cr baseHash data).2.leaves.length := by
    show (c.leaves ++ [create cr c.getNextLeafIdx data]).map index = range' _ (_ ++ [_]).length
    rw [map_append, h.leaves, length_append, length_singleton, range'_1_concat, h.next]
    rfl
  refine ⟨hleaves, ?_⟩
  have hnext : (c.add cr baseHash data).2.getNextLeafIdx = c.getNextLeafIdx + 1 := by
    rw [getNextLeafIdx_of_numbered hleaves, h.next]
    show c.firstLeaf + (c.leaves ++ [_]).length = _
    simp
    omega
  have hnodes : leafPos c.getNextLeafIdx + (newNodes (calcLeafHash cr) (calcParentHash cr)
      (c.getHash baseHash) c.getNextLeafIdx data).length = leafPos (c.getNextLeafIdx + 1) :=
    length_newNodes _ _ _
  rw [hnext, ← hnodes, ← h.nodes]
  show leafPos c.firstLeaf + (c.nodes ++ newNodes (calcLeafHash cr) (calcParentHash cr) (c.getHash baseHash)
    c.getNextLeafIdx data).length = _
  rw [length_append]
  omega

theorem Wf.rewind (h : c.Wf) (numLeaves : Nat) : (c.rewind numLeaves).Wf := by
  unfold PMMRCache.rewind
  by_cases hfirst : numLeaves ≤ c.firstLeaf
  · rw [if_pos hfirst]
    exact wf_new numLeaves
  · rw [if_neg hfirst]
    by_cases hempty : c.leaves.isEmpty
    · rw [if_pos hempty]
      exact h
    · rw [if_neg hempty]
      -- what is kept is a prefix, so it is numbered as before
      have hsplit : c.leaves.takeWhile (fun leaf => decide (leaf.index < numLeaves)) ++
          c.leaves.dropWhile (fun leaf => decide (leaf.index < numLeaves)) = c.leaves :=
        takeWhile_append_dropWhile
      generalize c.leaves.takeWhile (fun leaf => decide (leaf.index < numLeaves)) = kept at hsplit ⊢
      have hnum := h.leaves
      rw [← hsplit, map_append, length_append, ← range'_append_1] at hnum
      have hkept := append_inj_left hnum (by simp)
      have hnext : getNextLeafIdx { c with leaves := kept } = c.firstLeaf + kept.length :=
        getNextLeafIdx_of_numbered hkept
      have hle : leafPos (c.firstLeaf + kept.length) ≤ leafPos c.getNextLeafIdx := by
        apply leafPos_strictMono.monotone
        rw [h.next, ← hsplit, length_append]
        omega
      have hge : leafPos c.firstLeaf ≤ leafPos (c.firstLeaf + kept.length) :=
        leafPos_strictMono.monotone (by omega)
      refine ⟨hkept, ?_⟩
      show leafPos c.firstLeaf + (c.nodes.take (leafPos (getNextLeafIdx { c with leaves := kept }) -
        leafPos c.firstLeaf)).length = leafPos (getNextLeafIdx { c with leaves := kept })
      have hnodes := h.nodes
      rw [hnext, length_take]
      omega

theorem Built.wf (h : c.Built cr) : c.Wf := by
  induction h with
  | new n => exact wf_new n
  | add baseHash data _ ih => exact ih.add baseHash data
  | rewind numLeaves _ ih => exact ih.rewind numLeaves

theorem Wf.rewind_self (h : c.Wf) : c.rewind c.getNextLeafIdx = c := by
  have hnodes := h.nodes
  have hnext := h.next
  obtain ⟨first, leaves, nodes⟩ := c
  unfold PMMRCache.rewind
  by_cases hfirst : getNextLeafIdx ⟨first, leaves, nodes⟩ ≤ first
  · rw [if_pos hfirst]
    simp only at hnext hnodes
    have hleaves : leaves = [] := length_eq_zero_iff.mp (by omega)
    have hend : getNextLeafIdx ⟨first, leaves, nodes⟩ = first := by omega
    rw [hend] at hnodes ⊢
    have hnil : nodes = [] := length_eq_zero_iff.mp (by omega)
    rw [hleaves, hnil]
    rfl
  · have hempty : ¬leaves.isEmpty = true := by
      intro hnil
      rw [isEmpty_iff.mp hnil] at hfirst
      exact hfirst (Nat.le_refl first)
    have hall : leaves.takeWhile (fun leaf => decide (leaf.index < getNextLeafIdx ⟨first, leaves, nodes⟩)) =
        leaves := by
      rw [takeWhile_eq_self_iff]
      intro leaf hleaf
      have hmem : leaf.index ∈ leaves.map index := mem_map_of_mem hleaf
      rw [h.leaves] at hmem
      have hlt := mem_range'_1.mp hmem
      simp only [decide_eq_true_eq]
      omega
    have htake : nodes.take (leafPos (getNextLeafIdx ⟨first, leaves, nodes⟩) - leafPos first) = nodes := by
      rw [take_of_length_le]
      simp only at hnodes
      omega
    rw [if_neg hfirst, if_neg hempty]
    simp only [hall, htake]

/-- `v` lies over `c`, and `d` holds the leaves of both. -/
structure Joins (cr : Crypto) (baseHash : Nat → Hash) (c v d : PMMRCache) : Prop where
  wf : c.Wf
  first : v.firstLeaf = c.getNextLeafIdx
  joined_first : d.firstLeaf = c.firstLeaf
  leaves : d.leaves = c.leaves ++ v.leaves
  nodes : d.nodes = c.nodes ++ v.nodes
  written : d = v.leaves.foldl (fun m leaf => (m.add cr baseHash leaf.data).2) c

namespace Joins

variable {baseHash : Nat → Hash} {v d : PMMRCache}

theorem new (h : c.Wf) : Joins cr baseHash c (new c.getNextLeafIdx) c where
  wf := h
  first := rfl
  joined_first := rfl
  leaves := (append_nil _).symm
  nodes := (append_nil _).symm
  written := rfl

section
variable (h : Joins cr baseHash c v d)
include h

theorem getHash_eq : v.getHash (c.getHash baseHash) = d.getHash baseHash := by
  funext p
  have hnodes := h.wf.nodes
  unfold getHash
  rw [h.first, h.joined_first, h.nodes]
  by_cases hbase : p < leafPos c.firstLeaf
  · rw [if_pos hbase, if_pos (by omega), if_pos hbase]
  · by_cases hmid : p < leafPos c.getNextLeafIdx
    · rw [if_pos hmid, if_neg hbase, if_neg hbase, getD_append _ _ _ _ (by omega)]
    · rw [if_neg hmid, if_neg hbase, getD_append_right _ _ _ _ (by omega)]
      congr 1
      omega

theorem getNextLeafIdx_eq : v.getNextLeafIdx = d.getNextLeafIdx := by
  unfold getNextLeafIdx
  rw [h.leaves, getLast?_append]
  cases hlast : v.leaves.getLast? with
  | some leaf => rfl
  | none =>
    rw [h.first, h.joined_first]
    cases hc : c.leaves.getLast? with
    | none => simp [getNextLeafIdx, hc]
    | some leaf => simp [getNextLeafIdx, hc]

theorem add (data : Bytes) : (v.add cr (c.getHash baseHash) data).1 = (d.add cr baseHash data).1 ∧
      Joins cr baseHash c (v.add cr (c.getHash baseHash) data).2 (d.add cr baseHash data).2 := by
  have hnext := h.getNextLeafIdx_eq
  have hhash := h.getHash_eq
  refine ⟨hnext, h.wf, h.first, h.joined_first, ?_, ?_, ?_⟩
  · show d.leaves ++ [create cr d.getNextLeafIdx data] =
      c.leaves ++ (v.leaves ++ [create cr v.getNextLeafIdx data])
    rw [h.leaves, hnext, append_assoc]
  · show d.nodes ++ newNodes (calcLeafHash cr) (calcParentHash cr) (d.getHash baseHash) d.getNextLeafIdx
        data = c.nodes ++ (v.nodes ++ newNodes (calcLeafHash cr) (calcParentHash cr)
          (v.getHash (c.getHash baseHash)) v.getNextLeafIdx data)
    rw [h.nodes, hnext, hhash, append_assoc]
  · show _ = (v.leaves ++ [create cr v.getNextLeafIdx data]).foldl _ c
    rw [foldl_append, ← h.written]
    rfl

theorem batchWrite : c.batchWrite cr baseHash v.firstLeaf v.leaves = d := by
  rw [PMMRCache.batchWrite, h.first, h.wf.rewind_self]
  exact h.written.symm

end

end Joins

end PMMRCache

/-! ### Lockstep -/

/-- The temporary cache `v` over the cache `c`, and `d`, which is `c` with the changes of `v`. -/
structure InStep (cr : Crypto) (base : CoinsView) (c v d : CoinsViewCache) : Prop where
  header : d.header = v.header
  nextLeafIdx : d.leafSet.nextLeafIdx = v.leafSet.nextLeafIdx
  modifiedBytes : ∀ k, d.leafSet.modifiedBytes.lookup k =
    (v.leafSet.modifiedBytes.lookup k).or (c.leafSet.modifiedBytes.lookup k)
  outputPMMR : PMMRCache.Joins cr base.getHash c.outputPMMR v.outputPMMR d.outputPMMR
  actions : ∀ id, d.updates.getActions id = c.updates.getActions id ++ v.updates.getActions id
  filed : v.updates.Filed cr

namespace InStep

variable {base : CoinsView} {c v d : CoinsViewCache}

theorem new (hc : c.outputPMMR.Wf) : InStep cr base c (CoinsViewCache.new (.cache base c)) c where
  header := rfl
  nextLeafIdx := rfl
  modifiedBytes := by simp [CoinsViewCache.new, LeafSetCache.new]
  outputPMMR := .new hc
  actions := by simp [CoinsViewCache.new]
  filed := by
    intro id utxo h
    simp [CoinsViewCache.new] at h

/-! #### Reads -/

section
variable (h : InStep cr base c v d)
include h

theorem getUTXO_eq (id : Hash) : v.getUTXO (.cache base c) id = d.getUTXO base id := by
  show (base.getUTXO id >>= fun u => replay u (c.updates.getActions id)) >>=
      (fun u => replay u (v.updates.getActions id)) =
    base.getUTXO id >>= fun u => replay u (d.updates.getActions id)
  rw [h.actions]
  cases base.getUTXO id with
  | error e => rfl
  | ok u => exact (replay_append u _ _).symm

theorem getByte_eq : v.leafSet.getByte (cache base c).getByte = d.leafSet.getByte base.getByte := by
  funext k
  show (v.leafSet.modifiedBytes.lookup k).getD
    ((c.leafSet.modifiedBytes.lookup k).getD (base.getByte k)) = _
  rw [LeafSetCache.getByte, h.modifiedBytes]
  cases v.leafSet.modifiedBytes.lookup k <;> rfl

theorem contains_eq (idx : Nat) :
    v.leafSet.contains (cache base c).getByte idx = d.leafSet.contains base.getByte idx := by
  rw [LeafSetCache.contains, LeafSetCache.contains, h.getByte_eq]

theorem checkRoots_eq (hdr : Header) : v.checkRoots cr (.cache base c) hdr = d.checkRoots cr base hdr := by
  have hnum : (cache (.cache base c) v).getNumLeaves = (cache base d).getNumLeaves :=
    h.outputPMMR.getNextLeafIdx_eq
  have hhash : (cache (.cache base c) v).getHash = (cache base d).getHash :=
    h.outputPMMR.getHash_eq
  have hbyte : (cache (.cache base c) v).getByte = (cache base d).getByte :=
    h.getByte_eq
  have hnext : (cache (.cache base c) v).getNextLeafIdx =
      (cache base d).getNextLeafIdx := h.nextLeafIdx.symm
  have hroot : (cache (.cache base c) v).outputRoot cr = (cache base d).outputRoot cr := by
    rw [outputRoot, hnum, hhash, outputRoot]
  have hleafset : (cache (.cache base c) v).leafsetRoot cr =
      (cache base d).leafsetRoot cr := by
    rw [leafsetRoot, hnext, hbyte, leafsetRoot]
  unfold checkRoots
  simp only [hroot, hnum, hleafset]

/-! #### Changes -/

theorem setHeader (header : Option Header) :
    InStep cr base c { v with header } { d with header } where
  header := rfl
  nextLeafIdx := h.nextLeafIdx
  modifiedBytes := h.modifiedBytes
  outputPMMR := h.outputPMMR
  actions := h.actions
  filed := h.filed

theorem lookup_setByte (j : Nat) (b : UInt8) (k : Nat) :
    (d.leafSet.setByte j b).modifiedBytes.lookup k =
      ((v.leafSet.setByte j b).modifiedBytes.lookup k).or (c.leafSet.modifiedBytes.lookup k) := by
  unfold setByte
  by_cases hk : k = j
  · subst hk
    simp [AList.lookup_insert]
  · simp only [AList.lookup_insert_ne hk]
    exact h.modifiedBytes k

theorem actions_addAction (id : Hash) (a : Option UTXO) (id' : Hash) :
    (d.updates.addAction id a).getActions id' =
      c.updates.getActions id' ++ (v.updates.addAction id a).getActions id' := by
  by_cases hid : id' = id
  · subst hid
    rw [getActions_addAction_self, getActions_addAction_self, h.actions, append_assoc]
  · rw [getActions_addAction_ne _ hid, getActions_addAction_ne _ hid, h.actions]

theorem lookup_add (idx k : Nat) : (d.leafSet.add base.getByte idx).modifiedBytes.lookup k =
      ((v.leafSet.add (cache base c).getByte idx).modifiedBytes.lookup k).or
        (c.leafSet.modifiedBytes.lookup k) := by
  have hset : ∀ (l : LeafSetCache) backed, (l.add backed idx).modifiedBytes =
      (l.setByte (idx / 8) (l.getByte backed (idx / 8) ||| PackedBits.mask (idx % 8))).modifiedBytes := by
    intro l backed
    unfold add
    dsimp only
    split <;> rfl
  rw [hset, hset, h.getByte_eq]
  exact h.lookup_setByte _ _ k

end

variable {allow : Bool} {height : BitVec 32} {v' : CoinsViewCache}

section
variable (h : InStep cr base c v d)
include h

theorem addUTXO {output : Output} (hv : v.addUTXO cr (.cache base c) height output = .ok v') :
    ∃ d', d.addUTXO cr base height output = .ok d' ∧ InStep cr base c v' d' := by
  obtain ⟨hget, rfl⟩ := addUTXO_eq_ok.mp hv
  obtain ⟨hidx, hjoin⟩ := h.outputPMMR.add (output.getOutputID cr).bytes
  rw [h.getUTXO_eq] at hget
  refine ⟨_, addUTXO_eq_ok.mpr ⟨hget, rfl⟩, ?_⟩
  have hnext : v.outputPMMR.getNextLeafIdx = d.outputPMMR.getNextLeafIdx := hidx
  rw [hnext]
  refine ⟨h.header, ?_, h.lookup_add _, hjoin, h.actions_addAction _ _, ?_⟩
  · rw [nextLeafIdx_add, nextLeafIdx_add, h.nextLeafIdx]
  · exact h.filed.addAction fun utxo hutxo => by
      cases hutxo
      rfl

theorem spendUTXO {id : Hash} {utxo : UTXO} (hv : v.spendUTXO (.cache base c) id = .ok (utxo, v')) :
    ∃ d', d.spendUTXO base id = .ok (utxo, d') ∧ InStep cr base c v' d' := by
  obtain ⟨hget, hin, rfl⟩ := spendUTXO_eq_ok.mp hv
  rw [h.getUTXO_eq] at hget
  rw [h.contains_eq] at hin
  refine ⟨_, spendUTXO_eq_ok.mpr ⟨hget, hin, rfl⟩, ?_⟩
  refine ⟨h.header, h.nextLeafIdx, fun k => ?_, h.outputPMMR, h.actions_addAction id none, h.filed.addAction nofun⟩
  show (d.leafSet.setByte _ _).modifiedBytes.lookup k = ((v.leafSet.setByte _ _).modifiedBytes.lookup k).or _
  rw [h.getByte_eq]
  exact h.lookup_setByte _ _ k

theorem addOutputs {outputs : List Output} (hv : v.addOutputs cr (.cache base c) height outputs = .ok v') :
    ∃ d', d.addOutputs cr base height outputs = .ok d' ∧ InStep cr base c v' d' := by
  induction outputs generalizing v d with
  | nil =>
    cases hv
    exact ⟨d, rfl, h⟩
  | cons output outputs ih =>
    obtain ⟨_, hadd, hrest⟩ := bind_eq_ok.mp hv
    obtain ⟨d₁, hd₁, h₁⟩ := h.addUTXO hadd
    obtain ⟨d', hd', h'⟩ := ih h₁ hrest
    exact ⟨d', bind_eq_ok.mpr ⟨d₁, hd₁, hd'⟩, h'⟩

theorem spendInputs {inputs : List Input} {spent : List UTXO}
    (hv : v.spendInputs (.cache base c) allow inputs = .ok (spent, v')) :
    ∃ d', d.spendInputs base allow inputs = .ok (spent, d') ∧ InStep cr base c v' d' := by
  induction inputs generalizing v d spent with
  | nil =>
    cases hv
    exact ⟨d, rfl, h⟩
  | cons input inputs ih =>
    obtain ⟨u, us, _, hmatch, hspend, hrest, rfl⟩ := spendInputs_cons_eq_ok.mp hv
    obtain ⟨d₁, hd₁, h₁⟩ := h.spendUTXO hspend
    obtain ⟨d', hd', h'⟩ := ih h₁ hrest
    exact ⟨d', spendInputs_cons_eq_ok.mpr ⟨u, us, d₁, hmatch, hd₁, hd', rfl⟩, h'⟩

theorem applyBlockChanges {block : Block} {undo : BlockUndo}
    (hv : v.applyBlockChanges cr (.cache base c) block allow = .ok (undo, v')) :
    ∃ d', d.applyBlockChanges cr base block allow = .ok (undo, d') ∧ InStep cr base c v' d' := by
  unfold CoinsViewCache.applyBlockChanges at hv ⊢
  rw [h.header]
  obtain ⟨_, hsum, hv⟩ := bind_eq_ok.mp hv
  obtain ⟨_, hadd, hv⟩ := bind_eq_ok.mp hv
  obtain ⟨⟨spent, _⟩, hspend, hv⟩ := bind_eq_ok.mp hv
  obtain ⟨_, hroots, hv⟩ := bind_eq_ok.mp hv
  cases hv
  obtain ⟨d₁, hd₁, h₁⟩ := (h.setHeader (some block.header)).addOutputs hadd
  obtain ⟨d₂, hd₂, h₂⟩ := h₁.spendInputs hspend
  rw [h₂.checkRoots_eq] at hroots
  refine ⟨d₂, bind_eq_ok.mpr ⟨_, hsum, bind_eq_ok.mpr ⟨d₁, hd₁, ?_⟩⟩, h₂⟩
  exact bind_eq_ok.mpr ⟨(spent, d₂), hd₂, bind_eq_ok.mpr ⟨_, hroots, rfl⟩⟩

end

end InStep

/-! ### Flushing -/

namespace CoinsViewCache
variable {base : CoinsView} {c c' : CoinsViewCache}

theorem addOutputs_header {height : BitVec 32} {outputs : List Output}
    (h : c.addOutputs cr base height outputs = .ok c') : c'.header = c.header := by
  induction outputs generalizing c with
  | nil =>
    cases h
    rfl
  | cons output outputs ih =>
    obtain ⟨_, hadd, hrest⟩ := bind_eq_ok.mp h
    obtain ⟨_, rfl⟩ := addUTXO_eq_ok.mp hadd
    exact (ih hrest).trans rfl

theorem spendInputs_header {allow : Bool} {inputs : List Input} {spent : List UTXO}
    (h : c.spendInputs base allow inputs = .ok (spent, c')) : c'.header = c.header := by
  induction inputs generalizing c spent with
  | nil =>
    cases h
    rfl
  | cons input inputs ih =>
    obtain ⟨_, _, _, _, hspend, hrest, rfl⟩ := spendInputs_cons_eq_ok.mp h
    obtain ⟨_, _, rfl⟩ := spendUTXO_eq_ok.mp hspend
    exact (ih hrest).trans rfl

theorem applyBlockChanges_header {block : Block} {allow : Bool} {undo : BlockUndo}
    (h : c.applyBlockChanges cr base block allow = .ok (undo, c')) : c'.header = some block.header := by
  obtain ⟨_, _, h⟩ := bind_eq_ok.mp h
  obtain ⟨_, hadd, h⟩ := bind_eq_ok.mp h
  obtain ⟨⟨_, _⟩, hspend, h⟩ := bind_eq_ok.mp h
  obtain ⟨_, _, h⟩ := bind_eq_ok.mp h
  cases h
  exact (spendInputs_header hspend).trans (addOutputs_header hadd)

end CoinsViewCache

/-- The same members; maps may differ in the order of their entries only. -/
structure CoinsViewCache.Same (c d : CoinsViewCache) : Prop where
  header : c.header = d.header
  nextLeafIdx : c.leafSet.nextLeafIdx = d.leafSet.nextLeafIdx
  modifiedBytes : ∀ k, c.leafSet.modifiedBytes.lookup k = d.leafSet.modifiedBytes.lookup k
  outputPMMR : c.outputPMMR = d.outputPMMR
  actions : ∀ id, c.updates.getActions id = d.updates.getActions id

theorem InStep.flushInto {base : CoinsView} {c v d : CoinsViewCache} (h : InStep cr base c v d) :
    ∃ c', (cache base c).flushInto cr v = .ok (.cache base c') ∧ c'.Same d := by
  refine ⟨_, rfl, ?_, ?_, fun k => ?_, ?_, fun id => ?_⟩
  · exact h.header.symm
  · exact h.nextLeafIdx.symm
  · rw [h.modifiedBytes]
    cases hv : v.leafSet.modifiedBytes.lookup k with
    | some b => exact AList.mem_lookup_union.mpr (Or.inl hv)
    | none => exact AList.lookup_union_right (AList.lookup_eq_none.mp hv)
  · exact h.outputPMMR.batchWrite
  · rw [getActions_writeBatch c h.filed, h.actions]

theorem CoinsViewCache.applyBlock_direct {base v : CoinsView} {c : CoinsViewCache}
    (hc : c.outputPMMR.Wf) {block : Block} {allow : Bool} {undo : BlockUndo}
    (h : c.applyBlock cr base block allow = .ok (undo, v)) :
    ∃ c' d, v = .cache base c' ∧ c.applyBlockChanges cr base block allow = .ok (undo, d) ∧
      c'.Same d := by
  obtain ⟨⟨_, temp⟩, hchanges, h⟩ := bind_eq_ok.mp h
  obtain ⟨⟨_, _⟩, hflush, h⟩ := bind_eq_ok.mp h
  cases h
  obtain ⟨d, hd, hstep⟩ := (InStep.new hc).applyBlockChanges hchanges
  obtain ⟨c', hc', hsame⟩ := hstep.flushInto
  have hheader : temp.header.isNone = false := by
    rw [applyBlockChanges_header hchanges]
    rfl
  rw [flush, hheader, hc'] at hflush
  cases hflush
  exact ⟨c', d, rfl, hd, hsame⟩

end Defcoin.Mweb
