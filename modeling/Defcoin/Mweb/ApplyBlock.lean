import Defcoin.Framework.Outcome
import Defcoin.Mweb.CoinsState

/-! # Applying and undoing a block

  What the loops over the outputs and inputs of a block do to the state a cache shows (`Added`,
  `Spent`), and that `undoBlock` leads back to the state before it.

  Outputs are added before inputs are spent, so an output may be created and spent in the same
  block; undoing restores the coin first and then removes it.
-/

namespace Defcoin.Mweb

open ByteCodec PostOrder Outcome Function CoinsState List UTXO LeafSetCache

/-! ### One output, one input -/

def Input.Matches (input : Input) (u : UTXO) : Prop :=
  u.output.commitment = input.commitment ∧ u.output.receiverPubKey = input.outputPubKey

namespace CoinsViewCache
variable {cr : Crypto} {base : CoinsView} {c c' : CoinsViewCache} {s₀ s : CoinsState}

theorem addUTXO_eq_ok {height : BitVec 32} {o : Output} : c.addUTXO cr base height o = .ok c' ↔
    c.getUTXO base (o.getOutputID cr) = .ok none ∧
      { c with
        outputPMMR := (c.outputPMMR.add cr base.getHash (o.getOutputID cr).bytes).2
        leafSet := c.leafSet.add base.getByte c.outputPMMR.getNextLeafIdx
        updates := c.updates.addUTXO cr ⟨height, c.outputPMMR.getNextLeafIdx, o⟩ } = c' := by
  constructor
  · intro h
    obtain ⟨_, hget, h⟩ := bind_eq_ok.mp h
    obtain ⟨hnone, h⟩ := unless_eq_ok.mp h
    rw [Option.not_isSome_iff_eq_none.mp hnone] at hget
    exact ⟨hget, Except.ok.inj h⟩
  · rintro ⟨hget, rfl⟩
    exact bind_eq_ok.mpr ⟨none, hget, rfl⟩

theorem spendUTXO_eq_ok {id : Hash} {u : UTXO} : c.spendUTXO base id = .ok (u, c') ↔
    c.getUTXO base id = .ok (some u) ∧ c.leafSet.contains base.getByte u.leafIndex = true ∧
      { c with
        leafSet := c.leafSet.remove base.getByte u.leafIndex
        updates := c.updates.spendUTXO id } = c' := by
  constructor
  · intro h
    obtain ⟨- | _, hget, h⟩ := bind_eq_ok.mp h
    · cases h
    · obtain ⟨hin, h⟩ := unless_eq_ok.mp h
      cases h
      exact ⟨hget, by simpa using hin, rfl⟩
  · rintro ⟨hget, hin, rfl⟩
    exact bind_eq_ok.mpr ⟨some u, hget, unless_eq_ok.mpr ⟨by simp [hin], rfl⟩⟩

theorem spendInputs_cons_eq_ok {allow : Bool} {input : Input} {inputs : List Input} {us : List UTXO} :
    c.spendInputs base allow (input :: inputs) = .ok (us, c') ↔ ∃ u us' c₁,
      (allow = false → input.Matches u) ∧ c.spendUTXO base input.outputID = .ok (u, c₁) ∧
      c₁.spendInputs base allow inputs = .ok (us', c') ∧ u :: us' = us := by
  constructor
  · intro h
    obtain ⟨- | u, hget, h⟩ := bind_eq_ok.mp h
    · cases h
    · obtain ⟨hmatch, h⟩ := unless_eq_ok.mp h
      obtain ⟨⟨_, c₁⟩, hspend, h⟩ := bind_eq_ok.mp h
      obtain ⟨⟨us', _⟩, hrest, h⟩ := bind_eq_ok.mp h
      cases h
      -- the coin is looked up twice
      have hget' := (spendUTXO_eq_ok.mp hspend).1
      rw [hget] at hget'
      cases hget'
      exact ⟨u, us', c₁, fun hallow => by simpa [hallow, Input.Matches] using hmatch, hspend, hrest, rfl⟩
  · rintro ⟨u, us', c₁, hmatch, hspend, hrest, rfl⟩
    refine bind_eq_ok.mpr ⟨some u, (spendUTXO_eq_ok.mp hspend).1, unless_eq_ok.mpr ⟨?_, ?_⟩⟩
    · cases allow with
      | false => simp [(hmatch rfl).1, (hmatch rfl).2]
      | true => simp
    · exact bind_eq_ok.mpr ⟨(u, c₁), hspend, bind_eq_ok.mpr ⟨(us', c'), hrest, rfl⟩⟩

theorem Over.addUTXO (h : c.Over cr base s₀ s) (hbase : base.Shows cr s₀) {height : BitVec 32}
    {o : Output} (hok : c.addUTXO cr base height o = .ok c') :
    s.utxos (o.getOutputID cr) = none ∧ c'.Over cr base s₀ (s.added cr height o) := by
  obtain ⟨hget, rfl⟩ := addUTXO_eq_ok.mp hok
  have hutxo := Except.ok.inj (((h.shows hbase).utxo _).symm.trans hget)
  obtain ⟨hidx, hmmr⟩ := h.mmr.add hbase.mmr (o.getOutputID cr).bytes
  replace hidx : c.outputPMMR.getNextLeafIdx = s.leaves.length := hidx
  rw [hidx]
  refine ⟨hutxo, h.header, ?_, ?_, ?_, fun i => ?_, hmmr⟩
  · exact replay_addAction h.utxo (by simp [hutxo, getOutputID])
  · refine h.filed.addAction fun utxo hutxo' => ?_
    cases hutxo'
    rfl
  · rw [nextLeafIdx_add, h.next]
    simp [added]
  · rw [contains_add, h.leaf]
    rfl

theorem Over.spendUTXO (h : c.Over cr base s₀ s) (hbase : base.Shows cr s₀) {id : Hash} {u : UTXO}
    (hok : c.spendUTXO base id = .ok (u, c')) :
    s.utxos id = some u ∧ s.unspent u.leafIndex = true ∧ c'.Over cr base s₀ (s.spent id u) := by
  obtain ⟨hget, hin, rfl⟩ := spendUTXO_eq_ok.mp hok
  have hutxo := Except.ok.inj (((h.shows hbase).utxo _).symm.trans hget)
  refine ⟨hutxo, (h.leaf _).symm.trans hin, h.header, ?_, ?_, h.next, fun i => ?_, h.mmr⟩
  · exact replay_addAction h.utxo (by simp [hutxo])
  · exact h.filed.addAction nofun
  · rw [contains_remove, h.leaf]
    rfl

end CoinsViewCache

/-! ### All outputs, all inputs -/

/-- The outputs `os`, with fresh and distinct ids, were added to `s`. -/
structure Added (cr : Crypto) (s : CoinsState) (os : List Output) (s' : CoinsState) : Prop where
  header : s'.header = s.header
  nodup : (os.map (Output.getOutputID cr)).Nodup
  fresh : ∀ o ∈ os, s.utxos (o.getOutputID cr) = none
  created : ∀ o ∈ os, ∃ u, s'.utxos (o.getOutputID cr) = some u ∧ u.output = o
  other : ∀ id, id ∉ os.map (Output.getOutputID cr) → s'.utxos id = s.utxos id
  unspent : ∀ i, s'.unspent i =
    (s.unspent i || decide (s.leaves.length ≤ i ∧ i < s.leaves.length + os.length))
  leaves : s'.leaves = s.leaves ++ os.map fun o => (o.getOutputID cr).bytes

/-- The coins `us`, with distinct ids, were taken from `s`. -/
structure Spent (cr : Crypto) (s : CoinsState) (us : List UTXO) (s' : CoinsState) : Prop where
  header : s'.header = s.header
  nodup : (us.map (UTXO.getOutputID cr)).Nodup
  present : ∀ u ∈ us, s.utxos (u.getOutputID cr) = some u
  live : ∀ u ∈ us, s.unspent u.leafIndex = true
  utxos : ∀ id, s'.utxos id = if id ∈ us.map (UTXO.getOutputID cr) then none else s.utxos id
  unspent : ∀ i, s'.unspent i = (s.unspent i && decide (i ∉ us.map UTXO.leafIndex))
  leaves : s'.leaves = s.leaves

variable {cr : Crypto} {s s' : CoinsState}

theorem Added.nil (s : CoinsState) : Added cr s [] s where
  header := rfl
  nodup := nodup_nil
  fresh := by simp
  created := by simp
  other := by simp
  unspent := fun i => by
    have : decide (s.leaves.length ≤ i ∧ i < s.leaves.length + 0) = false := by
      simp only [decide_eq_false_iff_not]
      omega
    rw [length_nil, this, Bool.or_false]
  leaves := by simp

theorem Added.cons {height : BitVec 32} {o : Output} {os : List Output}
    (hfresh : s.utxos (o.getOutputID cr) = none) (h : Added cr (s.added cr height o) os s') :
    Added cr s (o :: os) s' := by
  have hne : ∀ o' ∈ os, o'.getOutputID cr ≠ o.getOutputID cr := by
    intro o' ho' heq
    have := h.fresh o' ho'
    rw [heq, utxos_added_self] at this
    cases this
  have hnotin : o.getOutputID cr ∉ os.map (Output.getOutputID cr) := by
    intro hmem
    obtain ⟨o', ho', heq⟩ := mem_map.mp hmem
    exact hne o' ho' heq
  refine {
    header := h.header
    nodup := nodup_cons.mpr ⟨hnotin, h.nodup⟩
    fresh := ?_
    created := ?_
    other := ?_
    unspent := ?_
    leaves := ?_ }
  · intro o' ho'
    rcases mem_cons.mp ho' with rfl | ho'
    · exact hfresh
    · have := h.fresh o' ho'
      rwa [utxos_added_ne height (hne o' ho')] at this
  · exact forall_mem_cons.mpr
      ⟨⟨⟨height, s.leaves.length, o⟩, (h.other _ hnotin).trans (utxos_added_self ..), rfl⟩, h.created⟩
  · intro id hid
    rw [map_cons, mem_cons, not_or] at hid
    rw [h.other id hid.2, utxos_added_ne height hid.1]
  · intro i
    rw [h.unspent]
    simp only [added, length_append, length_cons, length_nil, Bool.or_assoc]
    congr 1
    rw [← Bool.decide_or, decide_eq_decide]
    omega
  · rw [h.leaves]
    simp [added]

theorem Spent.nil (s : CoinsState) : Spent cr s [] s where
  header := rfl
  nodup := nodup_nil
  present := by simp
  live := by simp
  utxos := by simp
  unspent := by simp
  leaves := rfl

theorem Spent.cons {u : UTXO} {us : List UTXO} (hu : s.utxos (u.getOutputID cr) = some u)
    (hlive : s.unspent u.leafIndex = true) (h : Spent cr (s.spent (u.getOutputID cr) u) us s') :
    Spent cr s (u :: us) s' := by
  have hne : ∀ u' ∈ us, u'.getOutputID cr ≠ u.getOutputID cr := by
    intro u' hu' heq
    have := h.present u' hu'
    rw [heq] at this
    simp at this
  refine {
    header := h.header
    nodup := ?_
    present := ?_
    live := ?_
    utxos := ?_
    unspent := ?_
    leaves := h.leaves }
  · refine nodup_cons.mpr ⟨fun hmem => ?_, h.nodup⟩
    obtain ⟨u', hu', heq⟩ := mem_map.mp hmem
    exact hne u' hu' heq
  · intro u' hu'
    rcases mem_cons.mp hu' with rfl | hu'
    · exact hu
    · have := h.present u' hu'
      rwa [utxos_spent_ne (hne u' hu')] at this
  · intro u' hu'
    rcases mem_cons.mp hu' with rfl | hu'
    · exact hlive
    · exact (Bool.and_eq_true_iff.mp (h.live u' hu')).1
  · intro id
    rw [h.utxos]
    by_cases hid : id = u.getOutputID cr
    · simp [hid]
    · simp [utxos_spent_ne hid, hid]
  · intro i
    rw [h.unspent]
    simp only [spent, map_cons, mem_cons, not_or, Bool.decide_and, Bool.and_assoc]

namespace CoinsViewCache
variable {base : CoinsView} {c c' : CoinsViewCache} {s₀ : CoinsState}

theorem Over.addOutputs (hbase : base.Shows cr s₀) {height : BitVec 32} {os : List Output}
    (h : c.Over cr base s₀ s) (hs : s.Coherent cr) (hos : ∀ o ∈ os, o.message.Wf)
    (hok : c.addOutputs cr base height os = .ok c') :
    ∃ s', Added cr s os s' ∧ s'.Coherent cr ∧ (s.Live → s'.Live) ∧ c'.Over cr base s₀ s' := by
  induction os generalizing c s with
  | nil =>
    cases hok
    exact ⟨s, Added.nil s, hs, id, h⟩
  | cons o os ih =>
    obtain ⟨_, hc₁, hok⟩ := bind_eq_ok.mp hok
    obtain ⟨hfresh, hover⟩ := h.addUTXO hbase hc₁
    obtain ⟨s', hadded, hs', hlive, hover'⟩ :=
      ih hover (hs.added height (hos o (by simp))) (fun o' ho' => hos o' (by simp [ho'])) hok
    exact ⟨s', hadded.cons hfresh, hs', fun hl => hlive (hl.added hs height o), hover'⟩

theorem Over.spendInputs (hbase : base.Shows cr s₀) {allow : Bool} {inputs : List Input}
    {us : List UTXO} (h : c.Over cr base s₀ s) (hs : s.Coherent cr)
    (hok : c.spendInputs base allow inputs = .ok (us, c')) :
    ∃ s', Spent cr s us s' ∧ s'.Coherent cr ∧ (s.Live → s'.Live) ∧ c'.Over cr base s₀ s' ∧
      List.Forall₂ (fun input u => u.getOutputID cr = input.outputID ∧
        (allow = false → Input.Matches input u)) inputs us := by
  induction inputs generalizing c s us with
  | nil =>
    cases hok
    exact ⟨s, Spent.nil s, hs, id, h, .nil⟩
  | cons input inputs ih =>
    obtain ⟨u, _, _, hmatch, hspend, hrest, rfl⟩ := spendInputs_cons_eq_ok.mp hok
    obtain ⟨hutxo, hlive, hover⟩ := h.spendUTXO hbase hspend
    have hid := hs.utxo_id _ _ hutxo
    obtain ⟨s', hspent, hs', hkeeps, hover', hinputs⟩ := ih hover (hs.spent _ _) hrest
    rw [← hid] at hspent hutxo hkeeps
    exact ⟨s', hspent.cons hutxo hlive, hs', fun hl => hkeeps (hl.spent hutxo), hover',
      .cons ⟨hid, hmatch⟩ hinputs⟩

theorem Over.checkRoots (h : c.Over cr base s₀ s) (hbase : base.Shows cr s₀) (hdr : Header) :
    c.checkRoots cr base hdr = .ok () ↔ s.Commits cr hdr := by
  have hshows := h.shows hbase
  unfold CoinsViewCache.checkRoots
  simp only [hshows.outputRoot_eq, hshows.leafsetRoot_eq, hshows.mmr.size, bind_eq_ok]
  constructor
  · rintro ⟨root, hroot, hok⟩
    split at hok
    · cases hok
    · next hcond =>
      simp only [not_or, not_not] at hcond
      exact ⟨by rw [hroot, hcond.1], hcond.2.1, hcond.2.2⟩
  · intro hcommits
    refine ⟨hdr.outputRoot, hcommits.outputRoot, ?_⟩
    rw [if_neg (by simp [hcommits.size, hcommits.leafsetRoot])]
    rfl

end CoinsViewCache

/-! ### A whole block -/

/-- What an accepted block did to the state: its outputs were added, then coins were spent, and its
    header commits to the result. -/
structure Applied (cr : Crypto) (s : CoinsState) (block : Block) (allow : Bool) (undo : BlockUndo)
    (s' : CoinsState) : Prop where
  prevHeader : undo.prevHeader = s.header
  coinsAdded : undo.coinsAdded = block.body.outputs.map (Output.getOutputID cr)
  changes : ∃ sm, Added cr { s with header := some block.header } block.body.outputs sm ∧
    sm.Coherent cr ∧ Spent cr sm undo.coinsSpent s'
  inputs : List.Forall₂ (fun input u => u.getOutputID cr = input.outputID ∧
    (allow = false → Input.Matches input u)) block.body.inputs undo.coinsSpent
  wf : s'.Wf cr
  header : s'.header = some block.header

/-- The undo data of an accepted block can be serialised: leaf indices are below the committed size
    of the MMR, which is a `uint64_t`. -/
theorem Applied.undo_wf {block : Block} {allow : Bool} {undo : BlockUndo}
    (h : Applied cr s block allow undo s') : undo.Wf := by
  obtain ⟨_, _, hsm, hspent⟩ := h.changes
  have hsize := (h.wf.committed _ h.header).size
  refine ⟨?_, ?_, ?_⟩
  · intro u hu
    have hpresent := hspent.present u hu
    have hleaf := hsm.utxo_leaf _ u hpresent
    rw [← hspent.leaves] at hleaf
    exact ⟨by omega, hsm.utxo_message _ u hpresent⟩
  · rw [← h.inputs.length_eq]
    exact block.body.inputs_size
  · rw [h.coinsAdded, length_map]
    exact block.body.outputs_size

namespace CoinsViewCache
variable {base : CoinsView} {c c' : CoinsViewCache} {s₀ : CoinsState}

theorem Over.applyBlockChanges (h : c.Over cr base s₀ s) (hbase : base.Shows cr s₀) (hs : s.Wf cr)
    {block : Block} {allow : Bool} {undo : BlockUndo}
    (hok : c.applyBlockChanges cr base block allow = .ok (undo, c')) :
    ∃ s', Applied cr s block allow undo s' ∧ (s.Live → s'.Live) ∧
      validateForBlock cr block.body block.header.kernelOffset
        ((s.header.map Header.kernelOffset).getD BigInt.zero) = .ok () ∧ c'.Over cr base s₀ s' := by
  obtain ⟨_, hsums, hok⟩ := bind_eq_ok.mp hok
  obtain ⟨_, hadd, hok⟩ := bind_eq_ok.mp hok
  obtain ⟨⟨_, _⟩, hspend, hok⟩ := bind_eq_ok.mp hok
  obtain ⟨_, hroots, hok⟩ := bind_eq_ok.mp hok
  cases hok
  have hover : CoinsViewCache.Over cr base s₀ { c with header := some block.header }
      { s with header := some block.header } :=
    ⟨rfl, h.utxo, h.filed, h.next, h.leaf, h.mmr⟩
  have hcoh : CoinsState.Coherent cr { s with header := some block.header } :=
    ⟨hs.unspent_lt, hs.utxo_id, hs.utxo_leaf, hs.utxo_message⟩
  obtain ⟨sm, hadded, hsm, hlive, hover⟩ := hover.addOutputs hbase hcoh block.body.outputs_wf hadd
  obtain ⟨s', hspent, hs', hlive', hover, hinputs⟩ := hover.spendInputs hbase hsm hspend
  have hheader := hspent.header.trans hadded.header
  rw [h.header] at hsums
  refine ⟨s', ⟨h.header, rfl, ⟨sm, hadded, hsm, hspent⟩, hinputs, ⟨hs', ?_, ?_⟩, hheader⟩,
    fun hl => hlive' (hlive ⟨hl.unspent, hl.leaf_inj⟩), hsums, hover⟩
  · intro hdr hhdr
    rw [hheader] at hhdr
    cases hhdr
    exact (hover.checkRoots hbase block.header).mp hroots
  · intro hnone
    rw [hheader] at hnone
    cases hnone

end CoinsViewCache

/-! ### Undoing -/

/-- The coins with `us` put back. -/
def restoreCoins (cr : Crypto) (us : List UTXO) (m : Hash → Option UTXO) : Hash → Option UTXO :=
  us.foldl (fun m u => update m (u.getOutputID cr) (some u)) m

/-- The coins without those filed under `ids`. -/
def removeCoins (ids : List Hash) (m : Hash → Option UTXO) : Hash → Option UTXO :=
  ids.foldl (fun m id => update m id none) m

variable {undo : BlockUndo} {allow : Bool} {block : Block} {us : List UTXO} (m : Hash → Option UTXO)

theorem restoreCoins_of_notMem {id : Hash} (h : id ∉ us.map (getOutputID cr)) :
    restoreCoins cr us m id = m id := by
  induction us generalizing m with
  | nil => rfl
  | cons u us ih =>
    rw [map_cons, mem_cons, not_or] at h
    exact (ih _ h.2).trans (update_of_ne h.1 ..)

theorem restoreCoins_of_mem (hnd : (us.map (getOutputID cr)).Nodup) {u : UTXO} (h : u ∈ us) :
    restoreCoins cr us m (u.getOutputID cr) = some u := by
  induction us generalizing m with
  | nil => cases h
  | cons u' us ih =>
    rw [map_cons, nodup_cons] at hnd
    rcases mem_cons.mp h with rfl | h
    · exact (restoreCoins_of_notMem _ hnd.1).trans (update_self ..)
    · exact ih _ hnd.2 h

theorem removeCoins_eq (ids : List Hash) (m : Hash → Option UTXO) (id : Hash) :
    removeCoins ids m id = if id ∈ ids then none else m id := by
  induction ids generalizing m with
  | nil => rfl
  | cons id' ids ih =>
    rw [removeCoins, foldl_cons, ← removeCoins, ih]
    by_cases heq : id = id'
    · simp [heq]
    · simp [heq]

theorem Applied.utxos_undone (h : Applied cr s block allow undo s') :
    removeCoins undo.coinsAdded (restoreCoins cr undo.coinsSpent s'.utxos) = s.utxos := by
  obtain ⟨_, hadded, _, hspent⟩ := h.changes
  funext id
  rw [removeCoins_eq, h.coinsAdded]
  split
  · next hmem =>
    obtain ⟨o, ho, rfl⟩ := mem_map.mp hmem
    exact (hadded.fresh o ho).symm
  · next hmem =>
    have hother := hadded.other id hmem
    by_cases hspentid : id ∈ undo.coinsSpent.map (getOutputID cr)
    · obtain ⟨u, hu, rfl⟩ := mem_map.mp hspentid
      rw [restoreCoins_of_mem _ hspent.nodup hu, ← hother, hspent.present u hu]
    · rw [restoreCoins_of_notMem _ hspentid, hspent.utxos, if_neg hspentid, hother]

theorem Applied.unspent_undone (h : Applied cr s block allow undo s') (hs : s.Coherent cr) (i : Nat) :
    ((s'.unspent i || decide (i ∈ undo.coinsSpent.map UTXO.leafIndex)) &&
      decide (i < s.leaves.length)) = s.unspent i := by
  obtain ⟨sm, hadded, _, hspent⟩ := h.changes
  by_cases hi : i < s.leaves.length
  · have hold : sm.unspent i = s.unspent i := by
      rw [hadded.unspent i]
      have : ¬(s.leaves.length ≤ i ∧ i < s.leaves.length + block.body.outputs.length) := by omega
      simp [this]
    rw [hspent.unspent, hold]
    by_cases hmem : i ∈ undo.coinsSpent.map UTXO.leafIndex
    · obtain ⟨u, hu, rfl⟩ := mem_map.mp hmem
      have hlive := hspent.live u hu
      rw [hold] at hlive
      simp [hi, hmem, hlive]
    · simp [hi, hmem]
  · have hfalse : s.unspent i = false := by
      by_contra hne
      exact hi (hs.unspent_lt i (by simpa using hne))
    simp [hi, hfalse]

namespace CoinsViewUpdates
variable {u : CoinsViewUpdates} {m₀ m : Hash → Option UTXO}

theorem replay_foldl {α : Type} (key : α → Hash) (action : α → Option UTXO) {as : List α}
    (hnd : (as.map key).Nodup) (hflip : ∀ a ∈ as, (action a).isSome ↔ m (key a) = none)
    (hkey : ∀ a ∈ as, ∀ utxo, action a = some utxo → utxo.getOutputID cr = key a) (hfiled : u.Filed cr)
    (h : ∀ id, replay (m₀ id) (u.getActions id) = .ok (m id)) :
    (as.foldl (fun u a => u.addAction (key a) (action a)) u).Filed cr ∧
      ∀ id, replay (m₀ id) ((as.foldl (fun u a => u.addAction (key a) (action a)) u).getActions id) =
        .ok (as.foldl (fun m a => update m (key a) (action a)) m id) := by
  induction as generalizing u m with
  | nil => exact ⟨hfiled, h⟩
  | cons a as ih =>
    rw [map_cons, nodup_cons] at hnd
    rw [forall_mem_cons] at hflip hkey
    refine ih hnd.2 (fun b hb => ?_) hkey.2 (hfiled.addAction hkey.1) (replay_addAction h hflip.1)
    have hne : key b ≠ key a := fun heq => hnd.1 (mem_map.mpr ⟨b, hb, heq⟩)
    show _ ↔ update m (key a) (action a) (key b) = none
    rw [update_of_ne hne]
    exact hflip.2 b hb

end CoinsViewUpdates

namespace CoinsViewCache
variable {base : CoinsView} {c c' : CoinsViewCache} {s₀ : CoinsState}

theorem Over.undoBlock (h : c.Over cr base s₀ s') (hbase : base.Shows cr s₀) (hs : s.Wf cr)
    {block : Block} {allow : Bool} {undo : BlockUndo} (happlied : Applied cr s block allow undo s') :
    ∃ c', c.undoBlock cr base undo = .ok c' ∧ c'.Over cr base s₀ s := by
  obtain ⟨_, hadded, hsm, hspent⟩ := happlied.changes
  have hleaves := hspent.leaves.trans hadded.leaves
  have hrestore := CoinsViewUpdates.replay_foldl (UTXO.getOutputID cr) some hspent.nodup (fun u hu => by
    simp [hspent.utxos, mem_map_of_mem hu]) (fun _ _ _ heq => Option.some.inj heq ▸ rfl) h.filed h.utxo
  have hcreated : ∀ id ∈ undo.coinsAdded, restoreCoins cr undo.coinsSpent s'.utxos id ≠ none := by
    intro id hid
    rw [happlied.coinsAdded] at hid
    obtain ⟨o, ho, rfl⟩ := mem_map.mp hid
    obtain ⟨u, hu, _⟩ := hadded.created o ho
    by_cases hmem : o.getOutputID cr ∈ undo.coinsSpent.map (UTXO.getOutputID cr)
    · obtain ⟨_, hu', heq⟩ := mem_map.mp hmem
      rw [← heq, restoreCoins_of_mem _ hspent.nodup hu']
      simp
    · rw [restoreCoins_of_notMem _ hmem, hspent.utxos, if_neg hmem, hu]
      simp
  have hnodup : (undo.coinsAdded.map id).Nodup := by
    rw [map_id, happlied.coinsAdded]
    exact hadded.nodup
  have hremove := CoinsViewUpdates.replay_foldl id (fun _ => none) hnodup
    (fun id hid => iff_of_false nofun (hcreated id hid)) nofun hrestore.1 hrestore.2
  -- rewinding to the old size restores leaf set and MMR in both branches of the source
  have hover : ∀ toAdd : List Nat,
      (∀ i, ((s'.unspent i || decide (i ∈ toAdd)) && decide (i < s.leaves.length)) = s.unspent i) →
      CoinsViewCache.Over cr base s₀
        { header := s.header
          leafSet := c.leafSet.rewind base.getByte s.leaves.length toAdd
          outputPMMR := c.outputPMMR.rewind s.leaves.length
          updates := undo.coinsAdded.foldl (fun u id => u.spendUTXO id)
            (undo.coinsSpent.foldl (fun u utxo => u.addUTXO cr utxo) c.updates) } s := by
    intro toAdd hunspent
    have hmmr := h.mmr.rewind (m := s.leaves.length) (by rw [hleaves]; simp)
    rw [hleaves, take_left] at hmmr
    refine ⟨rfl, fun id => (hremove.2 id).trans (congrArg Except.ok (congrFun happlied.utxos_undone id)),
      hremove.1, rfl, fun i => ?_, hmmr⟩
    rw [contains_rewind base.getByte c.leafSet s.leaves.length toAdd (fun j hj => by
        rw [h.leaf] at hj
        rw [h.next]
        exact happlied.wf.unspent_lt j hj), h.leaf, hunspent]
  unfold CoinsViewCache.undoBlock
  rw [happlied.prevHeader]
  cases hheader : s.header with
  | none =>
    have hempty : s.leaves.length = 0 := by rw [(hs.genesis hheader).1]; rfl
    have := hover [] fun i => by
      have hfalse : s.unspent i = false := by
        by_contra hne
        have := hs.unspent_lt i (by simpa using hne)
        omega
      simp [hempty, hfalse]
    rw [hempty, hheader] at this
    exact ⟨_, rfl, this⟩
  | some hdr =>
    have hcommits := hs.committed hdr hheader
    have := hover (undo.coinsSpent.map UTXO.leafIndex) (happlied.unspent_undone hs.toCoherent)
    rw [← hcommits.size, hheader] at this
    refine ⟨_, ?_, this⟩
    simp only [(this.checkRoots hbase hdr).mpr hcommits]
    rfl

end CoinsViewCache

end Defcoin.Mweb
