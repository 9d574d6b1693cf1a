import Defcoin.Mweb.Reorg

/-! # Coins and their leaves

  In every view that blocks lead to, each coin has a leaf of its own in the output MMR, and that
  leaf is in the leaf set. Whether a block's loops succeed then depends on the ids alone: outputs
  must be new, inputs must be there, and no id may occur twice.
-/

namespace Defcoin.Mweb

open ByteCodec PostOrder Outcome CoinsView CoinsState List

variable {cr : Crypto} {s : CoinsState}

namespace CoinsState

/-! ### The states the loops lead to -/

def addAll (cr : Crypto) (height : BitVec 32) (s : CoinsState) : List Output → CoinsState
  | [] => s
  | o :: os => addAll cr height (s.added cr height o) os

/-- The state without the coins filed under `ids`. -/
def spendAll (s : CoinsState) : List Hash → CoinsState
  | [] => s
  | id :: ids =>
    match s.utxos id with
    | some u => spendAll (s.spent id u) ids
    | none => spendAll s ids

variable {os : List Output} (height : BitVec 32)

theorem addAll_header (h : Option Header) (os : List Output) :
    addAll cr height { s with header := h } os = { addAll cr height s os with header := h } := by
  induction os generalizing s with
  | nil => rfl
  | cons o os ih => exact ih (s := s.added cr height o)

theorem spendAll_header (h : Option Header) (ids : List Hash) :
    spendAll { s with header := h } ids = { spendAll s ids with header := h } := by
  induction ids generalizing s with
  | nil => rfl
  | cons id ids ih =>
    rw [spendAll, spendAll]
    rcases hu : s.utxos id with - | u
    · exact ih
    · exact ih (s := s.spent id u)

theorem spendAll_leaves (s : CoinsState) (ids : List Hash) : (s.spendAll ids).leaves = s.leaves := by
  induction ids generalizing s with
  | nil => rfl
  | cons id ids ih =>
    rw [spendAll]
    rcases s.utxos id with - | u
    · exact ih s
    · exact ih (s.spent id u)

theorem added_addAll (hnodup : (os.map (Output.getOutputID cr)).Nodup)
    (hfresh : ∀ o ∈ os, s.utxos (o.getOutputID cr) = none) : Added cr s os (addAll cr height s os) := by
  induction os generalizing s with
  | nil => exact Added.nil s
  | cons o os ih =>
    obtain ⟨hnotin, hnodup⟩ := nodup_cons.mp hnodup
    refine Added.cons (hfresh o mem_cons_self) (ih hnodup fun o' ho' => ?_)
    have hne : o'.getOutputID cr ≠ o.getOutputID cr := by
      intro heq
      exact hnotin (heq ▸ mem_map_of_mem ho')
    rw [utxos_added_ne height hne]
    exact hfresh o' (mem_cons_of_mem o ho')

theorem addAll_invariant (hs : s.Coherent cr) (hl : s.Live) (hos : ∀ o ∈ os, o.message.Wf) :
    (addAll cr height s os).Coherent cr ∧ (addAll cr height s os).Live := by
  induction os generalizing s with
  | nil => exact ⟨hs, hl⟩
  | cons o os ih =>
    exact ih (hs.added height (hos o mem_cons_self)) (hl.added hs height o)
      fun o' ho' => hos o' (mem_cons_of_mem o ho')

theorem spendAll_invariant {ids : List Hash} (hs : s.Coherent cr) (hl : s.Live) :
    (s.spendAll ids).Coherent cr ∧ (s.spendAll ids).Live := by
  induction ids generalizing s with
  | nil => exact ⟨hs, hl⟩
  | cons id ids ih =>
    rw [spendAll]
    rcases hu : s.utxos id with - | u
    · exact ih hs hl
    · exact ih (hs.spent id u) (hl.spent hu)

def next (cr : Crypto) (s : CoinsState) (block : Block) : CoinsState :=
  (addAll cr (block.header.height.setWidth 32) { s with header := some block.header }
    block.body.outputs).spendAll (block.body.inputs.map Input.outputID)

end CoinsState

/-! ### The loops succeed -/

namespace CoinsViewCache
variable {base : CoinsView} {c c' : CoinsViewCache} {s₀ : CoinsState}

theorem Over.addUTXO_of_fresh (h : c.Over cr base s₀ s) (hbase : base.Shows cr s₀) (height : BitVec 32)
    {o : Output} (hfresh : s.utxos (o.getOutputID cr) = none) :
    ∃ c', c.addUTXO cr base height o = .ok c' ∧ c'.Over cr base s₀ (s.added cr height o) := by
  have hok : c.addUTXO cr base height o = .ok _ :=
    addUTXO_eq_ok.mpr ⟨((h.shows hbase).utxo _).trans (congrArg Except.ok hfresh), rfl⟩
  exact ⟨_, hok, (h.addUTXO hbase hok).2⟩

theorem Over.spendUTXO_of_live (h : c.Over cr base s₀ s) (hbase : base.Shows cr s₀) (hl : s.Live)
    {id : Hash} {u : UTXO} (hu : s.utxos id = some u) :
    ∃ c', c.spendUTXO base id = .ok (u, c') ∧ c'.Over cr base s₀ (s.spent id u) := by
  have hok := spendUTXO_eq_ok.mpr ⟨((h.shows hbase).utxo _).trans (congrArg Except.ok hu),
    (h.leaf _).trans (hl.unspent id u hu), rfl⟩
  exact ⟨_, hok, (h.spendUTXO hbase hok).2.2⟩

theorem Over.addOutputs_of_fresh (hbase : base.Shows cr s₀) (height : BitVec 32) {os : List Output}
    (h : c.Over cr base s₀ s) (hnodup : (os.map (Output.getOutputID cr)).Nodup)
    (hfresh : ∀ o ∈ os, s.utxos (o.getOutputID cr) = none) :
    ∃ c', c.addOutputs cr base height os = .ok c' ∧ c'.Over cr base s₀ (addAll cr height s os) := by
  induction os generalizing c s with
  | nil => exact ⟨c, rfl, h⟩
  | cons o os ih =>
    obtain ⟨hnotin, hnodup⟩ := nodup_cons.mp hnodup
    obtain ⟨_, hc₁, hover⟩ := h.addUTXO_of_fresh hbase height (hfresh o mem_cons_self)
    have hrest : ∀ o' ∈ os, (s.added cr height o).utxos (o'.getOutputID cr) = none := by
      intro o' ho'
      rw [utxos_added_ne height fun heq => hnotin (heq ▸ mem_map_of_mem ho')]
      exact hfresh o' (mem_cons_of_mem o ho')
    obtain ⟨c', hok, hover'⟩ := ih hover hnodup hrest
    refine ⟨c', ?_, hover'⟩
    rw [CoinsViewCache.addOutputs, hc₁]
    exact hok

theorem Over.spendInputs_of_live (hbase : base.Shows cr s₀) {allow : Bool} {inputs : List Input}
    (h : c.Over cr base s₀ s) (hl : s.Live) (hnodup : (inputs.map Input.outputID).Nodup)
    (hpresent : ∀ input ∈ inputs, s.utxos input.outputID ≠ none)
    (hmatch : ∀ input ∈ inputs, ∀ u, s.utxos input.outputID = some u → allow = false →
      input.Matches u) : ∃ us c', c.spendInputs base allow inputs = .ok (us, c') ∧
      c'.Over cr base s₀ (s.spendAll (inputs.map Input.outputID)) := by
  induction inputs generalizing c s with
  | nil => exact ⟨[], c, rfl, h⟩
  | cons input inputs ih =>
    obtain ⟨hnotin, hnodup⟩ := nodup_cons.mp hnodup
    obtain ⟨u, hu⟩ := Option.ne_none_iff_exists'.mp (hpresent input mem_cons_self)
    obtain ⟨c₁, hspend, hover⟩ := h.spendUTXO_of_live hbase hl hu
    have hne : ∀ i ∈ inputs, i.outputID ≠ input.outputID := fun i hi heq =>
      hnotin (heq ▸ mem_map_of_mem hi)
    obtain ⟨us, c', hok, hover'⟩ := ih hover (hl.spent hu) hnodup
      (fun i hi => by
        rw [utxos_spent_ne (hne i hi)]
        exact hpresent i (mem_cons_of_mem input hi))
      (fun i hi u' hu' => by
        rw [utxos_spent_ne (hne i hi)] at hu'
        exact hmatch i (mem_cons_of_mem input hi) u' hu')
    refine ⟨u :: us, c', ?_, ?_⟩
    · exact spendInputs_cons_eq_ok.mpr ⟨u, us, c₁, hmatch input mem_cons_self u hu, hspend, hok, rfl⟩
    · rw [map_cons, spendAll, hu]
      exact hover'

theorem applyBlock_of_next (hrep : (cache base c).Rep cr s) (hl : s.Live) {block : Block}
    {allow : Bool} (hsums : validateForBlock cr block.body block.header.kernelOffset
      ((s.header.map Header.kernelOffset).getD BigInt.zero) = .ok ())
    (hnodup : (block.body.outputs.map (Output.getOutputID cr)).Nodup)
    (hfresh : ∀ o ∈ block.body.outputs, s.utxos (o.getOutputID cr) = none)
    (hspent : (block.body.inputs.map Input.outputID).Nodup)
    (hcoin : ∀ input ∈ block.body.inputs, ∃ u, (addAll cr (block.header.height.setWidth 32) s
      block.body.outputs).utxos input.outputID = some u ∧ (allow = false → input.Matches u))
    (hcommits : (s.next cr block).Commits cr block.header) :
    ∃ undo v, c.applyBlock cr base block allow = .ok (undo, v) := by
  have hshows := hrep.shows
  have hover : CoinsViewCache.Over cr (.cache base c) s
      { new (.cache base c) with header := some block.header }
      { s with header := some block.header } := by
    have hnew := new_over hshows
    exact ⟨rfl, hnew.utxo, hnew.filed, hnew.next, hnew.leaf, hnew.mmr⟩
  have hs : CoinsState.Coherent cr { s with header := some block.header } :=
    ⟨hrep.wf.unspent_lt, hrep.wf.utxo_id, hrep.wf.utxo_leaf, hrep.wf.utxo_message⟩
  have hlive : CoinsState.Live { s with header := some block.header } := ⟨hl.unspent, hl.leaf_inj⟩
  obtain ⟨added, hadd, hover⟩ :=
    hover.addOutputs_of_fresh hshows (block.header.height.setWidth 32) hnodup hfresh
  obtain ⟨hs, hlive⟩ := addAll_invariant (block.header.height.setWidth 32) hs hlive
    block.body.outputs_wf
  have hcoin' : ∀ input ∈ block.body.inputs, ∃ u, (addAll cr
      (block.header.height.setWidth 32) { s with header := some block.header }
      block.body.outputs).utxos input.outputID = some u ∧ (allow = false → input.Matches u) := by
    intro input hinput
    rw [addAll_header]
    exact hcoin input hinput
  -- adding outputs keeps the invariant, so every input finds its coin
  have hspend : ∃ us spent, added.spendInputs (.cache base c) allow block.body.inputs = .ok (us, spent) ∧
      spent.Over cr (.cache base c) s (s.next cr block) := by
    apply hover.spendInputs_of_live hshows hlive hspent
    · intro input hinput
      obtain ⟨u, hu, _⟩ := hcoin' input hinput
      rw [hu]
      exact Option.some_ne_none u
    · intro input hinput u hu hallow
      obtain ⟨_, hu', hmatch⟩ := hcoin' input hinput
      rw [hu] at hu'
      cases hu'
      exact hmatch hallow
  obtain ⟨us, spent, hspend, hover⟩ := hspend
  have hheader : (s.next cr block).header = some block.header := by
    unfold CoinsState.next
    rw [addAll_header, spendAll_header]
  have hwf : (s.next cr block).Wf cr := by
    refine ⟨(spendAll_invariant hs hlive).1, ?_, ?_⟩
    · intro hdr hhdr
      rw [hheader] at hhdr
      cases hhdr
      exact hcommits
    · intro hnone
      rw [hheader] at hnone
      cases hnone
  have hspentHeader : spent.header ≠ none := by
    rw [hover.header, hheader]
    simp
  obtain ⟨_, hflush, _⟩ := flush_spec ⟨hwf, s, hrep, hover⟩ hspentHeader
  have hroots := (hover.checkRoots hshows block.header).mpr hcommits
  have hprev : (new (.cache base c)).header = s.header := hshows.header
  unfold applyBlock applyBlockChanges
  simp only [hprev, hsums, bind, Except.bind, hadd, hspend, hroots, pure, Except.pure, hflush]
  exact ⟨_, _, rfl⟩

end CoinsViewCache

/-! ### Every layer of a reachable stack -/

/-- Every layer of the stack shows a state between two blocks that meets `Q`. -/
def CoinsView.Every (cr : Crypto) (Q : CoinsState → Prop) : CoinsView → Prop
  | .db d => ∃ s, (db d).Rep cr s ∧ Q s
  | .cache base c => CoinsView.Every cr Q base ∧ ∃ s, (cache base c).Rep cr s ∧ Q s

variable {Q : CoinsState → Prop} {v : CoinsView}

theorem CoinsView.Every.top (h : v.Every cr Q) : ∃ s, v.Rep cr s ∧ Q s := by
  rcases v with _ | ⟨_, _⟩
  · exact h
  · exact h.2

theorem CoinsView.flushInto_db {d : CoinsViewDB} {top : CoinsViewCache} (h : (db d).flushInto cr top = .ok v) :
    ∃ d', v = .db d' := by
  obtain ⟨d', _, h⟩ := bind_eq_ok.mp h
  obtain ⟨_, _, h⟩ := bind_eq_ok.mp h
  cases h
  exact ⟨_, rfl⟩

/-- **Invariant rule** for views: what the empty view has and every accepted block keeps holds in
    all layers of every reachable view. -/
theorem Reachable.every (hlive : ∀ s, Q s → s.Live)
    (hempty : Q { header := none, utxos := fun _ => none, unspent := fun _ => false, leaves := [] })
    (hblock : ∀ s s' block allow undo, Q s → s'.Live → Applied cr s block allow undo s' → validateForBlock cr block.body block.header.kernelOffset ((s.header.map Header.kernelOffset).getD BigInt.zero) = .ok () → Q s')
    (h : Reachable cr v) : v.Every cr Q := by
  induction h with
  | empty => exact ⟨_, emptyDB_rep, hempty⟩
  | push _ ih =>
    obtain ⟨s, hs, hq⟩ := ih.top
    exact ⟨ih, s, hs.push, hq⟩
  | discard _ ih => exact ih.1
  | applyBlock _ hok ih =>
    obtain ⟨hbase, s, hs, hq⟩ := ih
    obtain ⟨s', c', rfl, hrep, happlied, hkeeps, hsums⟩ := CoinsViewCache.applyBlock_spec hs hok
    exact ⟨hbase, s', hrep, hblock _ _ _ _ _ hq (hkeeps (hlive s hq)) happlied hsums⟩
  | @flush base base' c c' _ hok ih =>
    obtain ⟨hbase, s, hs, hq⟩ := ih
    by_cases hheader : c.header = none
    · rw [CoinsViewCache.flush, if_pos (by simp [hheader])] at hok
      cases hok
      exact ⟨hbase, s, hs, hq⟩
    · obtain ⟨_, hflush, hrep, htop, hshape⟩ := CoinsViewCache.flush_spec hs hheader
      rw [hflush] at hok
      cases hok
      refine ⟨?_, s, htop, hq⟩
      rcases base with _ | ⟨below, cb⟩
      · rw [CoinsViewCache.flush, if_neg (by simpa using hheader)] at hflush
        obtain ⟨_, hinto, hflush⟩ := bind_eq_ok.mp hflush
        cases hflush
        obtain ⟨_, rfl⟩ := flushInto_db hinto
        exact ⟨s, hrep, hq⟩
      · obtain ⟨_, rfl⟩ := hshape below cb rfl
        exact ⟨hbase.1, s, hrep, hq⟩

/-- **Commitment**: in every reachable view the best header commits to the nodes and the leaf set, and
    every coin is filed under its own id, with an unspent leaf that no other coin has. -/
theorem Reachable.header_commits (h : Reachable cr v) :
    (∀ hdr, v.getBestHeader = some hdr → v.outputRoot cr = .ok hdr.outputRoot ∧
      v.leafsetRoot cr = hdr.leafsetRoot ∧ v.getNextLeafIdx = hdr.outputMMRSize.toNat) ∧
    ∀ id u, v.getUTXO id = .ok (some u) → u.getOutputID cr = id ∧ u.leafIndex < v.getNextLeafIdx ∧
      PackedBits.contains v.getByte u.leafIndex = true ∧
      ∀ id' u', v.getUTXO id' = .ok (some u') → u'.leafIndex = u.leafIndex → id' = id := by
  obtain ⟨s, hs, hlive⟩ := (h.every (fun _ hs => hs) ⟨nofun, nofun⟩ fun _ _ _ _ _ _ hlive _ _ => hlive).top
  have hshows := hs.shows
  simp only [hshows.outputRoot_eq, hshows.leafsetRoot_eq, hshows.header, hshows.next, hshows.utxo, hshows.byte,
    PackedBits.contains_pack, Except.ok.injEq]
  refine ⟨fun hdr hhdr => ?_, fun id u hu => ?_⟩
  · obtain ⟨hroot, hsize, hleafset⟩ := hs.wf.committed hdr hhdr
    exact ⟨hroot, hleafset.symm, hsize.symm⟩
  · exact ⟨hs.wf.utxo_id id u hu, hs.wf.utxo_leaf id u hu, hlive.unspent id u hu,
      fun id' u' hu' hleaf => hlive.leaf_inj id' id u' u hu' hu hleaf⟩

theorem header_commits_pegIn : ∃ undo c,
    emptyCache.applyBlock numberCrypto (.db emptyDB) pegInBlock false = .ok (undo, .cache (.db emptyDB) c) ∧
      (cache (.db emptyDB) c).outputRoot numberCrypto = .ok pegInBlock.header.outputRoot ∧
      ∃ u, (cache (.db emptyDB) c).getUTXO ((numberOutput 11).getOutputID numberCrypto) = .ok (some u) ∧
        u.leafIndex < (cache (.db emptyDB) c).getNextLeafIdx ∧
        PackedBits.contains (cache (.db emptyDB) c).getByte u.leafIndex = true := by
  obtain ⟨undo, c, hfirst, hheader, hcoin, -⟩ := blocks_applied
  have hcommits := (Reachable.applyBlock (.push .empty) hfirst).header_commits
  obtain ⟨-, hleaf, hunspent, -⟩ := hcommits.2 _ _ hcoin
  exact ⟨undo, c, hfirst, (hcommits.1 _ hheader).1, _, hcoin, hleaf, hunspent⟩

end Defcoin.Mweb
