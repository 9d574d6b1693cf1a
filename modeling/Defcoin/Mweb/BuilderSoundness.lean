import Mathlib.Data.BitVec
import Defcoin.Mweb.Aggregation
import Defcoin.Mweb.BlockBuilder

/-! # Which accepted transactions make a block

  The builder does not compare the inputs, kernels and amounts of the transactions it has accepted
  with each other. `Compatible` says what these have to satisfy, and under it, and only under it, the
  block that `BuildBlock` returns passes `Validate` and is applied to the view.
-/

namespace Defcoin.Mweb

open ByteCodec PostOrder CoinsState Weight BlockBuilder BigInt CurveLaws Output Outcome TxVectors Option

variable {cr : Crypto} {P S : Type} [AddCommGroup P] [AddCommGroup S] {L : CurveLaws cr P S}

/-! ### Kernel offsets -/

def blockOffsetOf (cr : Crypto) (total_offset prev_total_offset : BlindingFactor) :
    Except Error BlindingFactor :=
  if prev_total_offset.isZero then .ok total_offset
  else addBlindingFactors cr [total_offset] [prev_total_offset]

theorem validateForBlock_eq {body : TxBody} {total prev : BlindingFactor} : validateForBlock cr body total prev =
    (blockOffsetOf cr total prev >>= fun offset =>
      match body.getSupplyChange with
      | none => throw (.validation .AMOUNT_OUT_OF_RANGE)
      | some coins => validateSums cr (body.inputs.map Input.commitment)
          (body.outputs.map commitment) (body.kernels.map Kernel.excess) offset coins) := by
  unfold validateForBlock blockOffsetOf
  rcases prev.isZero with - | -
  · rfl
  · rfl

theorem validateForBlock_eq_ok {body : TxBody} {total prev : BlindingFactor} :
    validateForBlock cr body total prev = .ok () ↔ ∃ offset coins,
      blockOffsetOf cr total prev = .ok offset ∧ body.getSupplyChange = some coins ∧
      validateSums cr (body.inputs.map Input.commitment) (body.outputs.map commitment)
        (body.kernels.map Kernel.excess) offset coins = .ok () := by
  rw [validateForBlock_eq, bind_eq_ok]
  refine exists_congr fun offset => ?_
  rcases body.getSupplyChange with - | coins
  · exact iff_of_false (fun h => nomatch h.2) (fun h => nomatch h.choose_spec.2.1)
  · constructor
    · intro h
      exact ⟨coins, h.1, rfl, h.2⟩
    · intro h
      obtain ⟨_, hoffset, hcoins, hsums⟩ := h
      cases hcoins
      exact ⟨hoffset, hsums⟩

/-! ### What the builder has accepted -/

def OffsetValid (L : CurveLaws cr P S) (s : CoinsState) : Prop :=
  ∃ t, L.scalars.decode ((s.header.map Header.kernelOffset).getD zero) = some t

structure Ready (L : CurveLaws cr P S) (s : CoinsState) : Prop where
  live : s.Live
  offset : OffsetValid L s

variable {txs : List Transaction} {c : CoinsViewCache} {base v : CoinsView} {s : CoinsState}

theorem Reachable.ready (L : CurveLaws cr P S) (h : Reachable cr v) : v.Every cr (Ready L) := by
  apply h.every (fun s hs => hs.live)
  · exact ⟨⟨nofun, nofun⟩, 0, L.decode_scalar_zero⟩
  · intro s s' block allow undo hq hlive happlied hsums
    refine ⟨hlive, ?_⟩
    rw [OffsetValid, happlied.header]
    obtain ⟨_, _, hoffset, _, hsums⟩ := validateForBlock_eq_ok.mp hsums
    by_cases hzero : ((s.header.map Header.kernelOffset).getD zero).isZero = true
    · rw [blockOffsetOf, if_pos hzero] at hoffset
      cases hoffset
      obtain ⟨_, ⟨_, _, _, t, _, _, _, ht, _⟩, _⟩ := L.validateSums_eq_ok.mp hsums
      exact ⟨t, (L.scalars.total_singleton _).symm.trans ht⟩
    · rw [blockOffsetOf, if_neg hzero, L.addBlindingFactors_eq_ok] at hoffset
      obtain ⟨t, _, ht, _, _⟩ := hoffset
      exact ⟨t, (L.scalars.total_singleton _).symm.trans ht⟩

/-- What holds of the builder between two transactions. -/
structure Accepted (L : CurveLaws cr P S) (v : CoinsView) (s : CoinsState) (b : BlockBuilder) : Prop where
  coinsView : b.coinsView = .cache v (CoinsViewCache.new v)
  weight : b.weight = calculate (collect b.stagedTxs)
  weight_le : b.weight ≤ Weight.MAX_BLOCK_WEIGHT
  sound : ∀ tx ∈ b.stagedTxs, L.Sound tx
  staged : b.stagedOutputs = (collect b.stagedTxs).getOutputIDs cr
  nodup : ((collect b.stagedTxs).getOutputIDs cr).Nodup
  fresh : ∀ o ∈ (collect b.stagedTxs).outputs, s.utxos (o.getOutputID cr) = none
  funded : ∀ i ∈ (collect b.stagedTxs).inputs,
    s.utxos i.outputID ≠ none ∨ i.outputID ∈ (collect b.stagedTxs).getOutputIDs cr
  sums : b.stagedTxs ≠ [] →
    L.points.total ((collect b.stagedTxs).outputs.map Output.commitment) ≠
      L.points.total ((collect b.stagedTxs).inputs.map Input.commitment)

theorem collect_append (txs : List Transaction) (tx : Transaction) :
    collect (txs ++ [tx]) = ⟨(collect txs).inputs ++ tx.body.inputs,
      (collect txs).outputs ++ tx.body.outputs, (collect txs).kernels ++ tx.body.kernels⟩ := by
  simp [collect]

theorem weight_append (b c : TxVectors) :
    calculate ⟨b.inputs ++ c.inputs, b.outputs ++ c.outputs, b.kernels ++ c.kernels⟩ =
      calculate b + calculate c := by
  simp only [calculate, List.map_append, List.sum_append]
  omega

theorem accepted_new (height : BitVec 31) (v : CoinsView) (s : CoinsState) :
    Accepted L v s (new height v) where
  coinsView := rfl
  weight := rfl
  weight_le := Nat.zero_le _
  sound := by simp [new]
  staged := rfl
  nodup := List.nodup_nil
  fresh := by simp [new, collect]
  funded := by simp [new, collect]
  sums := fun h => absurd rfl h

theorem Accepted.add {b : BlockBuilder} (h : Accepted L v s b) {tx : Transaction} {pegins : List PegInCoin}
    (ha : BlockBuilder.Admitted cr s b tx pegins) :
    Accepted L v s { b with
      stagedTxs := b.stagedTxs ++ [tx]
      weight := b.weight + calculate tx.body.vectors
      stagedOutputs := b.stagedOutputs ++ tx.body.outputs.map (getOutputID cr) } := by
  have hsound := L.sound_of_validate ha.valid
  have hids : (collect (b.stagedTxs ++ [tx])).getOutputIDs cr =
      (collect b.stagedTxs).getOutputIDs cr ++ tx.body.outputs.map (getOutputID cr) := by
    rw [collect_append, getOutputIDs, List.map_append]
    rfl
  refine ⟨h.coinsView, ?_, ?_, ?_, ?_, ?_, ?_, ?_, ?_⟩
  · rw [h.weight, collect_append]
    exact (weight_append (collect b.stagedTxs) tx.body.vectors).symm
  · have := ha.weight
    show b.weight + _ ≤ _
    omega
  · intro tx' htx'
    rcases List.mem_append.mp htx' with htx' | htx'
    · exact h.sound tx' htx'
    · rw [List.mem_singleton.mp htx']
      exact hsound
  · exact (congrArg (· ++ tx.body.outputs.map (getOutputID cr)) h.staged).trans hids.symm
  · rw [hids]
    apply h.nodup.append hsound.valid.outputs
    intro id hid hid'
    obtain ⟨o, ho, rfl⟩ := List.mem_map.mp hid'
    exact (ha.outputs o ho).2 (h.staged ▸ hid)
  · intro o ho
    rw [collect_append] at ho
    rcases List.mem_append.mp ho with ho | ho
    · exact h.fresh o ho
    · exact (ha.outputs o ho).1
  · intro i hi
    rw [collect_append] at hi
    rw [hids, List.mem_append]
    rcases List.mem_append.mp hi with hi | hi
    · rcases h.funded i hi with hcoin | hstaged
      · exact .inl hcoin
      · exact .inr (.inl hstaged)
    · rcases ha.inputs i hi with hcoin | hstaged
      · exact .inl hcoin
      · exact .inr (.inl (h.staged ▸ hstaged))
  · intro _ heq
    obtain ⟨_, hc, hzero⟩ := ha.sums
    obtain ⟨p, n, hp, hn, _, rfl⟩ := L.addCommitments_eq_ok.mp hc
    rw [isZero_eq_false_iff] at hzero
    apply hzero
    -- the same commitments, in the order in which the transactions were accepted
    have hins : (tx.body.inputs ++ (collect b.stagedTxs).inputs).Perm
        (collect (b.stagedTxs ++ [tx])).inputs := by
      rw [collect_append]
      exact List.perm_append_comm
    have houts : (tx.body.outputs ++ (collect b.stagedTxs).outputs).Perm
        (collect (b.stagedTxs ++ [tx])).outputs := by
      rw [collect_append]
      exact List.perm_append_comm
    rw [L.points.total_perm (hins.map _)] at hp
    rw [L.points.total_perm (houts.map _)] at hn
    have hpn : some n = some p := hn.symm.trans (heq.trans hp)
    rw [some.inj hpn, sub_self, L.points_zero]

theorem Accepted.run (hv : v.Shows cr s) {b b' : BlockBuilder} (h : Accepted L v s b)
    {offers : List (Transaction × List PegInCoin)} {answers : List Bool}
    (hrun : (machine cr).run b offers = .ok (answers, b')) :
    Accepted L v s b' ∧ b'.height = b.height := by
  have hstep : ∀ b₁ offer answer b₂, (Accepted L v s b₁ ∧ b₁.height = b.height) →
      (machine cr).step b₁ offer = .ok (answer, b₂) →
      Accepted L v s b₂ ∧ b₂.height = b.height := by
    intro b₁ offer answer b₂ hinv hstep
    have hshows : b₁.coinsView.Shows cr s := by
      rw [hinv.1.coinsView]
      exact (CoinsViewCache.new_over hv).shows hv
    rcases addTransaction_cases hshows hstep with ⟨_, rfl⟩ | ⟨_, hadmitted, rfl⟩
    · exact hinv
    · exact ⟨hinv.1.add hadmitted, hinv.2⟩
  exact Machine.run_keeps hstep offers b answers b' ⟨h, rfl⟩ hrun

/-! ### Compatible transactions -/

/-- The output that an input with this id spends: a coin of the view, or an output of one of the
    transactions. -/
def Funds (cr : Crypto) (v : CoinsView) (txs : List Transaction) (id : Hash) (o : Output) : Prop :=
  (∃ u, v.getUTXO id = .ok (some u) ∧ u.output = o) ∨
    (o ∈ (collect txs).outputs ∧ o.getOutputID cr = id)

/-- What accepted transactions have to satisfy together. -/
structure Compatible (L : CurveLaws cr P S) (v : CoinsView) (txs : List Transaction) : Prop where
  /-- no output is spent twice -/
  spent : (collect txs).getSpentIDs.Nodup
  /-- no kernel occurs twice -/
  kernels : ((collect txs).getKernelIDs cr).Nodup
  /-- together they have no more inputs than a block -/
  count : (collect txs).inputs.length ≤ Weight.MAX_NUM_INPUTS
  /-- inputs repeat the commitment and the key of the outputs they spend -/
  metadata : ∀ i ∈ (collect txs).inputs, ∀ o, Funds cr v txs i.outputID o →
    o.commitment = i.commitment ∧ o.receiverPubKey = i.outputPubKey
  /-- the supply changes stay in range, and the excesses do not cancel out -/
  sums : L.SumsFit txs
  /-- the output MMR does not outgrow its 64-bit size -/
  size : v.getNumLeaves + (collect txs).outputs.length < 2 ^ 64

/-! ### Building -/

theorem CoinsViewCache.buildNextBlock_eq_ok {height : BitVec 31} {built : BuiltBlock}
    (h : c.buildNextBlock cr base height txs = .ok built) :
    ∃ a, aggregate cr txs = .ok a ∧ built.body = a.body ∧
      CoinsViewCache.headerOffset cr c.header a.kernelOffset = .ok built.header.kernelOffset := by
  obtain ⟨a, ha, h⟩ := bind_eq_ok.mp h
  obtain ⟨added, hadded, h⟩ := bind_eq_ok.mp h
  obtain ⟨spent, hspent, h⟩ := bind_eq_ok.mp h
  obtain ⟨_, _, h⟩ := bind_eq_ok.mp h
  obtain ⟨_, _, h⟩ := bind_eq_ok.mp h
  have hheader : spent.header = c.header := by
    rw [CoinsViewCache.spendCoins_eq] at hspent
    rcases hinputs : added.spendInputs base true a.body.inputs with _ | ⟨_, _⟩
    · rw [hinputs] at hspent
      cases hspent
    · rw [hinputs] at hspent
      cases hspent
      exact (CoinsViewCache.spendInputs_header hinputs).trans (CoinsViewCache.addOutputs_header hadded)
  obtain ⟨_, hoffset, h⟩ := bind_eq_ok.mp h
  cases h
  rw [hheader] at hoffset
  exact ⟨a, ha, rfl, hoffset⟩

theorem Added.funded {os : List Output} {s' : CoinsState} (h : Added cr s os s') {id : Hash}
    (hid : s.utxos id ≠ none ∨ id ∈ os.map (getOutputID cr)) : ∃ u, s'.utxos id = some u ∧
      (s.utxos id = some u ∨ (u.output ∈ os ∧ u.output.getOutputID cr = id)) := by
  by_cases hmem : id ∈ os.map (getOutputID cr)
  · obtain ⟨o, ho, rfl⟩ := List.mem_map.mp hmem
    obtain ⟨u, hu, rfl⟩ := h.created o ho
    exact ⟨u, hu, .inr ⟨ho, rfl⟩⟩
  · obtain ⟨u, hu⟩ := ne_none_iff_exists'.mp (hid.resolve_right hmem)
    exact ⟨u, (h.other id hmem).trans hu, .inl hu⟩

/-- The state after the outputs and inputs of a body, with the header unchanged. -/
def CoinsState.after (cr : Crypto) (s : CoinsState) (height : BitVec 31) (b : TxVectors) : CoinsState :=
  (addAll cr (height.setWidth 32) s b.outputs).spendAll b.getSpentIDs

theorem CoinsViewCache.Over.buildNextBlock (h : c.Over cr base s s) (hbase : base.Shows cr s)
    (hs : s.Coherent cr) (hready : Ready L s) (hsound : ∀ tx ∈ txs, L.Sound tx)
    (hnodup : ((collect txs).getOutputIDs cr).Nodup)
    (hfresh : ∀ o ∈ (collect txs).outputs, s.utxos (o.getOutputID cr) = none)
    (hfunded : ∀ i ∈ (collect txs).inputs, s.utxos i.outputID ≠ none ∨ i.outputID ∈ (collect txs).getOutputIDs cr)
    (hspent : (collect txs).getSpentIDs.Nodup) (height : BitVec 31) :
    ∃ a built, aggregate cr txs = .ok a ∧ c.buildNextBlock cr base height txs = .ok built ∧
      built.body = a.body ∧ built.header.height = height ∧
      (s.after cr height a.body).outputRoot cr = .ok built.header.outputRoot ∧
      built.header.leafsetRoot = (s.after cr height a.body).leafsetRoot cr ∧
      built.header.outputMMRSize = BitVec.ofNat 64 (s.after cr height a.body).leaves.length := by
  obtain ⟨a, ha, hperm, _, t, ht, _⟩ := aggregate_eq_ok hsound
  have hids := (hperm.outputs.map _).nodup_iff.mpr hnodup
  obtain ⟨added, hadded, hover⟩ := h.addOutputs_of_fresh hbase (height.setWidth 32) hids
    fun o ho => hfresh o (hperm.outputs.mem_iff.mp ho)
  have hadd := added_addAll (height.setWidth 32) hids
    fun o ho => hfresh o (hperm.outputs.mem_iff.mp ho)
  have hlive : (addAll cr (height.setWidth 32) s a.body.outputs).Live :=
    (addAll_invariant _ hs hready.live fun o ho => by
      obtain ⟨tx, _, ho⟩ := List.mem_flatMap.mp (hperm.outputs.mem_iff.mp ho)
      exact tx.body.outputs_wf o ho).2
  have hpresent : ∀ i ∈ a.body.inputs,
      (addAll cr (height.setWidth 32) s a.body.outputs).utxos i.outputID ≠ none := by
    intro i hi
    obtain ⟨u, hu, _⟩ := hadd.funded ((hfunded i (hperm.inputs.mem_iff.mp hi)).imp_right
      (hperm.outputs.map _).mem_iff.mpr)
    rw [hu]
    exact some_ne_none u
  have hspend : ∃ us spent, added.spendInputs base true a.body.inputs = .ok (us, spent) ∧
      spent.Over cr base s (s.after cr height a.body) :=
    hover.spendInputs_of_live hbase hlive ((hperm.inputs.map _).nodup_iff.mpr hspent) hpresent nofun
  obtain ⟨us, spent, hspend, hover'⟩ := hspend
  have hshows := hover'.shows hbase
  have hcoins : added.spendCoins base a.body.inputs = .ok spent := by
    rw [CoinsViewCache.spendCoins_eq, hspend]
    rfl
  obtain ⟨outputRoot, houtput⟩ := mmrRoot_leafPos cr (CoinsView.cache base spent).getNumLeaves
    (CoinsView.cache base spent).getHash
  obtain ⟨_, hkernel⟩ := mmrRoot_leafPos cr
    (MemMMR.ofLeaves cr (a.body.kernels.map Kernel.serialize)).getNumLeaves
    fun p => ((MemMMR.ofLeaves cr (a.body.kernels.map Kernel.serialize)).getHash p).getD zero
  have hheader : spent.header = s.header := by
    rw [CoinsViewCache.spendInputs_header hspend, CoinsViewCache.addOutputs_header hadded, h.header]
  -- the offset of the previous header is a scalar, so the sum is defined
  have hoffset : ∃ offset, CoinsViewCache.headerOffset cr spent.header a.kernelOffset = .ok offset := by
    rw [hheader]
    obtain ⟨p, hp⟩ := hready.offset
    rcases hprev : s.header with - | _
    · exact ⟨_, rfl⟩
    · rw [hprev] at hp
      exact ⟨_, addBlindingFactors_nil (L.scalars.total_cons_eq_some.mpr
        ⟨p, t, hp, (L.scalars.total_singleton _).trans ht, rfl⟩)⟩
  obtain ⟨offset, hoffset⟩ := hoffset
  have hbuilt : ∃ built, c.buildNextBlock cr base height txs = .ok built ∧ built.body = a.body ∧
      built.header.height = height ∧ built.header.outputRoot = outputRoot ∧
      built.header.leafsetRoot = (CoinsView.cache base spent).leafsetRoot cr ∧
      built.header.outputMMRSize = BitVec.ofNat 64 (CoinsView.cache base spent).getNumLeaves := by
    rw [CoinsViewCache.buildNextBlock, ha]
    simp only [bind, Except.bind, hadded, hcoins, CoinsView.outputRoot, houtput, MemMMR.root,
      MemMMR.getNumNodes, hkernel, hoffset]
    exact ⟨_, rfl, rfl, rfl, rfl, rfl, rfl⟩
  obtain ⟨built, hok, hbody, hheight, hroot, hleafset, hsize⟩ := hbuilt
  refine ⟨a, built, ha, hok, hbody, hheight, ?_, ?_, ?_⟩
  · rw [← hshows.outputRoot_eq, hroot]
    exact houtput
  · rw [hleafset]
    exact hshows.leafsetRoot_eq
  · rw [hsize, hshows.mmr.size]

/-! ### The block and its parts -/

theorem blockOffset_of_header (hready : Ready L s) {offset total : BlindingFactor} {t : S}
    (ht : L.scalars.decode offset = some t) (h : CoinsViewCache.headerOffset cr s.header offset = .ok total) :
    blockOffsetOf cr total ((s.header.map Header.kernelOffset).getD zero) = .ok offset := by
  have hname := L.scalars.decode_eq_some.mp ht
  obtain ⟨p, hp⟩ := hready.offset
  rcases hheader : s.header with - | prev
  · rw [hheader] at h
    cases h
    exact if_pos (isZero_iff _ |>.mpr rfl)
  · rw [hheader] at h hp
    have hsum : L.scalars.total [prev.kernelOffset, offset] = some (p + t) :=
      L.scalars.total_cons_eq_some.mpr ⟨p, t, hp, (L.scalars.total_singleton _).trans ht, rfl⟩
    rw [CoinsViewCache.headerOffset, addBlindingFactors_nil hsum] at h
    cases h
    show blockOffsetOf cr (L.scalars.encode (p + t)) prev.kernelOffset = .ok offset
    unfold blockOffsetOf
    by_cases hzero : prev.kernelOffset = zero
    · have hp0 : p = 0 := by
        have hp' : L.scalars.decode prev.kernelOffset = some p := hp
        rw [hzero, L.decode_scalar_zero] at hp'
        exact (some.inj hp').symm
      rw [if_pos ((isZero_iff _).mpr hzero), hp0, zero_add, hname]
    · rw [if_neg (by simpa using (isZero_eq_false_iff _).mpr hzero), L.addBlindingFactors_eq_ok]
      refine ⟨p + t, p, ?_, (L.scalars.total_singleton _).trans hp, ?_⟩
      · rw [Naming.total_singleton, Naming.decode_encode]
      · rw [add_sub_cancel_left, hname]

section Soundness
variable {base : CoinsView} {c : CoinsViewCache} {s : CoinsState} {b : BlockBuilder}

theorem Accepted.sums_iff {v : CoinsView} (h : Accepted L v s b) (hready : Ready L s) {a : Aggregate}
    (ha : aggregate cr b.stagedTxs = .ok a) (block : Block) (hbody : block.body.vectors = a.body)
    (hoffset : CoinsViewCache.headerOffset cr s.header a.kernelOffset = .ok block.header.kernelOffset) :
    validateForBlock cr block.body block.header.kernelOffset
      ((s.header.map Header.kernelOffset).getD zero) = .ok () ↔ L.SumsFit b.stagedTxs := by
  obtain ⟨_, ha', hperm, hsorted, _, ht, htotal⟩ := CurveLaws.aggregate_eq_ok h.sound
  rw [ha] at ha'
  cases ha'
  have hblock := blockOffset_of_header hready ht hoffset
  have hkernels : Sorting.isSorted (kernelSort cr) a.body.kernels = true := by
    rw [isSorted, Bool.and_eq_true] at hsorted
    exact hsorted.2
  rw [← CurveLaws.sums_iff h.sound hperm hkernels h.sums ht htotal, validateForBlock_eq_ok, ← hbody]
  constructor
  · intro hok
    obtain ⟨_, coins, hoff, hcoins, hsums⟩ := hok
    rw [hblock] at hoff
    cases hoff
    exact ⟨coins, hcoins, hsums⟩
  · intro hok
    obtain ⟨coins, hcoins, hsums⟩ := hok
    exact ⟨a.kernelOffset, coins, hblock, hcoins, hsums⟩

theorem outputs_length_le_maxSize {v : TxVectors} (h : calculate v ≤ Weight.MAX_BLOCK_WEIGHT) :
    v.outputs.length ≤ maxSize := by
  have hout := outputs_length_le v.outputs
  have hmax : Weight.MAX_BLOCK_WEIGHT ≤ maxSize := by decide
  unfold calculate at h
  unfold Weight.BASE_OUTPUT_WEIGHT at hout
  omega

section
variable (h : Accepted L (.cache base c) s b) (hrep : (CoinsView.cache base c).Rep cr s) (hready : Ready L s)
include h hrep hready

omit hready in
theorem Accepted.coinsView_shows : b.coinsView.Shows cr s := by
  rw [h.coinsView]
  exact (CoinsViewCache.new_over hrep.shows).shows hrep.shows

omit hready in
theorem Accepted.aggregated {built : BuiltBlock} (hbuild : b.buildBlock cr = .ok built) :
    ∃ a, aggregate cr b.stagedTxs = .ok a ∧ a.body.Perm (collect b.stagedTxs) ∧ a.body.isSorted cr = true ∧
      built.body = a.body ∧
      CoinsViewCache.headerOffset cr s.header a.kernelOffset = .ok built.header.kernelOffset := by
  obtain ⟨a, ha, hbody, hoffset⟩ := CoinsViewCache.buildNextBlock_eq_ok hbuild
  rw [show (CoinsViewCache.new b.coinsView).header = s.header from (h.coinsView_shows hrep).header] at hoffset
  obtain ⟨_, ha', hperm, hsorted, _⟩ := aggregate_eq_ok h.sound
  rw [ha] at ha'
  cases ha'
  exact ⟨a, ha, hperm, hsorted, hbody, hoffset⟩

theorem Accepted.builds_of_compatible (hcompat : Compatible L (.cache base c) b.stagedTxs) :
    ∃ block : Block, b.buildBlock cr = .ok block.built ∧ block.body.vectors.validate cr = .ok () ∧
      ∃ undo v, c.applyBlock cr base block false = .ok (undo, v) := by
  have hbase := h.coinsView_shows hrep
  obtain ⟨a, built, ha, hbuilt, hbody, hheight, hroot, hleafset, hsize⟩ :=
    (CoinsViewCache.new_over hbase).buildNextBlock hbase hrep.wf.toCoherent hready h.sound h.nodup
      h.fresh h.funded hcompat.spent b.height
  obtain ⟨_, ha', hperm, hsorted, _, hoffset⟩ := h.aggregated hrep hbuilt
  rw [ha] at ha'
  cases ha'
  -- aggregation permutes the staged transactions, so their bounds are bounds of the block
  have hweight : calculate a.body ≤ Weight.MAX_BLOCK_WEIGHT := by
    rw [hperm.weight_eq, ← h.weight]
    exact h.weight_le
  have hcount : a.body.inputs.length ≤ Weight.MAX_NUM_INPUTS := by
    rw [hperm.inputs.length_eq]
    exact hcompat.count
  have hwf : ∀ o ∈ a.body.outputs, o.message.Wf := by
    intro o ho
    obtain ⟨tx, _, ho⟩ := List.mem_flatMap.mp (hperm.outputs.mem_iff.mp ho)
    exact tx.body.outputs_wf o ho
  obtain ⟨hsignatures, hproofs⟩ := verifies_of_perm h.sound hperm
  let body : TxBody :=
    { inputs := a.body.inputs
      outputs := a.body.outputs
      kernels := a.body.kernels
      inputs_size := hcount.trans (by decide)
      outputs_size := outputs_length_le_maxSize hweight
      outputs_wf := hwf }
  have hvectors : body.vectors = a.body := rfl
  have hnodup := (hperm.outputs.map _).nodup_iff.mpr h.nodup
  have hspent := (hperm.inputs.map _).nodup_iff.mpr hcompat.spent
  have hfresh : ∀ o ∈ a.body.outputs, s.utxos (o.getOutputID cr) = none :=
    fun o ho => h.fresh o (hperm.outputs.mem_iff.mp ho)
  refine ⟨⟨built.header, body⟩, ?_, ?_, ?_⟩
  · rw [buildBlock, hbuilt]
    show Except.ok built = Except.ok (BuiltBlock.mk built.header body.vectors)
    rw [hvectors, ← hbody]
  · rw [validate_eq_ok]
    exact ⟨hcount, hweight, hsorted, hspent, hnodup,
      (hperm.kernels.map _).nodup_iff.mpr hcompat.kernels, hsignatures, hproofs⟩
  · have hadd := added_addAll (b.height.setWidth 32) hnodup hfresh
    have hsums := (h.sums_iff hready ha ⟨built.header, body⟩ hvectors hoffset).mpr hcompat.sums
    apply CoinsViewCache.applyBlock_of_next hrep hready.live hsums hnodup hfresh hspent
    · intro input hinput
      have hinput' := hperm.inputs.mem_iff.mp hinput
      rw [hheight]
      obtain ⟨u, hu, hfrom⟩ := hadd.funded ((h.funded input hinput').imp_right (hperm.outputs.map _).mem_iff.mpr)
      refine ⟨u, hu, fun _ => hcompat.metadata input hinput' u.output ?_⟩
      rcases hfrom with hcoin | ⟨ho, hid⟩
      · exact .inl ⟨u, (hrep.shows.utxo _).trans (congrArg Except.ok hcoin), rfl⟩
      · exact .inr ⟨hperm.outputs.mem_iff.mp ho, hid⟩
    -- the header was built from the state that applying the block leads to
    · have hafter : next cr s ⟨built.header, body⟩ =
          { s.after cr b.height a.body with header := some built.header } := by
        unfold next after
        rw [addAll_header, spendAll_header, ← hheight]
        rfl
      have hleaves : (s.after cr b.height a.body).leaves.length =
          s.leaves.length + a.body.outputs.length := by
        unfold after
        rw [spendAll_leaves, hadd.leaves, List.length_append, List.length_map]
      rw [hafter]
      refine ⟨hroot, ?_, hleafset⟩
      rw [hsize, BitVec.toNat_ofNat, hleaves, Nat.mod_eq_of_lt]
      have := hcompat.size
      rw [hrep.shows.mmr.size] at this
      rw [hperm.outputs.length_eq]
      exact this

theorem Accepted.compatible_of_builds {block : Block} {undo : BlockUndo} {v : CoinsView}
    (hbuild : b.buildBlock cr = .ok block.built) (hvalid : block.body.vectors.validate cr = .ok ())
    (happly : c.applyBlock cr base block false = .ok (undo, v)) :
    Compatible L (.cache base c) b.stagedTxs := by
  obtain ⟨_, ha, hperm, _, hvectors, hoffset⟩ := h.aggregated hrep hbuild
  rw [← hvectors] at hperm
  rw [validate_eq_ok] at hvalid
  obtain ⟨_, _, _, _, happlied, _, hsums⟩ := CoinsViewCache.applyBlock_spec hrep happly
  obtain ⟨_, hadded, _, hspent⟩ := happlied.changes
  refine ⟨?_, ?_, ?_, ?_, ?_, ?_⟩
  · exact (hperm.inputs.map _).nodup_iff.mp hvalid.spent
  · exact (hperm.kernels.map _).nodup_iff.mp hvalid.kernels
  · rw [← hperm.inputs.length_eq]
    exact hvalid.count
  · intro i hi o hfunds
    -- the coin that was spent is the one the input was meant for
    have hi' : i ∈ block.body.inputs := hperm.inputs.mem_iff.mpr hi
    obtain ⟨n, hn, rfl⟩ := List.getElem_of_mem hi'
    have hn' := happlied.inputs.length_eq ▸ hn
    obtain ⟨hid, hmatch⟩ := happlied.inputs.get hn hn'
    have hpresent := hspent.present _ (List.getElem_mem hn')
    obtain ⟨hcommit, hkey⟩ := hmatch rfl
    have hout : (undo.coinsSpent[n]).output = o := by
      rcases hfunds with ⟨u, hu, rfl⟩ | ⟨ho, hoid⟩
      · have hcoin := Except.ok.inj ((hrep.shows.utxo _).symm.trans hu)
        have hnotin : (block.body.inputs[n]).outputID ∉ block.body.outputs.map (getOutputID cr) := by
          intro hmem
          obtain ⟨o', ho', hid'⟩ := List.mem_map.mp hmem
          have := hadded.fresh o' ho'
          rw [hid'] at this
          exact some_ne_none u (hcoin.symm.trans this)
        have hsm := hadded.other _ hnotin
        rw [show (undo.coinsSpent[n]).getOutputID cr = (block.body.inputs[n]).outputID from hid, hsm]
          at hpresent
        have : some u = some undo.coinsSpent[n] := hcoin.symm.trans hpresent
        rw [← some.inj this]
      · have ho' := hperm.outputs.mem_iff.mpr ho
        obtain ⟨u, hu, hout⟩ := hadded.created o ho'
        rw [show (undo.coinsSpent[n]).getOutputID cr = (block.body.inputs[n]).outputID from hid, ← hoid,
          hu] at hpresent
        rw [← some.inj hpresent]
        exact hout
    rw [← hout]
    exact ⟨hcommit, hkey⟩
  · exact (h.sums_iff hready ha block hvectors hoffset).mp hsums
  · have hsize := (happlied.wf.committed _ happlied.header).size
    rw [hspent.leaves, hadded.leaves, List.length_append, List.length_map] at hsize
    rw [hrep.shows.mmr.size, ← hperm.outputs.length_eq]
    show s.leaves.length + block.body.outputs.length < 2 ^ 64
    have : s.leaves.length + block.body.outputs.length = block.header.outputMMRSize.toNat := hsize.symm
    omega

end

/-- **Soundness of the builder**: over every reachable view, whatever is offered, the block made of
    the accepted transactions is built, valid and applied exactly when these are compatible. -/
theorem builtBlock_applies_iff (L : CurveLaws cr P S) (hreach : Reachable cr (.cache base c))
    (height : BitVec 31) (offers : List (Transaction × List PegInCoin)) {answers : List Bool}
    (hrun : (machine cr).run (new height (.cache base c)) offers =
      .ok (answers, b)) :
    (∃ block : Block, b.buildBlock cr = .ok block.built ∧ block.body.vectors.validate cr = .ok () ∧
      ∃ undo v, c.applyBlock cr base block false = .ok (undo, v)) ↔
    Compatible L (.cache base c) b.stagedTxs := by
  obtain ⟨s, hrep, hready⟩ := (hreach.ready L).top
  have hnew : Accepted L (.cache base c) s (new height (.cache base c)) :=
    accepted_new height (.cache base c) s
  obtain ⟨haccepted, _⟩ := hnew.run hrep.shows hrun
  constructor
  · intro h
    obtain ⟨block, hbuild, hvalid, undo, v, happly⟩ := h
    exact haccepted.compatible_of_builds hrep hready hbuild hvalid happly
  · intro h
    exact haccepted.builds_of_compatible hrep hready h

end Soundness

/-! ### A transaction that spends the same output twice -/

def pegInTx : Transaction := ⟨zero, zero, pegInBody⟩

/-- The first of these outputs is spent and 5 coins are pegged out. -/
def pegOutTx : Transaction where
  kernelOffset := zero
  stealthOffset := zero
  body :=
    { inputs := [numberInput 11]
      outputs := []
      kernels := [numberKernel none [⟨5, [0x51]⟩] (-6)]
      inputs_size := spendBody.inputs_size
      outputs_size := Nat.zero_le _
      outputs_wf := numberOutput_wf [] }

def pegInCoin : PegInCoin := ⟨10, (numberKernel (some 10) [] 13).getKernelID numberCrypto⟩

def emptyBuilder : BlockBuilder := new 1 (.cache (.db emptyDB) emptyCache)

theorem pegs_compatible :
    Compatible numberLaws (.cache (.db emptyDB) emptyCache) [pegInTx, pegOutTx] where
  spent := by decide +kernel
  kernels := by decide +kernel
  count := by decide
  metadata := by
    -- nothing is in the view, and the input finds the first of the outputs
    intro i hi o ho
    have hall : ∀ i ∈ (collect [pegInTx, pegOutTx]).inputs, ∀ o ∈ (collect [pegInTx, pegOutTx]).outputs,
        o.getOutputID numberCrypto = i.outputID →
          o.commitment = i.commitment ∧ o.receiverPubKey = i.outputPubKey := by
      decide +kernel
    rcases ho with ⟨u, hu, -⟩ | ⟨hmem, hid⟩
    · cases hu
    · exact hall i hi o hmem hid
  sums :=
    { increase := by decide +kernel
      decrease := by decide +kernel
      excess := by
        decide +kernel
      offset := by
        intro e t _ ht hne
        exact absurd (some.inj ht).symm hne }
  size := by decide +kernel

/-- A peg-in and a peg-out that spends one of its outputs are accepted, built and applied. -/
theorem builtBlock_applies_iff_pegs :
    ∃ b, (machine numberCrypto).run emptyBuilder [(pegInTx, [pegInCoin]), (pegOutTx, [])] = .ok ([true, true], b) ∧
      ∃ block : Block, b.buildBlock numberCrypto = .ok block.built ∧
        block.body.vectors.validate numberCrypto = .ok () ∧
        ∃ undo v, emptyCache.applyBlock numberCrypto (.db emptyDB) block false = .ok (undo, v) := by
  have hstep : ∃ b, (machine numberCrypto).run emptyBuilder [(pegInTx, [pegInCoin]), (pegOutTx, [])] =
      .ok ([true, true], b) ∧ b.stagedTxs = [pegInTx, pegOutTx] := by
    exact ⟨_, rfl, rfl⟩
  obtain ⟨b, hrun, hstagedTxs⟩ := hstep
  refine ⟨b, hrun, ?_⟩
  apply (builtBlock_applies_iff numberLaws (.push .empty) 1 _ hrun).mpr
  rw [hstagedTxs]
  exact pegs_compatible

/-- The same transaction is offered and accepted twice, and then no block can be built. -/
theorem twiceOffered_not_built :
    Reachable numberCrypto (.cache (.db emptyDB) emptyCache) ∧
      ((machine numberCrypto).run emptyBuilder
          [(pegInTx, [pegInCoin]), (pegOutTx, []), (pegOutTx, [])]).map
        (fun r => (r.1, (r.2.buildBlock numberCrypto).map fun _ => ())) =
      .ok ([true, true, true], .error (.validation .UTXO_MISSING)) :=
  ⟨.push .empty, by decide +kernel⟩

end Defcoin.Mweb
