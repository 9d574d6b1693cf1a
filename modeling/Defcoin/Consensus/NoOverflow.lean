import Defcoin.Consensus.BlockWorth

/-! # Amounts stay in 64 bits

  Every addition and subtraction of amounts in the block checks has operands in the money range, so
  no result leaves `int64_t`. This does not need the block to be accepted: a value is checked before
  it is added, or it comes from a coin that was checked when it was made.
-/

namespace Defcoin

open Outcome CCoinsViewCache CTransaction

/-- A check that does not end because an amount overflowed. -/
abbrev NoOverflow {R α : Type} (x : Except (Failure R) α) : Prop := Avoids (.fault .int64Overflow) x

theorem noOverflow_orFault {R α : Type} {x : Except Fault α} (hx : Avoids .int64Overflow x) :
    NoOverflow (orFault (R := R) x) :=
  Avoids.mapError (fun _ h => Failure.fault.inj h) hx

theorem noOverflow_unless {R α : Type} {p : Prop} [Decidable p] {result : R} {reason : String}
    {k : PUnit → Except (Failure R) α} {x : Except (Failure R) α} (hx : ¬p → NoOverflow x) :
    NoOverflow (if p then (throw (.invalid result reason) >>= k) else x) :=
  Avoids.unless_throw nofun hx

theorem noOverflow_rejectIf {R : Type} {p : Prop} [Decidable p] {result : R} {reason : String} :
    NoOverflow (if p then throw (.invalid result reason) else pure () : Except (Failure R) Unit) :=
  Avoids.ite nofun nofun

theorem avoids_add {a b : Int} (ha : moneyRange a = true) (hb : moneyRange b = true) :
    Avoids .int64Overflow (toAmount (a + b)) := by
  rw [moneyRange_iff] at ha hb
  rw [toAmount_of_le (by omega) (by omega)]
  exact nofun

theorem avoids_sub {a b : Int} (ha : moneyRange a = true) (hb : moneyRange b = true) :
    Avoids .int64Overflow (toAmount (a - b)) := by
  rw [moneyRange_iff] at ha hb
  rw [toAmount_of_le (by omega) (by omega)]
  exact nofun

/-! ### Transactions -/

theorem checkTransaction_avoids {e : Failure TxValidationResult}
    (he : ∀ result reason, .invalid result reason ≠ e) (tx : CTransaction) : Avoids e (checkTransaction tx) := by
  have hvalues : ∀ vout total, moneyRange total = true → Avoids e (checkOutputValues total vout) := by
    intro vout
    induction vout with
    | nil => exact fun _ _ => nofun
    | cons out rest ih =>
      intro total htotal
      refine .unless_throw (he _ _) fun hneg => ?_
      refine .unless_throw (he _ _) fun hlarge => ?_
      rw [moneyRange_iff] at htotal
      rw [toAmount_of_le (by omega) (by omega)]
      exact .unless_throw (he _ _) fun hnext => ih _ (by simpa using hnext)
  have hreject : ∀ {p : Prop} [Decidable p] {reason : String},
      Avoids e (if p then throw (.invalid .TX_CONSENSUS reason) else pure ()) :=
    .ite (fun _ => .error (he _ _)) nofun
  iterate 3 refine .unless_throw (he _ _) fun _ => ?_
  apply (hvalues tx.vout 0 (by decide)).bind
  intro _ _
  refine .unless_throw (he _ _) fun _ => ?_
  exact .ite (fun _ => hreject) fun _ => hreject

theorem CTransaction.sumValueOut_avoids {total : Int} (htotal : moneyRange total = true)
    (vout : List CTxOut) : Avoids .int64Overflow (sumValueOut total vout) := by
  induction vout generalizing total with
  | nil =>
    rw [sumValueOut, if_pos htotal]
    exact nofun
  | cons out rest ih =>
    refine Avoids.ite nofun fun hout => ?_
    apply (avoids_add htotal (by simpa using hout)).bind
    intro next _
    refine Avoids.ite nofun fun hnext => ?_
    exact ih (by simpa using hnext)

theorem CTransaction.getValueOut_avoids (tx : CTransaction) : Avoids .int64Overflow tx.getValueOut :=
  sumValueOut_avoids (by decide) tx.vout

theorem noOverflow_ofTx {α : Type} {x : TxCheck α} (hx : NoOverflow x) :
    NoOverflow (x.mapError Failure.ofTx) := by
  apply Avoids.mapError _ hx
  intro d hd
  cases d with
  | invalid result reason => cases hd
  | abort message => cases hd
  | fault f =>
    cases hd
    rfl

theorem checkTransactions_noOverflow (txs : List CTransaction) : NoOverflow (checkTransactions txs) := by
  induction txs with
  | nil => exact nofun
  | cons tx rest ih =>
    apply (noOverflow_ofTx (checkTransaction_avoids (by simp) tx)).bind
    intro _ _
    exact ih

theorem checkBlock_noOverflow (env : Env) (block : CBlock) (fCheckPOW fCheckMerkleRoot : Bool) :
    NoOverflow (checkBlock env block fCheckPOW fCheckMerkleRoot) := by
  iterate 7 refine noOverflow_unless fun _ => ?_
  apply (checkTransactions_noOverflow block.vtx).bind
  intro _ _
  refine noOverflow_unless fun _ => ?_
  exact noOverflow_rejectIf

/-! ### Inputs -/

section Inputs
variable {env : Env} {pindex : ChainIndex}
variable {tx : CTransaction} {nSpendHeight : BitVec 31} {s : CCoinsViewCache CoinsTable}

/-- A value is added before its range is checked, but it is the value of a coin. -/
theorem CCoinsViewCache.sumInputs_noOverflow (hs : s.Fair) {total : Int} (htotal : moneyRange total = true)
    (vin : List CTxIn) : NoOverflow (s.sumInputs nSpendHeight total vin) := by
  induction vin generalizing s total with
  | nil => exact nofun
  | cons txin rest ih =>
    obtain ⟨hcoin, hreads⟩ := accessCoin_reads hs.baseUnspent txin.prevout
    rw [sumInputs]
    generalize s.accessCoin txin.prevout = r at hcoin hreads
    obtain ⟨_, _⟩ := r
    apply Avoids.unless_throw (by simp)
    intro hunspent
    refine noOverflow_unless fun _ => ?_
    refine noOverflow_unless fun _ => ?_
    have hrange := CCoinsView.Fair.range hs (hcoin (by simpa using hunspent))
    apply (noOverflow_orFault (avoids_add htotal hrange)).bind
    intro next _
    refine noOverflow_unless fun hnext => ?_
    simp only [Bool.or_eq_true, Bool.not_eq_true', not_or, Bool.not_eq_false] at hnext
    exact ih (hreads.fair hs) hnext.2

theorem checkTxInputs_noOverflow {frozen : List Mweb.Hash} {mweb : Mweb.CoinsView} (hs : s.Fair)
    (htx : tx.hasMWEBTx = false) : NoOverflow (checkTxInputs frozen mweb s tx nSpendHeight) := by
  have hnone : tx.mweb_tx = none := by simpa [hasMWEBTx] using htx
  have hreads := haveInputs_reads hs.baseUnspent mweb tx
  unfold checkTxInputs
  generalize s.haveInputs mweb tx = r at hreads
  obtain ⟨have_inputs, s₁⟩ := r
  have hfair : s₁.Fair := hreads.fair hs
  refine noOverflow_unless fun _ => ?_
  apply (sumInputs_noOverflow hfair (by decide) tx.vin).bind
  rintro ⟨nValueIn, s₂⟩ hsum
  obtain ⟨_, _, _, _, _, hin⟩ := sumInputs_spec hfair.baseUnspent hsum
  apply (noOverflow_orFault tx.getValueOut_avoids).bind
  intro value_out hout
  obtain ⟨_, hrange, _⟩ := getValueOut_spec (orFault_eq_ok.mp hout)
  refine noOverflow_unless fun _ => ?_
  apply (noOverflow_orFault (avoids_sub (hin (by decide)) hrange)).bind
  intro txfee_aux _
  refine noOverflow_unless fun _ => ?_
  rw [hnone]
  exact .ok _

theorem checkInputs_noOverflow {view : UtxoView CoinsTable} (hs : view.coins.Fair)
    (htx : tx.hasMWEBTx = false) {nFees : Int} (hfees : moneyRange nFees = true) :
    NoOverflow (checkInputs env pindex view tx nFees) := by
  refine Avoids.ite nofun fun _ => ?_
  apply (noOverflow_ofTx (checkTxInputs_noOverflow hs htx)).bind
  rintro ⟨txfee, c₁⟩ hcheck
  obtain ⟨_, coins, hinputs⟩ := checkTxInputs_spec hs.baseUnspent htx (mapError_eq_ok.mp hcheck)
  apply (noOverflow_orFault (avoids_add hfees hinputs.fee_range)).bind
  intro fees _
  refine noOverflow_unless fun _ => ?_
  refine noOverflow_unless fun _ => ?_
  exact nofun

theorem checkScripts_noOverflow (s : CCoinsViewCache CoinsTable) (tx : CTransaction) (cost : Nat) :
    NoOverflow (checkScripts env pindex s tx cost) := by
  apply Avoids.unless_throw (by simp)
  intro _
  refine noOverflow_unless fun _ => ?_
  split <;> exact nofun

end Inputs

/-! ### Coins -/

section Coins
variable {env : Env} {pindex : ChainIndex}

theorem CCoinsViewCache.spendInputs_avoids (s : CCoinsViewCache CoinsTable) (vin : List CTxIn) :
    Avoids .int64Overflow (s.spendInputs vin) := by
  induction vin generalizing s with
  | nil => exact .ok _
  | cons txin rest ih =>
    rw [spendInputs]
    split
    · exact .error (by simp)
    · next s₁ _ =>
      apply (ih s₁).bind
      intro _ _
      exact .ok _

theorem CCoinsViewCache.addCoin_avoids (s : CCoinsViewCache CoinsTable) (o : COutPoint) (c : Coin)
    (ow : Bool) : Avoids .int64Overflow (s.addCoin o c ow) := by
  refine Avoids.ite nofun fun _ => ?_
  refine Avoids.ite nofun fun _ => ?_
  exact Avoids.ite nofun nofun

theorem CCoinsViewCache.addCoinsFrom_avoids (tx : CTransaction) (nHeight : BitVec 31) (check : Bool)
    (s : CCoinsViewCache CoinsTable) (i : Nat) (vout : List CTxOut) :
    Avoids .int64Overflow (s.addCoinsFrom tx nHeight check i vout) := by
  induction vout generalizing s i with
  | nil => exact nofun
  | cons out rest ih =>
    apply (addCoin_avoids _ _ _ _).bind
    intro s₁ _
    exact ih s₁ (i + 1)

theorem updateCoins_avoids (view : UtxoView CoinsTable) {tx : CTransaction}
    (htx : tx.hasMWEBTx = false) (nHeight : BitVec 31) :
    Avoids .int64Overflow (updateCoins env tx view nHeight) := by
  have hnone : tx.mweb_tx = none := by simpa [hasMWEBTx] using htx
  have hspend : Avoids .int64Overflow (view.coins.spendTxInputs tx) := by
    refine Avoids.ite (fun _ => .ok _) fun _ => ?_
    exact view.coins.spendInputs_avoids tx.vin
  apply hspend.bind
  rintro ⟨vprevout, c₁⟩ _
  apply (addCoinsFrom_avoids tx nHeight false c₁ 0 tx.vout).bind
  intro c₂ _
  rw [hnone]
  exact .ok _

theorem connectTxs_noOverflow {view : UtxoView CoinsTable} {txs : List CTransaction} {nFees : Int}
    {cost : Nat} (hs : view.coins.Fair) (hfees : moneyRange nFees = true)
    (htxs : ∀ tx ∈ txs, tx.Checked ∧ tx.hasMWEBTx = false) :
    NoOverflow (connectTxs env pindex view nFees cost txs) := by
  induction txs generalizing view nFees cost with
  | nil => exact nofun
  | cons tx rest ih =>
    obtain ⟨hchecked, hmweb⟩ := htxs tx (by simp)
    apply (checkInputs_noOverflow hs hmweb hfees).bind
    rintro ⟨fees₁, c₁⟩ hinputs
    apply (checkScripts_noOverflow c₁ tx cost).bind
    rintro ⟨cost₁, c₂⟩ hscripts
    apply (noOverflow_orFault (updateCoins_avoids _ hmweb _)).bind
    rintro ⟨txundo, view₁⟩ hupdate
    obtain ⟨hfair, _⟩ :=
      connectTx_fair hs hchecked hmweb hinputs hscripts (orFault_eq_ok.mp hupdate)
    apply (ih hfair (checkInputs_fees hfees hinputs) fun t ht => htxs t (by simp [ht])).bind
    exact nofun

end Coins

/-! ### The extension block -/

section Mweb
variable {env : Env} {prev : ChainIndex}

section
variable {amount : Int} (hamount : moneyRange amount = true)
include hamount

theorem sumPegins_noOverflow {vout : List CTxOut} (hvalues : ∀ out ∈ vout, moneyRange out.nValue = true) :
    NoOverflow (sumPegins amount vout) := by
  induction vout generalizing amount with
  | nil => exact nofun
  | cons out rest ih =>
    have hrest : ∀ o ∈ rest, moneyRange o.nValue = true := fun o ho => hvalues o (by simp [ho])
    apply Avoids.ite
    · intro _
      apply (noOverflow_orFault (avoids_add hamount (hvalues out (by simp)))).bind
      intro next _
      refine noOverflow_unless fun hnext => ?_
      exact ih (by simpa using hnext) hrest
    · intro _
      exact ih hamount hrest

theorem sumPegins_range {v : Int} {vout : List CTxOut} (h : sumPegins amount vout = .ok v) :
    moneyRange v = true := by
  induction vout generalizing amount with
  | nil =>
    cases h
    exact hamount
  | cons out rest ih =>
    rw [sumPegins] at h
    split at h
    · obtain ⟨_, _, h⟩ := bind_eq_ok.mp h
      obtain ⟨hnext, h⟩ := unless_eq_ok.mp h
      exact ih (by simpa using hnext) h
    · exact ih hamount h

theorem checkHogExAmounts_noOverflow {mweb_block : Mweb.Block} {pHogEx : CTransaction} :
    NoOverflow (checkHogExAmounts prev mweb_block pHogEx amount) := by
  unfold checkHogExAmounts
  split
  · apply (noOverflow_orFault pHogEx.getValueOut_avoids).bind
    intro value_out hout
    obtain ⟨_, hrange, _⟩ := getValueOut_spec (orFault_eq_ok.mp hout)
    apply (noOverflow_orFault (avoids_sub hamount hrange)).bind
    intro hogex_fee _
    refine noOverflow_unless fun _ => ?_
    split
    · exact nofun
    · exact nofun
    · exact noOverflow_rejectIf
  · exact nofun

end

theorem connectMWEBBlock_noOverflow {block : CBlock} (hblock : block.Checked)
    (hprev : moneyRange prev.index.mweb_amount = true) (base : Mweb.CoinsView)
    (c : Mweb.CoinsViewCache) : NoOverflow (connectMWEBBlock env block prev base c) := by
  unfold connectMWEBBlock
  split
  · exact nofun
  · exact nofun
  · next mweb_block pHogEx _ _ =>
    have hinput : NoOverflow (checkHogExInput env prev pHogEx) := by
      refine Avoids.ite nofun fun _ => ?_
      split
      · exact nofun
      · exact noOverflow_rejectIf
    apply hinput.bind
    intro _ _
    have hvalues : ∀ out ∈ block.innerTxs.flatMap vout, moneyRange out.nValue = true := by
      intro out hout
      obtain ⟨tx, htx, hmem⟩ := List.mem_flatMap.mp hout
      have hvtx : tx ∈ block.vtx := List.mem_of_mem_tail (List.dropLast_subset _ htx)
      exact (hblock.txs tx hvtx).1.values out hmem
    apply (sumPegins_noOverflow hprev hvalues).bind
    intro amount hsum
    apply (checkHogExAmounts_noOverflow (sumPegins_range hprev hsum)).bind
    intro _ _
    have happly : NoOverflow (applyMWEBBlock env block base c mweb_block) := by
      unfold applyMWEBBlock
      split <;> exact nofun
    apply happly.bind
    intro _ _
    refine noOverflow_unless fun _ => ?_
    exact nofun

theorem updateBlockIndex_noOverflow (block : CBlock) (index : CBlockIndex) :
    NoOverflow (updateBlockIndex block index) := by
  unfold updateBlockIndex
  split
  · exact nofun
  · have hget : Avoids .int64Overflow block.getHogEx := by
      unfold CBlock.getHogEx
      split
      · split_ifs <;> exact nofun
      · exact nofun
    apply (noOverflow_orFault hget).bind
    intro hogEx _
    cases hogEx with
    | none => exact Avoids.ite nofun nofun
    | some pHogEx => exact Avoids.ite nofun nofun

end Mweb

/-! ### Blocks -/

section Block
variable {env : Env} {pindex : ChainIndex}
variable {fJustCheck : Bool} {block : CBlock} {view : UtxoView CoinsTable}

theorem connectTail_noOverflow {prev : ChainIndex} (hs : view.coins.Fair) (hblock : block.Checked)
    (hprev : moneyRange prev.index.mweb_amount = true) :
    NoOverflow (connectTail env block pindex prev view fJustCheck) := by
  have hbip30 : NoOverflow (checkBIP30 env prev view.coins block) := by
    refine Avoids.ite (fun _ => ?_) nofun
    split <;> exact nofun
  apply hbip30.bind
  intro c₀ hc₀
  have hfair : c₀.Fair := (checkBIP30_reads hs.baseUnspent hc₀).fair hs
  apply (connectTxs_noOverflow hfair (by decide) hblock.txs).bind
  rintro ⟨nFees, undos, view₁⟩ hconn
  obtain ⟨_, hfees, _⟩ := connectTxs_fair hfair (by decide) hblock.txs hconn
  apply (noOverflow_orFault (avoids_add hfees (getBlockSubsidy_range env.params _))).bind
  intro reward _
  have hvalue : Avoids .int64Overflow block.coinbaseValueOut := by
    unfold CBlock.coinbaseValueOut
    split
    · exact nofun
    · exact getValueOut_avoids _
  apply (noOverflow_orFault hvalue).bind
  intro value_out _
  refine noOverflow_unless fun _ => ?_
  refine noOverflow_unless fun _ => ?_
  apply (connectMWEBBlock_noOverflow hblock hprev _ _).bind
  rintro ⟨mwundo, mweb⟩ _
  refine Avoids.ite nofun fun _ => ?_
  apply (updateBlockIndex_noOverflow block pindex.index).bind
  exact nofun

/-- **ConnectBlock** does not overflow, on any block, if the coins and the amount in the index entry
    of the parent are in range. -/
theorem connectBlock_noOverflow (hs : view.coins.Fair)
    (hprev : ∀ prev, pindex.pprev = some prev → moneyRange prev.index.mweb_amount = true) :
    NoOverflow (connectBlock env block pindex view fJustCheck) := by
  apply Avoids.unless_throw (by simp)
  intro _
  refine (Avoids.mapError ?_ (checkBlock_noOverflow env block _ _)).bind fun _ hok => ?_
  · intro d hd
    split at hd
    · cases hd
    · exact hd
  have hreads := getBestBlock_reads view.coins
  generalize view.coins.getBestBlock = best at hreads
  obtain ⟨best, c₀⟩ := best
  have hfair : c₀.Fair := hreads.fair hs
  apply Avoids.unless_throw (by simp)
  intro _
  refine Avoids.ite (fun _ => .ok _) fun _ => ?_
  split
  · exact .error (by simp)
  · next prev hpprev =>
    exact connectTail_noOverflow hfair (checkBlock_spec (mapError_eq_ok.mp hok)) (hprev prev hpprev)

end Block

end Defcoin
