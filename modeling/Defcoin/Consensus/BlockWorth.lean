import Defcoin.Coins.Supply
import Defcoin.Consensus.BlockEffect
import Defcoin.Consensus.Subsidy

/-! # What a connected block adds to the worth of the coins

  A transaction that is not a coinbase adds what it spends less its fee, and the coinbase at most
  the fees and the subsidy. So no block raises what the coins are worth by more than its subsidy.
  BIP30 is not assumed: a block that repeats a transaction may hide a coin, but `worth` still counts
  it.
-/

namespace Defcoin

open Outcome CCoinsViewCache

/-! ### Transactions -/

namespace CCoinsViewCache
variable {s s' : CCoinsViewCache CoinsTable}

theorem spendInputs_fair {vin : List CTxIn} {coins spent : List Coin} (hs : s.Fair)
    (hnd : (vin.map CTxIn.prevout).Nodup) (hholds : s.view.Holds vin coins)
    (h : s.spendInputs vin = .ok (spent, s')) : s'.Fair ∧ s'.worth = s.worth - sumCoins coins := by
  induction vin generalizing s coins spent with
  | nil =>
    cases hholds
    cases h
    exact ⟨hs, by simp⟩
  | cons txin rest ih =>
    rw [List.map_cons, List.nodup_cons] at hnd
    obtain ⟨coin, coins', hcoin, hrest, rfl⟩ := List.forall₂_cons_left_iff.mp hholds
    obtain ⟨hmoved, hfair, hworth, hother⟩ := spendCoin_fair hs hcoin
    rw [spendInputs] at h
    generalize s.spendCoin txin.prevout = r at h hmoved hfair hworth hother
    obtain ⟨found, s₁⟩ := r
    obtain rfl : found = some coin := hmoved
    obtain ⟨⟨_, _⟩, hspend, h⟩ := bind_eq_ok.mp h
    cases h
    -- the other inputs still show their coins
    have hrest' : s₁.view.Holds rest coins' := by
      apply CoinMap.Holds.congr hrest
      intro o ho
      apply hother
      rintro rfl
      exact hnd.1 ho
    obtain ⟨hfair', hworth'⟩ := ih hfair hnd.2 hrest' hspend
    refine ⟨hfair', ?_⟩
    rw [sumCoins_cons]
    omega

theorem addCoinsFrom_fair {tx : CTransaction} {nHeight : BitVec 31} {check : Bool} {i : Nat}
    {vout : List CTxOut} (hs : s.Fair) (hvalues : ∀ out ∈ vout, moneyRange out.nValue = true)
    (h : s.addCoinsFrom tx nHeight check i vout = .ok s') :
    s'.Fair ∧ s'.worth ≤ s.worth + (vout.map CTxOut.nValue).sum := by
  induction vout generalizing s i with
  | nil =>
    cases h
    exact ⟨hs, by simp⟩
  | cons out rest ih =>
    obtain ⟨_, hadd, h⟩ := bind_eq_ok.mp h
    have hout := hvalues out (by simp)
    have hread : s.Reads (if check then s.haveCoin ⟨tx.hash, i⟩ else (tx.isCoinBase, s)).2 := by
      split
      · exact (haveCoin_reads hs.baseUnspent _).2
      · exact Reads.refl s
    obtain ⟨hfair₁, hworth₁, _⟩ := addCoin_fair (hread.fair hs) hout hadd
    obtain ⟨hfair, hworth⟩ := ih hfair₁ (fun o ho => hvalues o (by simp [ho])) h
    refine ⟨hfair, ?_⟩
    rw [hread.worth_eq] at hworth₁
    have hnonneg := (moneyRange_iff.mp hout).1
    have hcoin : (tx.coin nHeight i out).out.nValue = out.nValue := rfl
    rw [List.map_cons, List.sum_cons]
    split at hworth₁ <;> omega

end CCoinsViewCache

section Block
variable {env : Env} {pindex : ChainIndex}

def coinbaseOut (txs : List CTransaction) : Int :=
  ((txs.filter CTransaction.isCoinBase).map CTransaction.valueOut).sum

theorem coinbaseOut_cons (tx : CTransaction) (txs : List CTransaction) :
    coinbaseOut (tx :: txs) = (if tx.isCoinBase then tx.valueOut else 0) + coinbaseOut txs := by
  unfold coinbaseOut
  cases h : tx.isCoinBase <;> simp [h]

variable {r : Connected CoinsTable} {fJustCheck : Bool} {prev : ChainIndex} {txundo : CTxUndo}
  {tx : CTransaction} {block : CBlock} {view view' : UtxoView CoinsTable}

theorem updateCoins_fair {nHeight : BitVec 31} {coins : List Coin} (hs : view.coins.Fair) (htx : tx.Checked)
    (hcb : tx.isCoinBase = true → coins = [])
    (hholds : tx.isCoinBase = false → view.coins.view.Holds tx.vin coins)
    (h : updateCoins env tx view nHeight = .ok (txundo, view')) :
    view'.coins.Fair ∧ view'.coins.worth ≤ view.coins.worth - sumCoins coins + tx.valueOut := by
  obtain ⟨⟨_, c₁⟩, hspend, h⟩ := bind_eq_ok.mp h
  obtain ⟨_, hadd, h⟩ := bind_eq_ok.mp h
  obtain ⟨_, _, h⟩ := bind_eq_ok.mp h
  cases h
  have hspent : c₁.Fair ∧ c₁.worth = view.coins.worth - sumCoins coins := by
    rw [spendTxInputs] at hspend
    cases hc : tx.isCoinBase with
    | true =>
      rw [hc] at hspend
      cases hspend
      rw [hcb hc]
      exact ⟨hs, by simp⟩
    | false =>
      rw [hc] at hspend
      exact spendInputs_fair hs htx.nodup (hholds hc) hspend
  obtain ⟨hfair, hworth⟩ := addCoinsFrom_fair hspent.1 htx.values hadd
  refine ⟨hfair, ?_⟩
  rw [hspent.2] at hworth
  exact hworth

theorem checkInputs_fees {coins' : CCoinsViewCache CoinsTable} {nFees nFees' : Int}
    (hfees : moneyRange nFees = true) (h : checkInputs env pindex view tx nFees = .ok (nFees', coins')) :
    moneyRange nFees' = true := by
  unfold checkInputs at h
  split at h
  · cases h
    exact hfees
  · obtain ⟨⟨_, _⟩, _, h⟩ := bind_eq_ok.mp h
    obtain ⟨_, _, h⟩ := bind_eq_ok.mp h
    obtain ⟨hrange, h⟩ := unless_eq_ok.mp h
    obtain ⟨_, h⟩ := unless_eq_ok.mp h
    cases h
    simpa using hrange

theorem connectTx_fair {c₁ c₂ : CCoinsViewCache CoinsTable} {nFees nFees' : Int} {cost cost' : Nat}
    (hs : view.coins.Fair) (htx : tx.Checked) (hmweb : tx.hasMWEBTx = false)
    (hinputs : checkInputs env pindex view tx nFees = .ok (nFees', c₁))
    (hscripts : checkScripts env pindex c₁ tx cost = .ok (cost', c₂))
    (hupdate : updateCoins env tx { view with coins := c₂ } pindex.index.nHeight = .ok (txundo, view')) :
    view'.coins.Fair ∧ view'.coins.worth ≤ view.coins.worth +
      (if tx.isCoinBase then tx.valueOut else 0) - (nFees' - nFees) := by
  obtain ⟨hreads₁, coins, _, hfee, hcb, hin⟩ := checkInputs_spec hs.baseUnspent hmweb hinputs
  have hreads := hreads₁.trans (checkScripts_spec (hreads₁.baseUnspent hs.baseUnspent) hscripts)
  have hholds : tx.isCoinBase = false → c₂.view.Holds tx.vin coins := by
    intro hc
    rw [hreads.view_eq]
    exact (hin hc).holds
  obtain ⟨hfair, hworth⟩ :=
    updateCoins_fair (hreads.fair hs) htx (fun hc => (hcb hc).1) hholds hupdate
  refine ⟨hfair, ?_⟩
  rw [hreads.worth_eq] at hworth
  cases hc : tx.isCoinBase with
  | true =>
    obtain ⟨rfl, rfl⟩ := hcb hc
    rw [sumCoins_nil] at hworth
    simp only [if_true]
    omega
  | false =>
    -- the fee is what the outputs leave of the inputs
    have hfee' := (hin hc).fee
    simp only [Bool.false_eq_true, if_false]
    omega

theorem connectTxs_fair {txs : List CTransaction} {nFees nFees' : Int} {cost : Nat} {undos : List CTxUndo}
    (hs : view.coins.Fair) (hfees : moneyRange nFees = true)
    (htxs : ∀ tx ∈ txs, tx.Checked ∧ tx.hasMWEBTx = false)
    (h : connectTxs env pindex view nFees cost txs = .ok (nFees', undos, view')) :
    view'.coins.Fair ∧ moneyRange nFees' = true ∧
      view'.coins.worth ≤ view.coins.worth + coinbaseOut txs - (nFees' - nFees) := by
  induction txs generalizing view nFees cost undos with
  | nil =>
    cases h
    exact ⟨hs, hfees, by simp [coinbaseOut]⟩
  | cons tx rest ih =>
    obtain ⟨⟨_, _⟩, hinputs, h⟩ := bind_eq_ok.mp h
    obtain ⟨⟨_, _⟩, hscripts, h⟩ := bind_eq_ok.mp h
    obtain ⟨⟨_, _⟩, hupdate, h⟩ := bind_eq_ok.mp h
    obtain ⟨⟨_, _, _⟩, hrest, h⟩ := bind_eq_ok.mp h
    cases h
    obtain ⟨hchecked, hmweb⟩ := htxs tx (by simp)
    obtain ⟨hfair₁, hworth₁⟩ :=
      connectTx_fair hs hchecked hmweb hinputs hscripts (orFault_eq_ok.mp hupdate)
    obtain ⟨hfair, hrange, hworth⟩ :=
      ih hfair₁ (checkInputs_fees hfees hinputs) (fun t ht => htxs t (by simp [ht])) hrest
    refine ⟨hfair, hrange, ?_⟩
    rw [coinbaseOut_cons]
    omega

/-! ### Blocks -/

theorem checkBIP30_reads {s s' : CCoinsViewCache CoinsTable} (hs : s.BaseUnspent)
    (h : checkBIP30 env prev s block = .ok s') : s.Reads s' := by
  by_cases henforce : enforceBIP30 env prev = true
  · exact (checkBIP30_spec henforce hs h).1
  · rw [checkBIP30, if_neg henforce] at h
    cases h
    exact CCoinsViewCache.Reads.refl s

theorem CBlock.Checked.coinbaseOut_eq (h : block.Checked) {v : Int} (hv : block.coinbaseValueOut = .ok v) :
    coinbaseOut block.vtx = v := by
  obtain ⟨_, txs, hvtx, hcb, hrest⟩ := h.coinbase
  rw [coinbaseValueOut, hvtx] at hv
  obtain ⟨rfl, _, _⟩ := CTransaction.getValueOut_spec hv
  have hnone : txs.filter CTransaction.isCoinBase = [] := by
    rw [List.filter_eq_nil_iff]
    intro tx htx
    simp [hrest tx htx]
  rw [hvtx, coinbaseOut_cons, if_pos hcb, coinbaseOut, hnone]
  simp

theorem updateBlockIndex_amount (hblock : block.Checked) {index index' : CBlockIndex}
    (hindex : moneyRange index.mweb_amount = true) (h : updateBlockIndex block index = .ok index') :
    moneyRange index'.mweb_amount = true := by
  unfold updateBlockIndex at h
  split at h
  · cases h
    exact hindex
  · obtain ⟨hogEx, hget, h⟩ := bind_eq_ok.mp h
    cases hogEx with
    | none =>
      dsimp only at h
      split at h
      · cases h
        exact hindex
      · cases h
    | some pHogEx =>
      dsimp only at h
      split at h
      · cases h
        exact hindex
      · cases h
        -- the HogEx is the last transaction of the block
        have hmem := CBlock.mem_of_getHogEx (orFault_eq_ok.mp hget)
        show moneyRange ((pHogEx.vout.head?.map CTxOut.nValue).getD 0) = true
        cases hvout : pHogEx.vout with
        | nil => decide
        | cons hogAddr rest => exact (hblock.txs pHogEx hmem).1.values hogAddr (by simp [hvout])

theorem connectTail_fair (hs : view.coins.Fair) (hblock : block.Checked)
    (hindex : moneyRange pindex.index.mweb_amount = true)
    (h : connectTail env block pindex prev view fJustCheck = .ok r) :
    r.view.coins.Fair ∧ moneyRange r.index.mweb_amount = true ∧
      r.view.coins.worth ≤ view.coins.worth + getBlockSubsidy env.params pindex.index.nHeight.toNat := by
  obtain ⟨_, hbip30, h⟩ := bind_eq_ok.mp h
  obtain ⟨⟨_, _, view₁⟩, hconn, h⟩ := bind_eq_ok.mp h
  obtain ⟨_, hreward, h⟩ := bind_eq_ok.mp h
  obtain ⟨_, hvalue, h⟩ := bind_eq_ok.mp h
  obtain ⟨hpays, h⟩ := unless_eq_ok.mp h
  obtain ⟨_, h⟩ := unless_eq_ok.mp h
  obtain ⟨⟨_, _⟩, _, h⟩ := bind_eq_ok.mp h
  have hreads := checkBIP30_reads hs.baseUnspent hbip30
  obtain ⟨hfair, _, hworth⟩ := connectTxs_fair (hreads.fair hs) (by decide) hblock.txs hconn
  rw [hblock.coinbaseOut_eq (orFault_eq_ok.mp hvalue), hreads.worth_eq] at hworth
  have heq := toAmount_eq_ok (orFault_eq_ok.mp hreward)
  have hbound : view₁.coins.worth ≤
      view.coins.worth + getBlockSubsidy env.params pindex.index.nHeight.toNat := by omega
  cases fJustCheck with
  | true =>
    cases h
    exact ⟨hfair, hindex, hbound⟩
  | false =>
    obtain ⟨index, hupdate, h⟩ := bind_eq_ok.mp h
    cases h
    exact ⟨hfair, updateBlockIndex_amount hblock hindex hupdate, hbound⟩

/-- **ConnectBlock** adds at most the subsidy, and nothing for a block without a parent. -/
theorem connectBlock_fair (hs : view.coins.Fair) (hindex : moneyRange pindex.index.mweb_amount = true)
    (h : connectBlock env block pindex view fJustCheck = .ok r) :
    r.view.coins.Fair ∧ moneyRange r.index.mweb_amount = true ∧
      r.view.coins.worth ≤ view.coins.worth +
        if pindex.pprev.isSome then getBlockSubsidy env.params pindex.index.nHeight.toNat else 0 := by
  obtain ⟨_, h⟩ := unless_eq_ok.mp h
  obtain ⟨_, hcheck, h⟩ := bind_eq_ok.mp h
  have hreads := getBestBlock_reads view.coins
  generalize view.coins.getBestBlock = best at h hreads
  obtain ⟨best, c₀⟩ := best
  obtain ⟨_, h⟩ := unless_eq_ok.mp h
  have hfair := hreads.fair hs
  have hworth : c₀.worth = view.coins.worth := hreads.worth_eq
  by_cases hgenesis : block.hash = env.params.hashGenesisBlock
  · rw [if_pos hgenesis] at h
    cases h
    have hsubsidy : 0 ≤ getBlockSubsidy env.params pindex.index.nHeight.toNat := halvedSubsidy_nonneg _
    have hle : c₀.worth ≤ view.coins.worth +
        if pindex.pprev.isSome then getBlockSubsidy env.params pindex.index.nHeight.toNat else 0 := by
      split <;> omega
    cases fJustCheck with
    | true => exact ⟨hfair, hindex, hle⟩
    | false => exact ⟨hfair, hindex, hle⟩
  · rw [if_neg hgenesis] at h
    cases hprev : pindex.pprev with
    | none =>
      rw [hprev] at h
      cases h
    | some prev =>
      rw [hprev] at h
      obtain ⟨hfair', hamount, hworth'⟩ :=
        connectTail_fair hfair (checkBlock_spec (mapError_eq_ok.mp hcheck)) hindex h
      refine ⟨hfair', hamount, ?_⟩
      rw [← hworth]
      exact hworth'

end Block

end Defcoin
