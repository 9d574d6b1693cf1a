import Defcoin.Consensus.ConnectBlock
import Defcoin.Framework.WriteLog

/-! # What a connected block does to the coins

  A transaction spends the coins of its inputs and adds a coin for each spendable output. As a log
  of writes this is the same whatever view it is applied to; on the view of a block that is accepted
  with BIP30 enforced, every coin spent is there and every outpoint added is free.
-/

namespace Defcoin

open WriteLog Outcome CCoinsViewCache CTransaction List CTxIn

/-! ### The effect of a transaction -/

/-- The coins of the outputs from index `i` on. -/
def CTransaction.createdFrom (tx : CTransaction) (nHeight : BitVec 31) (i : Nat) :
    List CTxOut → List (COutPoint × Coin)
  | [] => []
  | out :: rest =>
    if out.scriptPubKey.isUnspendable then tx.createdFrom nHeight (i + 1) rest
    else (⟨tx.hash, i⟩, tx.coin nHeight i out) :: tx.createdFrom nHeight (i + 1) rest

def CTransaction.created (tx : CTransaction) (nHeight : BitVec 31) : List (COutPoint × Coin) :=
  tx.createdFrom nHeight 0 tx.vout

/-- A transaction whose inputs spend `coins`. A coinbase spends none. -/
def CTransaction.effect (tx : CTransaction) (nHeight : BitVec 31) (coins : List Coin) :
    Effect COutPoint Coin where
  spends := (tx.vin.map CTxIn.prevout).zip coins
  adds := tx.created nHeight

namespace CTransaction
variable {tx : CTransaction} {nHeight : BitVec 31}

theorem mem_createdFrom {i : Nat} {vout : List CTxOut} {p : COutPoint × Coin}
    (h : p ∈ tx.createdFrom nHeight i vout) :
    ∃ j out, i ≤ j ∧ j < i + vout.length ∧ out ∈ vout ∧ out.scriptPubKey.isUnspendable = false ∧
      p = (⟨tx.hash, j⟩, tx.coin nHeight j out) := by
  induction vout generalizing i with
  | nil => cases h
  | cons out rest ih =>
    have hcases : (out.scriptPubKey.isUnspendable = false ∧ p = (⟨tx.hash, i⟩, tx.coin nHeight i out)) ∨
        p ∈ tx.createdFrom nHeight (i + 1) rest := by
      unfold createdFrom at h
      split at h
      · exact Or.inr h
      · next hspend =>
        rcases mem_cons.mp h with hp | hp
        · exact Or.inl ⟨by simpa using hspend, hp⟩
        · exact Or.inr hp
    rw [length_cons]
    rcases hcases with ⟨hspend, hp⟩ | hp
    · exact ⟨i, out, le_rfl, by omega, mem_cons_self, hspend, hp⟩
    · obtain ⟨j, o, hij, hj, ho, hspend, hp⟩ := ih hp
      exact ⟨j, o, by omega, by omega, mem_cons_of_mem _ ho, hspend, hp⟩

theorem nodup_createdFrom (i : Nat) (vout : List CTxOut) :
    ((tx.createdFrom nHeight i vout).map Prod.fst).Nodup := by
  induction vout generalizing i with
  | nil => exact nodup_nil
  | cons out rest ih =>
    unfold createdFrom
    split
    · exact ih (i + 1)
    · rw [map_cons, nodup_cons]
      refine ⟨?_, ih (i + 1)⟩
      intro hmem
      obtain ⟨_, hp, heq⟩ := mem_map.mp hmem
      obtain ⟨j, _, hij, _, _, _, rfl⟩ := mem_createdFrom hp
      have : j = i := congrArg COutPoint.n heq
      omega

theorem mem_created {p : COutPoint × Coin} (h : p ∈ tx.created nHeight) :
    ∃ j out, j < tx.vout.length ∧ out ∈ tx.vout ∧ out.scriptPubKey.isUnspendable = false ∧
      p = (⟨tx.hash, j⟩, tx.coin nHeight j out) := by
  obtain ⟨j, out, _, hj, ho, hspend, heq⟩ := mem_createdFrom h
  exact ⟨j, out, by omega, ho, hspend, heq⟩

end CTransaction

/-! ### Running the effect on a cache -/

section Cache
variable {B : Type} [CoinsBase B] {m : CoinMap} {coins : List Coin} {vin : List CTxIn}

theorem CoinMap.Holds.length_eq (h : m.Holds vin coins) :
    vin.length = coins.length := List.Forall₂.length_eq h

theorem CoinMap.Holds.mem_zip (h : m.Holds vin coins) {p : COutPoint × Coin}
    (hp : p ∈ (vin.map prevout).zip coins) : m p.1 = some p.2 := by
  induction h with
  | nil => cases hp
  | cons hcoin _ ih =>
    rcases mem_cons.mp hp with rfl | hp
    · exact hcoin
    · exact ih hp

theorem CoinMap.Holds.congr {m' : CoinMap} (h : m.Holds vin coins)
    (heq : ∀ o ∈ vin.map prevout, m' o = m o) : m'.Holds vin coins := by
  induction h with
  | nil => exact .nil
  | @cons txin coin vin coins hcoin htail ih =>
    refine .cons ?_ (ih fun o ho => heq o (mem_cons_of_mem _ ho))
    rw [heq _ mem_cons_self]
    exact hcoin

namespace CCoinsViewCache

theorem spendInputs_spec {s : CCoinsViewCache B} (hs : s.Wf) {vin : List CTxIn} {coins : List Coin}
    (hnd : (vin.map prevout).Nodup) (hholds : s.view.Holds vin coins) :
    ∃ s', s.spendInputs vin = .ok (coins, s') ∧
      Steps s s' (run s.view (deletes (vin.map prevout))) := by
  induction vin generalizing s coins with
  | nil =>
    cases hholds
    exact ⟨s, rfl, Steps.refl hs⟩
  | cons txin rest ih =>
    obtain ⟨coin, coins, rfl⟩ : ∃ c cs, coins = c :: cs := by
      cases hholds
      exact ⟨_, _, rfl⟩
    obtain ⟨hcoin, hrest⟩ := forall₂_cons.mp hholds
    rw [map_cons, nodup_cons] at hnd
    obtain ⟨_, hmoved, hsteps⟩ := spendCoin_spec hs txin.prevout
    have hspent := hmoved coin hcoin
    have hrest' : (s.spendCoin txin.prevout).2.view.Holds rest coins := by
      rw [hsteps.view]
      apply CoinMap.Holds.congr hrest
      intro o ho
      apply CoinMap.set_ne
      rintro rfl
      exact hnd.1 ho
    obtain ⟨s', hok, hsteps'⟩ := ih hsteps.wf hnd.2 hrest'
    refine ⟨s', ?_, ?_⟩
    · rw [spendInputs]
      generalize s.spendCoin txin.prevout = r at hspent hok
      obtain ⟨found, _⟩ := r
      obtain rfl : found = some coin := hspent
      dsimp only
      rw [hok]
      rfl
    · rw [hsteps.view] at hsteps'
      exact hsteps.trans hsteps'

/-- `ConnectBlock` adds without a look at what is there. An accepted transaction that is not a coinbase
    found every outpoint free. -/
theorem addCoinsFrom_spec {tx : CTransaction} {nHeight : BitVec 31} {s s' : CCoinsViewCache B}
    (hs : s.Wf) {i : Nat} {vout : List CTxOut}
    (hcov : tx.isCoinBase = false → ∀ p ∈ tx.createdFrom nHeight i vout, s.Covered p.1)
    (h : s.addCoinsFrom tx nHeight false i vout = .ok s') :
    Steps s s' (run s.view (inserts (tx.createdFrom nHeight i vout))) ∧
      (tx.isCoinBase = false → ∀ p ∈ tx.createdFrom nHeight i vout, s.view p.1 = none) := by
  induction vout generalizing s i with
  | nil =>
    cases h
    exact ⟨Steps.refl hs, fun _ p hp => nomatch hp⟩
  | cons out rest ih =>
    obtain ⟨s₁, hadd, h⟩ := bind_eq_ok.mp h
    simp only [Bool.false_eq_true, if_false] at hadd
    have hunspent := not_isSpent_of_addCoin hadd
    -- the view at this outpoint is free, unless the output is not kept or may overwrite
    have hfree : tx.isCoinBase = false → out.scriptPubKey.isUnspendable = false →
        s.view ⟨tx.hash, i⟩ = none := by
      intro hcb hspend
      rw [hcb] at hadd
      refine view_eq_none_of_addCoin (hcov hcb (⟨tx.hash, i⟩, tx.coin nHeight i out) ?_) hspend hadd
      rw [createdFrom, if_neg (by simp [hspend])]
      exact mem_cons_self
    cases hspend : out.scriptPubKey.isUnspendable with
    | true =>
      have hcreated : tx.createdFrom nHeight i (out :: rest) = tx.createdFrom nHeight (i + 1) rest := by
        rw [createdFrom, if_pos hspend]
      obtain rfl : s = s₁ := by
        have hun : (tx.coin nHeight i out).out.scriptPubKey.isUnspendable = true := hspend
        rw [addCoin, if_neg (by simp [hunspent]), if_pos hun] at hadd
        exact Except.ok.inj hadd
      rw [hcreated] at hcov ⊢
      exact ih hs hcov h
    | false =>
      have hcreated : tx.createdFrom nHeight i (out :: rest) =
          (⟨tx.hash, i⟩, tx.coin nHeight i out) :: tx.createdFrom nHeight (i + 1) rest := by
        rw [createdFrom, if_neg (by simp [hspend])]
      obtain ⟨s₂, hadd', hsteps⟩ := addCoin_spec hs hunspent fun how => hfree how hspend
      obtain rfl : s₂ = s₁ := by
        rw [hadd] at hadd'
        exact (Except.ok.inj hadd').symm
      have hview : s₂.view = s.view.set ⟨tx.hash, i⟩ (some (tx.coin nHeight i out)) := by
        rw [hsteps.view, CoinMap.add]
        have hun : (tx.coin nHeight i out).out.scriptPubKey.isUnspendable = false := hspend
        rw [if_neg (by simp [hun])]
      rw [hcreated] at hcov ⊢
      obtain ⟨hsteps', hfree'⟩ := ih hsteps.wf (fun hcb p hp =>
        hsteps.covered _ (hcov hcb p (mem_cons_of_mem _ hp))) h
      rw [hview] at hsteps' hfree'
      refine ⟨hsteps.trans hsteps', ?_⟩
      intro hcb p hp
      rcases mem_cons.mp hp with rfl | hp
      · exact hfree hcb hspend
      · have hnone := hfree' hcb p hp
        have hne : p.1 ≠ ⟨tx.hash, i⟩ := by
          obtain ⟨j, _, hij, _, _, _, rfl⟩ := mem_createdFrom hp
          intro heq
          have : j = i := congrArg COutPoint.n heq
          omega
        rwa [CoinMap.set_ne _ hne] at hnone

theorem haveAnyCoin_spec {s s' : CCoinsViewCache B} (hs : s.BaseUnspent) {os : List COutPoint}
    (h : s.haveAnyCoin os = (false, s')) : s.Reads s' ∧ ∀ o ∈ os, s.view o = none := by
  induction os generalizing s with
  | nil =>
    cases h
    exact ⟨Reads.refl _, by simp⟩
  | cons o rest ih =>
    obtain ⟨hhave, hreads⟩ := haveCoin_reads hs o
    rw [haveAnyCoin] at h
    split at h
    · cases h
    · next hnot =>
      obtain ⟨hreads', hnone⟩ := ih (hreads.baseUnspent hs) h
      rw [hreads.view_eq] at hnone
      refine ⟨hreads.trans hreads', ?_⟩
      intro k hk
      rcases mem_cons.mp hk with rfl | hk
      · rw [hhave] at hnot
        simpa using hnot
      · exact hnone k hk

end CCoinsViewCache

/-! ### The steps of ConnectBlock -/

variable {env : Env}

/-- What is known of one transaction of an accepted block, over the map before it. -/
structure TxConnected (nHeight : BitVec 31) (m : CoinMap) (tx : CTransaction) (coins : List Coin)
    (txfee : Int) : Prop where
  enabled : (tx.effect nHeight coins).Enabled m
  coinbase : tx.isCoinBase = true → coins = [] ∧ txfee = 0
  inputs : tx.isCoinBase = false → InputsChecked m tx coins txfee

/-- The transactions `txs` lead from `m` to `m'`: the coins each spends, and all fees. -/
inductive TxsConnected (nHeight : BitVec 31) :
    CoinMap → List CTransaction → List (List Coin) → Int → CoinMap → Prop where
  | nil (m : CoinMap) : TxsConnected nHeight m [] [] 0 m
  | cons {m m' : CoinMap} {tx : CTransaction} {coins : List Coin} {txfee fees : Int}
      {txs : List CTransaction} {coinss : List (List Coin)} :
      TxConnected nHeight m tx coins txfee →
      TxsConnected nHeight (run m (tx.effect nHeight coins).log) txs coinss fees m' →
      TxsConnected nHeight m (tx :: txs) (coins :: coinss) (txfee + fees) m'

variable {r : Connected B} {txs : List CTransaction} {nHeight : BitVec 31} {view' : UtxoView B}
  (view : UtxoView B) {tx : CTransaction} {pindex prev : ChainIndex} {block : CBlock}

theorem checkInputs_spec {view : UtxoView B} (hs : view.coins.BaseUnspent) (htx : tx.hasMWEBTx = false)
    {nFees nFees' : Int} {coins' : CCoinsViewCache B}
    (h : checkInputs env pindex view tx nFees = .ok (nFees', coins')) : view.coins.Reads coins' ∧
      ∃ coins txfee, nFees' = nFees + txfee ∧ (tx.isCoinBase = true → coins = [] ∧ txfee = 0) ∧
        (tx.isCoinBase = false → InputsChecked view.coins.view tx coins txfee) := by
  unfold checkInputs at h
  split at h
  · next hcb =>
    cases h
    exact ⟨Reads.refl _, [], 0, by simp, fun _ => ⟨rfl, rfl⟩, by simp [hcb]⟩
  · next hcb =>
    obtain ⟨⟨txfee, _⟩, hcheck, h⟩ := bind_eq_ok.mp h
    obtain ⟨_, hfees, h⟩ := bind_eq_ok.mp h
    obtain ⟨_, h⟩ := unless_eq_ok.mp h
    obtain ⟨hreads, coins, hinputs⟩ := checkTxInputs_spec hs htx (mapError_eq_ok.mp hcheck)
    have haccess := accessCoins_reads (hreads.baseUnspent hs) tx.vin
    obtain ⟨_, h⟩ := unless_eq_ok.mp h
    cases h
    exact ⟨hreads.trans haccess, coins, txfee, toAmount_eq_ok (orFault_eq_ok.mp hfees),
      fun h => absurd h hcb, fun _ => hinputs⟩

theorem checkScripts_spec {s s' : CCoinsViewCache B} (hs : s.BaseUnspent) {cost cost' : Nat}
    (h : checkScripts env pindex s tx cost = .ok (cost', s')) : s.Reads s' := by
  have hread : s.Reads (if tx.isCoinBase then ([], s) else s.accessCoins tx.vin).2 := by
    split
    · exact Reads.refl s
    · exact accessCoins_reads hs tx.vin
  obtain ⟨_, h⟩ := unless_eq_ok.mp h
  obtain ⟨_, h⟩ := unless_eq_ok.mp h
  split at h
  · cases h
  · cases h
    exact hread

theorem updateCoins_spec (hs : view.coins.Wf) (htx : tx.hasMWEBTx = false) {coins : List Coin}
    {txundo : CTxUndo} (hnd : (tx.vin.map prevout).Nodup) (hcb : tx.isCoinBase = true → coins = [])
    (hholds : tx.isCoinBase = false → view.coins.view.Holds tx.vin coins)
    (hcov : ∀ p ∈ tx.created nHeight, view.coins.Covered p.1)
    (hfree : tx.isCoinBase = true → ∀ p ∈ tx.created nHeight, view.coins.view p.1 = none)
    (h : updateCoins env tx view nHeight = .ok (txundo, view')) :
    txundo = ⟨coins⟩ ∧ view'.mwebBase = view.mwebBase ∧ view'.mweb = view.mweb ∧
      Steps view.coins view'.coins
        (run view.coins.view (tx.effect nHeight coins).log) ∧
      (tx.effect nHeight coins).Enabled view.coins.view := by
  have hnone : tx.mweb_tx = none := by simpa [hasMWEBTx] using htx
  obtain ⟨⟨vprevout, c₁⟩, hspend, h⟩ := bind_eq_ok.mp h
  obtain ⟨_, hadd, h⟩ := bind_eq_ok.mp h
  rw [hnone] at h
  cases h
  rw [spendTxInputs] at hspend
  -- first the inputs are spent
  have hspent : vprevout = coins ∧ Steps view.coins c₁
      (run view.coins.view (deletes (tx.effect nHeight coins).spentKeys)) ∧
      (tx.effect nHeight coins).spentKeys.Nodup ∧
      ∀ p ∈ (tx.effect nHeight coins).spends, view.coins.view p.1 = some p.2 := by
    cases hc : tx.isCoinBase with
    | true =>
      rw [hc] at hspend
      cases hspend
      obtain rfl := hcb hc
      refine ⟨rfl, ?_, ?_, ?_⟩ <;> simp [effect, Effect.spentKeys, deletes,
        Steps.refl hs]
    | false =>
      have hh := hholds hc
      rw [hc] at hspend
      obtain ⟨s', hok, hsteps⟩ := spendInputs_spec hs hnd hh
      have hpair : (vprevout, c₁) = (coins, s') := by
        rw [hok] at hspend
        exact (Except.ok.inj hspend).symm
      cases hpair
      have hkeys : (tx.effect nHeight coins).spentKeys = tx.vin.map prevout := by
        exact map_fst_zip (by rw [length_map, hh.length_eq])
      refine ⟨rfl, by rw [hkeys]; exact hsteps, by rw [hkeys]; exact hnd, ?_⟩
      intro p hp
      exact CoinMap.Holds.mem_zip hh hp
  obtain ⟨rfl, hsteps₁, hspent_nodup, hpresent⟩ := hspent
  -- then the outputs are added
  have hcov₁ : ∀ p ∈ tx.created nHeight, c₁.Covered p.1 := fun p hp => hsteps₁.covered _ (hcov p hp)
  obtain ⟨hsteps₂, hfresh⟩ :=
    addCoinsFrom_spec hsteps₁.wf (fun _ => hcov₁) hadd
  rw [hsteps₁.view] at hsteps₂ hfresh
  refine ⟨rfl, rfl, rfl, ?_, hspent_nodup, nodup_createdFrom 0 tx.vout, hpresent, ?_⟩
  · rw [Effect.log, run_append]
    exact hsteps₁.trans hsteps₂
  · intro k hk hnot
    obtain ⟨p, hp, rfl⟩ := mem_map.mp hk
    cases hc : tx.isCoinBase with
    | true => exact hfree hc p hp
    | false =>
      have := hfresh hc p hp
      rwa [run_deletes, if_neg hnot] at this

/-- By induction on the transactions. Only the first may be a coinbase, and the outpoints it adds
    are free. -/
theorem connectTxs_spec {nFees nFees' : Int} {cost : Nat} {undos : List CTxUndo} (hs : view.coins.Wf)
    (htxs : ∀ tx ∈ txs, tx.Checked ∧ tx.hasMWEBTx = false)
    (hcov : ∀ tx ∈ txs, ∀ p ∈ tx.created pindex.index.nHeight, view.coins.Covered p.1)
    (htail : ∀ tx ∈ txs.tail, tx.isCoinBase = false)
    (hfree : ∀ tx ∈ txs.head?, tx.isCoinBase = true → ∀ p ∈ tx.created pindex.index.nHeight, view.coins.view p.1 = none)
    (h : connectTxs env pindex view nFees cost txs = .ok (nFees', undos, view')) :
    view'.mwebBase = view.mwebBase ∧ view'.mweb = view.mweb ∧
      Steps view.coins view'.coins view'.coins.view ∧
      ∃ coinss fees, nFees' = nFees + fees ∧ undos = coinss.map CTxUndo.mk ∧
        TxsConnected pindex.index.nHeight view.coins.view txs coinss fees view'.coins.view := by
  induction txs generalizing view nFees cost undos with
  | nil =>
    cases h
    exact ⟨rfl, rfl, Steps.refl hs, [], 0, by simp, rfl, .nil _⟩
  | cons tx rest ih =>
    obtain ⟨⟨_, _⟩, hinputs, h⟩ := bind_eq_ok.mp h
    obtain ⟨⟨_, c₂⟩, hscripts, h⟩ := bind_eq_ok.mp h
    obtain ⟨⟨_, view₁⟩, hupdate, h⟩ := bind_eq_ok.mp h
    obtain ⟨⟨_, _, _⟩, hrest, h⟩ := bind_eq_ok.mp h
    cases h
    obtain ⟨hchecked, hmweb⟩ := htxs tx (by simp)
    obtain ⟨hreads₁, coins, txfee, hfee, hcb, hin⟩ := checkInputs_spec hs.baseUnspent hmweb hinputs
    have hreads₂ := checkScripts_spec (hreads₁.baseUnspent hs.baseUnspent) hscripts
    have hread := (hreads₁.trans hreads₂).steps hs
    have hholds : tx.isCoinBase = false → c₂.view.Holds tx.vin coins := by
      intro hc
      rw [hread.view]
      exact (hin hc).holds
    obtain ⟨rfl, hbase, hmw, hsteps₃, henabled⟩ :=
      updateCoins_spec { view with coins := c₂ } hread.wf hmweb hchecked.nodup
        (fun hc => (hcb hc).1) hholds (fun p hp => hread.covered _ (hcov tx (by simp) p hp))
        (fun hc p hp => by
          rw [hread.view]
          exact hfree tx (by simp) hc p hp)
        (orFault_eq_ok.mp hupdate)
    have hview := hread.view
    rw [hview] at hsteps₃ henabled
    have hsteps := hread.trans hsteps₃
    obtain ⟨hbase', hmw', hsteps', coinss, fees, hfees, rfl, hconn⟩ :=
      ih view₁ hsteps.wf (fun t ht => htxs t (by simp [ht]))
        (fun t ht p hp => hsteps.covered _ (hcov t (by simp [ht]) p hp))
        (fun t ht => htail t (mem_of_mem_tail ht))
        (fun t ht hc => absurd hc (by simp [htail t (mem_of_mem_head? ht)])) hrest
    rw [hsteps.view] at hconn
    refine ⟨hbase'.trans hbase, hmw'.trans hmw, hsteps.trans hsteps', coins :: coinss, txfee + fees,
      ?_, rfl, .cons ⟨henabled, hcb, hin⟩ hconn⟩
    omega

/-! ### The extension block -/

/-- `MWEB::Node::ConnectBlock` applies the extension block, if there is one. -/
theorem connectMWEBBlock_spec {base : Mweb.CoinsView} {c c' : Mweb.CoinsViewCache}
    {mwundo : Option Mweb.BlockUndo} (h : connectMWEBBlock env block prev base c = .ok (mwundo, c')) :
    (block.mweb_block = none ∧ mwundo = none ∧ c' = c) ∨
      ∃ mweb_block undo base', block.mweb_block = some mweb_block ∧ mwundo = some undo ∧
        c.applyBlock env.crypto base mweb_block (allowHistoricalMetadataMismatch env block) =
          .ok (undo, .cache base' c') := by
  unfold connectMWEBBlock at h
  split at h
  · next hnone =>
    cases h
    exact Or.inl ⟨hnone, rfl, rfl⟩
  · cases h
  · next mweb_block pHogEx hblock hlast =>
    obtain ⟨_, _, h⟩ := bind_eq_ok.mp h
    obtain ⟨_, _, h⟩ := bind_eq_ok.mp h
    obtain ⟨_, _, h⟩ := bind_eq_ok.mp h
    obtain ⟨⟨undo, _⟩, happly, h⟩ := bind_eq_ok.mp h
    obtain ⟨_, h⟩ := unless_eq_ok.mp h
    cases h
    unfold applyMWEBBlock at happly
    split at happly
    · cases happly
    · cases happly
    · cases happly
    · next base' _ happlied =>
      cases happly
      exact Or.inr ⟨mweb_block, undo, base', hblock, rfl, happlied⟩

/-! ### Accepted blocks -/

/-- What is known of a block that passed `CheckBlock`. -/
structure CBlock.Checked (block : CBlock) : Prop where
  coinbase : ∃ cb txs, block.vtx = cb :: txs ∧ cb.isCoinBase = true ∧
    ∀ tx ∈ txs, tx.isCoinBase = false
  size : block.vtx.length * witnessScaleFactor ≤ maxBlockWeight
  txs : ∀ tx ∈ block.vtx, tx.Checked ∧ tx.hasMWEBTx = false

theorem checkTransactions_spec (h : checkTransactions txs = .ok ()) : ∀ tx ∈ txs, tx.Checked := by
  induction txs with
  | nil => simp
  | cons tx rest ih =>
    obtain ⟨_, htx, h⟩ := bind_eq_ok.mp h
    exact forall_mem_cons.mpr ⟨checkTransaction_spec (mapError_eq_ok.mp htx), ih h⟩

theorem checkBlock_spec {fCheckPOW fCheckMerkleRoot : Bool}
    (h : checkBlock env block fCheckPOW fCheckMerkleRoot = .ok ()) : block.Checked := by
  obtain ⟨_, h⟩ := unless_eq_ok.mp h
  obtain ⟨_, h⟩ := unless_eq_ok.mp h
  obtain ⟨_, h⟩ := unless_eq_ok.mp h
  obtain ⟨_, h⟩ := unless_eq_ok.mp h
  obtain ⟨hsize, h⟩ := unless_eq_ok.mp h
  obtain ⟨hfirst, h⟩ := unless_eq_ok.mp h
  obtain ⟨hothers, h⟩ := unless_eq_ok.mp h
  obtain ⟨_, htxs, h⟩ := bind_eq_ok.mp h
  obtain ⟨_, h⟩ := unless_eq_ok.mp h
  simp only [Bool.or_eq_true, decide_eq_true_eq, not_or, not_lt] at hsize
  have hmweb : ∀ tx ∈ block.vtx, tx.hasMWEBTx = false := by
    by_contra hne
    push Not at hne
    obtain ⟨tx, htx, hhas⟩ := hne
    rw [if_pos (any_eq_true.mpr ⟨tx, htx, by simpa using hhas⟩)] at h
    cases h
  refine ⟨?_, hsize.1.2, fun tx htx => ⟨checkTransactions_spec htxs tx htx, hmweb tx htx⟩⟩
  cases hvtx : block.vtx with
  | nil => simp [hvtx] at hfirst
  | cons cb txs =>
    refine ⟨cb, txs, rfl, by simpa [hvtx] using hfirst, ?_⟩
    intro tx htx
    by_contra hne
    apply hothers
    rw [hvtx, any_eq_true]
    exact ⟨tx, htx, by simpa using hne⟩

/-- What `ConnectBlock` did for a block with a parent that it accepted with BIP30 enforced. -/
structure BlockConnected (env : Env) (block : CBlock) (pindex prev : ChainIndex) (view : UtxoView B)
    (r : Connected B) (coinss : List (List Coin)) (fees : Int) : Prop where
  checked : block.Checked
  txs : TxsConnected pindex.index.nHeight view.coins.view block.vtx coinss fees r.view.coins.view
  undo : r.blockundo.vtxundo = (coinss.map CTxUndo.mk).tail
  steps : CCoinsViewCache.Steps view.coins r.view.coins r.view.coins.view
  best : r.view.coins.hashBlock = block.hash
  reward : ∀ cb ∈ block.vtx.head?,
    cb.valueOut ≤ fees + getBlockSubsidy env.params pindex.index.nHeight.toNat
  mwebBase : r.view.mwebBase = view.mwebBase
  mweb : connectMWEBBlock env block prev view.mwebBase view.mweb = .ok (r.blockundo.mwundo, r.view.mweb)
  index : updateBlockIndex block pindex.index = .ok r.index

theorem checkBIP30_spec (henforce : enforceBIP30 env prev = true) {s s' : CCoinsViewCache B}
    (hs : s.BaseUnspent) (h : checkBIP30 env prev s block = .ok s') :
    s.Reads s' ∧ ∀ o ∈ block.outpoints, s.view o = none := by
  rw [checkBIP30, if_pos henforce] at h
  split at h
  · cases h
  · next hfound =>
    cases h
    exact haveAnyCoin_spec hs hfound

theorem connectTail_spec (hs : view.coins.Wf) (hchecked : block.Checked)
    (henforce : enforceBIP30 env prev = true) (hhash : pindex.index.hash = block.hash)
    (h : connectTail env block pindex prev view false = .ok r) :
    ∃ coinss fees, BlockConnected env block pindex prev view r coinss fees := by
  obtain ⟨c₀, hbip30, h⟩ := bind_eq_ok.mp h
  obtain ⟨⟨_, _, _⟩, hconn, h⟩ := bind_eq_ok.mp h
  obtain ⟨_, hreward, h⟩ := bind_eq_ok.mp h
  obtain ⟨_, hvalue, h⟩ := bind_eq_ok.mp h
  obtain ⟨hpays, h⟩ := unless_eq_ok.mp h
  obtain ⟨_, h⟩ := unless_eq_ok.mp h
  obtain ⟨⟨_, _⟩, hmweb, h⟩ := bind_eq_ok.mp h
  obtain ⟨index, hindex, h⟩ := bind_eq_ok.mp h
  cases h
  obtain ⟨cb, txs, hvtx, _, htail⟩ := hchecked.coinbase
  obtain ⟨hreads₀, hnone⟩ := checkBIP30_spec henforce hs.baseUnspent hbip30
  have hsteps₀ := hreads₀.steps hs
  -- BIP30 is enforced, so the outputs of the block are new
  have hfree : ∀ tx ∈ block.vtx, ∀ p ∈ tx.created pindex.index.nHeight, c₀.view p.1 = none := by
    intro tx htx p hp
    rw [hsteps₀.view]
    obtain ⟨j, _, hj, _, _, rfl⟩ := mem_created hp
    exact hnone _ (mem_flatMap.mpr ⟨tx, htx, mem_map.mpr ⟨j, mem_range.mpr hj, rfl⟩⟩)
  obtain ⟨hbase, hmw, hsteps, coinss, fees, hfees, rfl, htxs⟩ :=
    connectTxs_spec { view with coins := c₀ } hsteps₀.wf hchecked.txs
      (fun tx htx p hp => covered_of_view_eq_none hsteps₀.wf (hfree tx htx p hp))
      (by rw [hvtx]; exact htail)
      (fun tx htx _ p hp => hfree tx (mem_of_mem_head? htx) p hp) hconn
  have hview₀ := hsteps₀.view
  rw [hview₀] at htxs
  have hset := setBestBlock_spec hsteps.wf pindex.index.hash
  refine ⟨coinss, fees, hchecked, htxs, rfl, (hsteps₀.trans hsteps).trans hset, hhash, ?_, hbase, ?_,
    hindex⟩
  · intro t ht
    obtain rfl : cb = t := by
      rw [hvtx] at ht
      exact Option.some.inj ht
    have heq := toAmount_eq_ok (orFault_eq_ok.mp hreward)
    rw [orFault_eq_ok, CBlock.coinbaseValueOut, hvtx] at hvalue
    obtain ⟨rfl, _, _⟩ := getValueOut_spec hvalue
    omega
  · rw [hbase, hmw] at hmweb
    exact hmweb

theorem connectBlock_spec {view : UtxoView B} (hs : view.coins.Wf)
    (hgenesis : block.hash ≠ env.params.hashGenesisBlock)
    (henforce : ∀ prev, pindex.pprev = some prev → enforceBIP30 env prev = true)
    (h : connectBlock env block pindex view false = .ok r) :
    ∃ prev coinss fees, pindex.pprev = some prev ∧ pindex.index.hash = block.hash ∧
      BlockConnected env block pindex prev view r coinss fees := by
  obtain ⟨hhash, h⟩ := unless_eq_ok.mp h
  obtain ⟨_, hcheck, h⟩ := bind_eq_ok.mp h
  have hbest := (getBestBlock_reads view.coins).steps hs
  generalize view.coins.getBestBlock = best at h hbest
  obtain ⟨best, c₀⟩ := best
  obtain ⟨_, h⟩ := unless_eq_ok.mp h
  rw [if_neg hgenesis] at h
  cases hprev : pindex.pprev with
  | none =>
    rw [hprev] at h
    cases h
  | some prev =>
    rw [hprev] at h
    obtain ⟨coinss, fees, hconn⟩ := connectTail_spec { view with coins := c₀ } hbest.wf
      (checkBlock_spec (mapError_eq_ok.mp hcheck)) (henforce prev hprev) (not_not.mp hhash) h
    have hview := hbest.view
    exact ⟨prev, coinss, fees, rfl, not_not.mp hhash, hconn.checked, by rw [← hview]; exact hconn.txs,
      hconn.undo, hbest.trans hconn.steps, hconn.best, hconn.reward, hconn.mwebBase, hconn.mweb,
      hconn.index⟩

end Cache

end Defcoin
