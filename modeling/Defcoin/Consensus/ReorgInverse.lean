import Defcoin.Consensus.DisconnectEffect
import Defcoin.Coins.CacheRefinement
import Defcoin.Mweb.Reorg

/-! # Disconnecting the block just connected

  A block that `ConnectBlock` accepted is disconnected with undo data that was written and read
  back. The verdict is always DISCONNECT_OK. The undo format has no room for the pegout flag, so the
  coins are exactly those before the block if and only if the block spent no pegout coin of theirs.
-/

namespace Defcoin

open WriteLog ByteCodec CCoinsViewCache List Coin

/-! ### The transactions of an accepted block -/

section Txs
variable {nHeight : BitVec 31} {m m' : CoinMap} {txs : List CTransaction}
  {coinss : List (List Coin)} {fees : Int}

section
variable (h : TxsConnected nHeight m txs coinss fees m')
include h

theorem TxsConnected.forall₂ (hm : m.Sound) (hh : nHeight ≠ 0)
    (hvalues : ∀ tx ∈ txs, ∀ out ∈ tx.vout, moneyRange out.nValue = true) :
    List.Forall₂ (fun tx coins => ∃ m₁ txfee, CoinMap.Sound m₁ ∧
      TxConnected nHeight m₁ tx coins txfee) txs coinss := by
  induction h with
  | nil m => exact .nil
  | cons htx _ ih =>
    refine .cons ⟨_, _, hm, htx⟩ (ih ?_ ?_)
    · exact hm.run_effect hh (hvalues _ (by simp)) _
    · exact fun t ht => hvalues t (by simp [ht])

theorem TxsConnected.forall_coins {P : Coin → Prop} (hm : ∀ o c, m o = some c → P c)
    (hnew : ∀ tx ∈ txs, ∀ p ∈ tx.created nHeight, P p.2) : ∀ o c, m' o = some c → P c := by
  induction h with
  | nil m => exact hm
  | cons htx _ ih =>
    apply ih
    · exact CoinMap.forall_run_effect hm (hnew _ (by simp)) _
    · exact fun t ht => hnew t (by simp [ht])

theorem TxsConnected.length_eq : txs.length = coinss.length := by
  induction h with
  | nil m => rfl
  | cons _ _ ih => simp [ih]

end

theorem Coin.forgetPegout_eq_self (c : Coin) : c.forgetPegout = c ↔ c.fPegout = false := by
  obtain ⟨_, _, height, _⟩ := c
  simp [forgetPegout]

theorem TxConnected.sound_coins {tx : CTransaction} {coins : List Coin} {txfee : Int}
    (h : TxConnected nHeight m tx coins txfee) (hm : m.Sound) : ∀ c ∈ coins, c.Sound := by
  intro c hc
  cases hcb : tx.isCoinBase with
  | true =>
    rw [(h.coinbase hcb).1] at hc
    cases hc
  | false =>
    have hholds := (h.inputs hcb).holds
    obtain ⟨txin, hpair⟩ : ∃ txin, (txin, c) ∈ tx.vin.zip coins := by
      obtain ⟨i, hi, rfl⟩ := mem_iff_getElem.mp hc
      have hi' : i < tx.vin.length := by rw [hholds.length_eq]; exact hi
      exact ⟨tx.vin[i], mem_iff_getElem.mpr ⟨i, by simp; omega, by simp⟩⟩
    have := (forall₂_iff_zip.mp hholds).2 hpair
    exact hm _ c this

section
variable
  (h : List.Forall₂ (fun tx coins => ∃ m₁ txfee, CoinMap.Sound m₁ ∧ TxConnected nHeight m₁ tx coins txfee) txs coinss)
include h

theorem undoFor_inputs (htxs : ∀ tx ∈ txs, tx.isCoinBase = false) :
    List.Forall₂ (fun p u => UndoFor p.1 p.2 u) (txs.zip coinss)
      (coinss.map ((some ∘ CTxUndo.forgetPegout) ∘ CTxUndo.mk)) := by
  induction h with
  | nil => exact .nil
  | @cons tx coins txs coinss htx _ ih =>
    obtain ⟨_, _, _, hconn⟩ := htx
    refine .cons (.inputs ?_) (ih fun t ht => htxs t (by simp [ht]))
    exact ((hconn.inputs (htxs tx (by simp))).holds.length_eq).symm

def spentOutpoints (nHeight : BitVec 31) (txs : List CTransaction) (coinss : List (List Coin)) :
    List COutPoint :=
  (txs.zip coinss).flatMap fun p => (p.1.effect nHeight p.2).spentKeys

theorem mem_spentOutpoints {o : COutPoint} : o ∈ spentOutpoints nHeight txs coinss ↔
      ∃ tx ∈ txs, tx.isCoinBase = false ∧ o ∈ tx.vin.map CTxIn.prevout := by
  induction h with
  | nil => simp [spentOutpoints]
  | @cons tx coins txs coinss htx _ ih =>
    obtain ⟨_, _, _, hconn⟩ := htx
    have hkeys : o ∈ (tx.effect nHeight coins).spentKeys ↔
        tx.isCoinBase = false ∧ o ∈ tx.vin.map CTxIn.prevout := by
      cases hcb : tx.isCoinBase with
      | true => simp [(hconn.coinbase hcb).1, CTransaction.effect, Effect.spentKeys]
      | false =>
        have hlen := (hconn.inputs hcb).holds.length_eq
        have heq : (tx.effect nHeight coins).spentKeys = tx.vin.map CTxIn.prevout :=
          map_fst_zip (by rw [length_map, hlen])
        simp [heq]
    rw [spentOutpoints, zip_cons_cons, flatMap_cons, mem_append, hkeys, ← spentOutpoints, ih]
    simp

end

variable {B : Type} [CoinsBase B]

/-- **All transactions**, the last first. By induction forward along the block: undoing it makes the
    same writes on every view. -/
theorem TxsConnected.disconnect (h : TxsConnected nHeight m txs coinss fees m') (hm : m.Sound)
    (hh : nHeight ≠ 0) (hvalues : ∀ tx ∈ txs, ∀ out ∈ tx.vout, moneyRange out.nValue = true)
    {us : List (Option CTxUndo)}
    (hus : List.Forall₂ (fun p u => UndoFor p.1 p.2 u) (txs.zip coinss) us) :
    ∃ log, (∀ ks n, Forgets forgetPegout ks m' n →
        Forgets forgetPegout (spentOutpoints nHeight txs coinss ++ ks) m (run n log)) ∧
      ∀ (s : CCoinsViewCache B) (fClean : Bool), s.Wf →
        ∃ fClean' s', s.disconnectTxs nHeight fClean (txs.zip us).reverse = .ok (fClean', s') ∧
          Steps s s' (run s.view log) ∧ ∀ ks, Forgets forgetPegout ks m' s.view → fClean' = fClean := by
  induction h generalizing us with
  | nil m =>
    exact ⟨[], fun ks n hn => by simpa [spentOutpoints] using hn,
      fun s fClean hs => ⟨fClean, s, rfl, Steps.refl hs, fun _ _ => rfl⟩⟩
  | @cons m m' tx coins txfee fees txs coinss htx _ ih =>
    obtain ⟨u, _, hu, hus', rfl⟩ := forall₂_cons_left_iff.mp hus
    obtain ⟨log, hlog, hundo⟩ := ih (hm.run_effect hh (hvalues _ (by simp)) _)
      (fun t ht => hvalues t (by simp [ht])) hus'
    refine ⟨log ++ (tx.effect nHeight coins).undoLog forgetPegout, fun ks n hn => ?_, fun s fClean hs => ?_⟩
    · rw [run_append]
      simpa [spentOutpoints] using (hlog ks n hn).undo htx.enabled
    -- the later transactions are undone first
    · obtain ⟨fClean₁, _, hok₁, hsteps₁, hclean₁⟩ := hundo s fClean hs
      obtain ⟨fClean₂, s₂, hok₂, hsteps₂, hclean₂⟩ :=
        disconnectTx_spec hsteps₁.wf fClean₁ (htx.sound_coins hm) hu
      refine ⟨fClean₂, s₂, ?_, ?_, fun ks hks => ?_⟩
      · rw [zip_cons_cons, reverse_cons, disconnectTxs_append hok₁, disconnectTxs, hok₂]
        rfl
      · rw [hsteps₁.view] at hsteps₂
        rw [run_append]
        exact hsteps₁.trans hsteps₂
      · have hforget := hlog ks _ hks
        rw [← hsteps₁.view] at hforget
        rw [hclean₂ m _ htx.enabled hforget, hclean₁ ks hks]

end Txs

/-! ### Views -/

variable {B : Type} [CoinsBase B]

/-- What holds of the view that blocks are connected to: its layers are in order, every coin is sound,
    and the extension block's layers represent a state. -/
structure UtxoView.Wf (env : Env) (view : UtxoView B) : Prop where
  coins : view.coins.Wf
  sound : view.coins.view.Sound
  mweb : ∃ s, view.mwebView.Rep env.crypto s

variable {env : Env} {block : CBlock} {pindex prev : ChainIndex} {view : UtxoView B}
  {r : Connected B} {coinss : List (List Coin)} {fees : Int}

theorem connectMWEBBlock_undo {base : Mweb.CoinsView} {c c' : Mweb.CoinsViewCache}
    {mwundo : Option Mweb.BlockUndo} {s : Mweb.CoinsState}
    (hrep : (Mweb.CoinsView.cache base c).Rep env.crypto s)
    (h : connectMWEBBlock env block prev base c = .ok (mwundo, c')) :
    (∃ s', (Mweb.CoinsView.cache base c').Rep env.crypto s') ∧
      ∀ undo, mwundo = some undo → undo.Wf ∧ ∃ c'', c'.undoBlock env.crypto base undo = .ok c'' := by
  rcases connectMWEBBlock_spec h with ⟨_, rfl, rfl⟩ | ⟨_, undo, _, _, rfl, happly⟩
  · refine ⟨⟨s, hrep⟩, ?_⟩
    intro undo hundo
    cases hundo
  · obtain ⟨s', _, hv, hrep', happlied, _⟩ := Mweb.CoinsViewCache.applyBlock_spec hrep happly
    cases hv
    refine ⟨⟨s', hrep'⟩, ?_⟩
    intro undo' hundo
    cases hundo
    obtain ⟨_, _, hbase, hover⟩ := hrep'
    obtain ⟨c'', hok, _⟩ := hover.undoBlock hbase.shows hrep.wf happlied
    exact ⟨happlied.undo_wf, c'', hok⟩

theorem BlockConnected.values (h : BlockConnected env block pindex prev view r coinss fees) :
    ∀ tx ∈ block.vtx, ∀ out ∈ tx.vout, moneyRange out.nValue = true :=
  fun tx htx => (h.checked.txs tx htx).1.values

/-! ### The undo data of an accepted block -/

section
variable (h : BlockConnected env block pindex prev view r coinss fees)
include h

theorem BlockConnected.undo_cons :
    ∃ cb txs coinss', block.vtx = cb :: txs ∧ coinss = [] :: coinss' ∧
      r.blockundo.vtxundo = coinss'.map CTxUndo.mk ∧ cb.isCoinBase = true ∧
      ∀ tx ∈ txs, tx.isCoinBase = false := by
  obtain ⟨cb, txs, hvtx, hcb, htxs⟩ := h.checked.coinbase
  have hconn := h.txs
  rw [hvtx] at hconn
  cases hconn with
  | cons htx _ =>
    obtain ⟨rfl, _⟩ := htx.coinbase hcb
    exact ⟨cb, txs, _, hvtx, rfl, h.undo, hcb, htxs⟩

theorem BlockConnected.undoFor (hsound : view.coins.view.Sound) (hh : pindex.index.nHeight ≠ 0) :
    List.Forall₂ (fun p u => UndoFor p.1 p.2 u) (block.vtx.zip coinss)
      (none :: (r.blockundo.vtxundo.map CTxUndo.forgetPegout).map some) := by
  obtain ⟨_, txs, _, hvtx, rfl, hundo, _, htxs⟩ := h.undo_cons
  have hall := h.txs.forall₂ hsound hh h.values
  rw [hvtx] at hall
  rw [hvtx, hundo, map_map, map_map]
  exact .cons (.coinbase rfl) (undoFor_inputs (forall₂_cons.mp hall).2 htxs)

theorem BlockConnected.undo_length :
    (r.blockundo.vtxundo.map CTxUndo.forgetPegout).length + 1 = block.vtx.length := by
  obtain ⟨_, txs, _, hvtx, rfl, hundo, _, _⟩ := h.undo_cons
  have hlen := h.txs.length_eq
  rw [hvtx] at hlen
  rw [hvtx, hundo]
  simpa using hlen.symm

/-- The size limits of the block are far below what a vector may have, and every coin spent was in
    range. -/
theorem BlockConnected.storable (hsound : view.coins.view.Sound) (hh : pindex.index.nHeight ≠ 0)
    (hmweb : ∀ mwundo, r.blockundo.mwundo = some mwundo → mwundo.Wf) : r.blockundo.Storable := by
  obtain ⟨_, txs, _, hvtx, rfl, hundo, hcb, htxs⟩ := h.undo_cons
  have hall := h.txs.forall₂ hsound hh h.values
  have hlen := h.txs.length_eq
  have hsize := h.checked.size
  rw [hvtx] at hall hlen hsize
  simp only [length_cons, witnessScaleFactor, maxBlockWeight] at hlen hsize
  refine ⟨?_, ?_, hmweb⟩
  · rw [hundo, length_map, maxSize]
    omega
  · intro tx htx
    rw [hundo] at htx
    obtain ⟨coins, hcoins, rfl⟩ := mem_map.mp htx
    -- the transaction that spent these coins
    obtain ⟨t, ht, m₁, txfee, hm₁, hconn⟩ : ∃ t ∈ txs, ∃ m₁ txfee, CoinMap.Sound m₁ ∧
        TxConnected pindex.index.nHeight m₁ t coins txfee := by
      have htail := (forall₂_cons.mp hall).2
      obtain ⟨i, hi, rfl⟩ := mem_iff_getElem.mp hcoins
      have hi' : i < txs.length := by omega
      exact ⟨txs[i], getElem_mem _, List.Forall₂.get htail hi' hi⟩
    have hin := hconn.inputs (htxs t ht)
    have htx := (h.checked.txs t (by rw [hvtx]; exact mem_cons_of_mem _ ht)).1
    have hvin := t.vin_length_le_serializeSize
    have hweight := htx.size
    simp only [witnessScaleFactor, maxBlockWeight] at hweight
    refine ⟨?_, ?_⟩
    · rw [← hin.holds.length_eq, maxSize]
      omega
    · intro c hc
      have hscript := (hconn.sound_coins hm₁ c hc).spendable
      simp only [CScript.isUnspendable, Bool.or_eq_false_iff, decide_eq_false_iff_not, not_lt] at hscript
      exact ⟨hin.values c hc, hscript.2⟩

/-! ### The inverse -/

theorem BlockConnected.disconnect (hview : view.Wf env) (hprev : pindex.pprev = some prev)
    (hh : pindex.index.nHeight ≠ 0) {mwundo : Option Mweb.BlockUndo}
    (hmw : mwundo = r.blockundo.mwundo ∨ mwundo = none) : ∃ view', disconnectBlock env block pindex
        (some ⟨r.blockundo.vtxundo.map CTxUndo.forgetPegout, mwundo⟩) r.view =
          .ok (.DISCONNECT_OK, view') ∧ view'.coins.Wf ∧
      Forgets forgetPegout (spentOutpoints pindex.index.nHeight block.vtx coinss)
        view.coins.view view'.coins.view := by
  obtain ⟨_, hlog, hundo⟩ := h.txs.disconnect (B := B) hview.sound hh h.values (h.undoFor hview.sound hh)
  obtain ⟨_, s', hok, hsteps, hclean⟩ := hundo r.view.coins true h.steps.wf
  have hleft := Forgets.refl forgetPegout r.view.coins.view
  obtain rfl := hclean [] hleft
  have hforget := hlog [] _ hleft
  rw [append_nil, ← hsteps.view] at hforget
  -- the extension block is undone, if its part was read
  obtain ⟨mweb, hmweb⟩ : ∃ mweb, r.view.undoMWEBBlock env mwundo = .ok mweb := by
    cases mwundo with
    | none => exact ⟨r.view.mweb, rfl⟩
    | some undo =>
      rcases hmw with hmw | hmw
      · obtain ⟨_, hrep⟩ := hview.mweb
        obtain ⟨_, c'', hundo⟩ := (connectMWEBBlock_undo hrep h.mweb).2 undo hmw.symm
        refine ⟨c'', ?_⟩
        rw [UtxoView.undoMWEBBlock, h.mwebBase, hundo]
        rfl
      · cases hmw
  refine ⟨{ r.view with coins := s'.setBestBlock prev.index.hash, mweb := mweb }, ?_,
    (setBestBlock_spec hsteps.wf _).wf, hforget⟩
  rw [disconnectBlock, if_neg (not_not.mpr h.undo_length), hok]
  simp only [hmweb, hprev]
  rfl

end

def CBlock.spends (block : CBlock) : List COutPoint :=
  (block.vtx.filter fun tx => !tx.isCoinBase).flatMap fun tx => tx.vin.map CTxIn.prevout

theorem connectBlock_disconnect (hview : view.Wf env)
    (hgenesis : block.hash ≠ env.params.hashGenesisBlock)
    (hbip30 : ∀ prev, pindex.pprev = some prev → enforceBIP30 env prev = true)
    (hconnect : connectBlock env block pindex view false = .ok r) (trailing : Bytes) :
    ∃ read rest view', unserializeBlockUndo env.curve (r.blockundo.diskSize env.curve)
        (serBlockUndo env.curve r.blockundo ++ trailing) = .ok (read, rest) ∧
      disconnectBlock env block pindex (some read) r.view = .ok (.DISCONNECT_OK, view') ∧
      view'.coins.Wf ∧ Forgets forgetPegout block.spends view.coins.view view'.coins.view := by
  obtain ⟨prev, coinss, _, hprev, _, hconn⟩ :=
    connectBlock_spec hview.coins hgenesis hbip30 hconnect
  have hh := ChainIndex.height_ne_zero hprev
  obtain ⟨_, hrep⟩ := hview.mweb
  have hstorable : r.blockundo.Storable := by
    apply hconn.storable hview.sound hh
    intro mwundo hmw
    exact ((connectMWEBBlock_undo hrep hconn.mweb).2 mwundo hmw).1
  obtain ⟨mwundo, rest, hmw, hread⟩ := unserializeBlockUndo_spec env.curve hstorable trailing
  obtain ⟨view', hdisconnect, hwf, hforget⟩ := hconn.disconnect hview hprev hh hmw
  refine ⟨_, rest, view', hread, hdisconnect, hwf, ?_⟩
  intro o
  have hmem := mem_spentOutpoints (hconn.txs.forall₂ hview.sound hh hconn.values) (o := o)
  have hspends : o ∈ block.spends ↔ o ∈ spentOutpoints pindex.index.nHeight block.vtx coinss := by
    rw [hmem, CBlock.spends]
    simp [and_assoc]
  rw [hforget o]
  simp only [hspends]

/-- The block is disconnected with undo data read back from what was written, before other bytes; the
    result is DISCONNECT_OK, and every outpoint has its coin back. -/
def DisconnectRestores (env : Env) (block : CBlock) (pindex : ChainIndex) (view : UtxoView B)
    (r : Connected B) (trailing : Bytes) : Prop :=
  ∃ read rest view', unserializeBlockUndo env.curve (r.blockundo.diskSize env.curve)
      (serBlockUndo env.curve r.blockundo ++ trailing) = .ok (read, rest) ∧
    disconnectBlock env block pindex (some read) r.view = .ok (.DISCONNECT_OK, view') ∧
    ∀ o, (view'.coins.getCoin o).1 = (view.coins.getCoin o).1

/-- **Reorg inverse.** Disconnecting a block right after connecting it restores the coins exactly,
    if and only if no input of the block spends a coin of the view that has the pegout flag. -/
theorem disconnectBlock_restores_iff (view : UtxoView B) (hview : view.Wf env)
    (hgenesis : block.hash ≠ env.params.hashGenesisBlock)
    (hbip30 : ∀ prev, pindex.pprev = some prev → enforceBIP30 env prev = true)
    (hconnect : connectBlock env block pindex view false = .ok r) (trailing : Bytes) :
    DisconnectRestores env block pindex view r trailing ↔
      ∀ o ∈ block.spends, ∀ coin, (view.coins.getCoin o).1 = some coin → coin.fPegout = false := by
  obtain ⟨read, rest, view', hread, hdisconnect, hwf, hforget⟩ :=
    connectBlock_disconnect hview hgenesis hbip30 hconnect trailing
  have hget : ∀ o, (view.coins.getCoin o).1 = view.coins.view o :=
    fun o => (getCoin_spec hview.coins o).1
  have hget' : ∀ o, (view'.coins.getCoin o).1 = view'.coins.view o :=
    fun o => (getCoin_spec hwf o).1
  have hiff := hforget.eq_iff
  simp only [forgetPegout_eq_self] at hiff
  simp only [hget]
  rw [← hiff]
  constructor
  · rintro ⟨read', rest', view'', hread', hdisconnect', hsame⟩ o
    -- both runs are the same run
    rw [hread] at hread'
    cases hread'
    rw [hdisconnect] at hdisconnect'
    cases hdisconnect'
    rw [← hget' o, hsame o, hget o]
  · intro hsame
    exact ⟨read, rest, view', hread, hdisconnect, fun o => by rw [hget', hget, hsame]⟩

/-! ### One coin, spent and restored -/

/-- Checks that all pass, with mainnet's halving interval. -/
def permissiveEnv : Env where
  params :=
    { network := .main, hashGenesisBlock := 0, BIP34Height := 710000, BIP34Hash := 0
      signet_blocks := false, mweb_input_metadata_grandfather_blockhash := 0
      frozen_mweb_output_ids := [] }
  crypto := Mweb.emptyBlockCrypto
  curve := PubKeyCurve.none
  getHash := fun _ => 0
  checkProofOfWork := fun _ => true
  checkSignetBlockSolution := fun _ => true
  blockMerkleRoot := fun block => (block.hashMerkleRoot, false)
  getLegacySigOpCount := fun _ => 0
  getTransactionSigOpCost := fun _ _ _ => 0
  sequenceLocks := fun _ _ _ => true
  scriptChecks := fun _ => true
  checkInputScripts := fun _ _ _ => none
  checkQueueWait := fun _ => true
  isMWEBEnabled := fun _ => false

def oldCoin (fPegout : Bool) : Coin :=
  { out := { nValue := coinUnit, scriptPubKey := [0x51] }, fCoinBase := false, nHeight := 1, fPegout := fPegout }

/-- The view that has only that coin, at output 1 of transaction 7. -/
def oldCoinView (fPegout : Bool) : UtxoView CoinsBaseMap where
  coins :=
    { base := .base
        { coins := fun o => if o = ⟨7, 1⟩ then some (oldCoin fPegout) else none
          unspent := by
            intro o c h
            split at h
            · cases h
              rfl
            · cases h }
      cacheCoins := ∅
      hashBlock := 1 }
  mwebBase := .db Mweb.emptyDB
  mweb := Mweb.emptyCache

/-- Block 2 at height 10, on block 1. -/
def spendIndex : ChainIndex where
  index := { hash := 2, nHeight := 10, haveMWEB := false, mweb_header := none, hogex_hash := 0, mweb_amount := 0 }
  ancestors :=
    [{ hash := 1, nHeight := 9, haveMWEB := false, mweb_header := none, hogex_hash := 0, mweb_amount := 0 }]
  linked := by decide

/-- A block that spends the coin. -/
def spendBlock : CBlock where
  hash := 2
  hashMerkleRoot := 0
  vtx :=
    [{ vin := [⟨⟨0, COutPoint.nullIndex⟩, [0x01, 0x0a], 0, []⟩], vout := [⟨50 * coinUnit, [0x51]⟩]
       nVersion := 2, nLockTime := 0, mweb_tx := none, m_hogEx := false, hash := 8 },
     { vin := [⟨⟨7, 1⟩, [], 0, []⟩], vout := [⟨coinUnit, [0x51]⟩]
       nVersion := 2, nLockTime := 0, mweb_tx := none, m_hogEx := false, hash := 9 }]
  mweb_block := none

theorem spendBlock_connected (fPegout : Bool) :
    ∃ r, connectBlock permissiveEnv spendBlock spendIndex (oldCoinView fPegout) false = .ok r := by
  cases fPegout with
  | false => exact ⟨_, rfl⟩
  | true => exact ⟨_, rfl⟩

theorem spendBlock_enforced (prev : ChainIndex) (h : spendIndex.pprev = some prev) :
    enforceBIP30 permissiveEnv prev = true := by
  cases h
  rfl

theorem oldCoinView_wf (fPegout : Bool) : (oldCoinView fPegout).Wf permissiveEnv where
  coins := by
    refine ⟨?_, fun o e h => nomatch h⟩
    intro o c h
    have hc : (if o = ⟨7, 1⟩ then some (oldCoin fPegout) else none) = some c := h
    split at hc
    · cases hc
      rfl
    · cases hc
  sound := by
    intro o c h
    have hc : (if o = ⟨7, 1⟩ then some (oldCoin fPegout) else none) = some c := h
    split at hc
    · cases hc
      exact ⟨show 1 ≠ 0 by decide, rfl, rfl⟩
    · cases hc
  mweb := (Mweb.Reachable.push .empty).rep

/-- The coin comes back without its pegout flag. -/
theorem spendBlock_not_restored : (oldCoinView true).Wf permissiveEnv ∧
      spendBlock.hash ≠ permissiveEnv.params.hashGenesisBlock ∧
      (∀ prev, spendIndex.pprev = some prev → enforceBIP30 permissiveEnv prev = true) ∧
      ∃ r, connectBlock permissiveEnv spendBlock spendIndex (oldCoinView true) false = .ok r ∧
        ¬ DisconnectRestores permissiveEnv spendBlock spendIndex (oldCoinView true) r [] := by
  have hgenesis : spendBlock.hash ≠ permissiveEnv.params.hashGenesisBlock := by decide
  obtain ⟨r, hconnect⟩ := spendBlock_connected true
  refine ⟨oldCoinView_wf true, hgenesis, spendBlock_enforced, r, hconnect, ?_⟩
  rintro ⟨read, rest, view', hread, hdisconnect, hsame⟩
  obtain ⟨_, _, _, hread', hdisconnect', hwf, hforget⟩ :=
    connectBlock_disconnect (oldCoinView_wf true) hgenesis spendBlock_enforced hconnect []
  rw [hread] at hread'
  cases hread'
  rw [hdisconnect] at hdisconnect'
  cases hdisconnect'
  -- output 1 of transaction 7 is the coin spent
  have hcoin := hforget ⟨7, 1⟩
  have hbefore := hsame ⟨7, 1⟩
  rw [(getCoin_spec hwf _).1, hcoin] at hbefore
  cases hbefore

/-- Without the flag the coin comes back as it was. -/
theorem spendBlock_restored : (oldCoinView false).Wf permissiveEnv ∧
      ∃ r, connectBlock permissiveEnv spendBlock spendIndex (oldCoinView false) false = .ok r ∧
        DisconnectRestores permissiveEnv spendBlock spendIndex (oldCoinView false) r [] := by
  obtain ⟨r, hconnect⟩ := spendBlock_connected false
  refine ⟨oldCoinView_wf false, r, hconnect, ?_⟩
  refine (disconnectBlock_restores_iff (oldCoinView false) (oldCoinView_wf false) (by decide)
    spendBlock_enforced hconnect []).mpr ?_
  intro o ho coin hcoin
  have hspends : spendBlock.spends = [⟨7, 1⟩] := rfl
  rw [hspends, mem_singleton] at ho
  subst ho
  cases hcoin
  rfl

end Defcoin
