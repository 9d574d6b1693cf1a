import Defcoin.Consensus.ReorgInverse
import Defcoin.Consensus.ReplayBlocks

/-! # What replaying does to the coins

  `RollforwardBlock` applies a block without looking at what the view holds, and `DisconnectBlock`
  undoes one whatever it finds. For a block that was accepted once both are logs of writes, the same
  on every view, that lead between the UTXO sets before and after the block.
-/

namespace Defcoin

open WriteLog ByteCodec CCoinsViewCache CTransaction List Outcome CBlockUndo

/-! ### Applying a block again -/

section Cache
variable {B : Type} [CoinsBase B]

namespace CCoinsViewCache

variable {nHeight : BitVec 31} {tx : CTransaction} {s : CCoinsViewCache B}

theorem rollforwardInputs_spec (hs : s.Wf) (vin : List CTxIn) :
    Steps s (s.rollforwardInputs vin) (run s.view (deletes (vin.map CTxIn.prevout))) := by
  induction vin generalizing s with
  | nil => exact Steps.refl hs
  | cons txin rest ih =>
    obtain ⟨_, _, hsteps⟩ := spendCoin_spec hs txin.prevout
    have hrest := ih hsteps.wf
    rw [hsteps.view] at hrest
    exact hsteps.trans hrest

theorem addCoinsFrom_overwrite (hs : s.Wf) (i : Nat) {vout : List CTxOut}
    (hvalues : ∀ out ∈ vout, moneyRange out.nValue = true) :
    ∃ s', s.addCoinsFrom tx nHeight true i vout = .ok s' ∧
      Steps s s' (run s.view (inserts (tx.createdFrom nHeight i vout))) := by
  induction vout generalizing s i with
  | nil => exact ⟨s, rfl, Steps.refl hs⟩
  | cons out rest ih =>
    obtain ⟨hhave, hsteps⟩ := haveCoin_spec hs ⟨tx.hash, i⟩
    have hunspent : (tx.coin nHeight i out).isSpent = false := by
      have hrange := moneyRange_iff.mp (hvalues out (by simp))
      show (out.nValue == -1) = false
      rw [beq_eq_false_iff_ne]
      omega
    have hfree : (s.haveCoin ⟨tx.hash, i⟩).1 = false → (s.haveCoin ⟨tx.hash, i⟩).2.view ⟨tx.hash, i⟩ = none := by
      intro hnot
      rw [hsteps.view]
      rw [hhave] at hnot
      simpa using hnot
    obtain ⟨s₁, hadd, hsteps₁⟩ := addCoin_spec hsteps.wf hunspent hfree
    rw [hsteps.view] at hsteps₁
    obtain ⟨s', hok, hsteps'⟩ := ih hsteps₁.wf (i + 1) fun o ho => hvalues o (by simp [ho])
    refine ⟨s', ?_, ?_⟩
    · rw [addCoinsFrom, if_pos rfl, hadd]
      exact hok
    · have hadded : s₁.view = run s.view (inserts (tx.createdFrom nHeight i [out])) := by
        rw [hsteps₁.view, CoinMap.add, createdFrom]
        have hscript : (tx.coin nHeight i out).out.scriptPubKey = out.scriptPubKey := rfl
        rw [hscript]
        split <;> rfl
      have hlog : tx.createdFrom nHeight i (out :: rest) =
          tx.createdFrom nHeight i [out] ++ tx.createdFrom nHeight (i + 1) rest := by
        simp only [createdFrom]
        split <;> rfl
      rw [hadded] at hsteps'
      rw [hlog, inserts, map_append, run_append]
      exact (hsteps.trans hsteps₁).trans hsteps'

/-- **One transaction** of an accepted block, applied to any view. -/
theorem rollforwardTx_spec {m : CoinMap} {coins : List Coin} {txfee : Int}
    (htx : TxConnected nHeight m tx coins txfee) (hvalues : ∀ out ∈ tx.vout, moneyRange out.nValue = true)
    (hs : s.Wf) :
    ∃ s', s.rollforwardTx nHeight tx = .ok s' ∧
      Steps s s' (run s.view (tx.effect nHeight coins).log) := by
  have hspent : Steps s (if tx.isCoinBase then s else s.rollforwardInputs tx.vin)
      (run s.view (deletes (tx.effect nHeight coins).spentKeys)) := by
    cases hcb : tx.isCoinBase with
    | true =>
      rw [(htx.coinbase hcb).1]
      simpa [effect, Effect.spentKeys, deletes] using Steps.refl hs
    | false =>
      have hkeys : (tx.effect nHeight coins).spentKeys = tx.vin.map CTxIn.prevout :=
        map_fst_zip (by rw [length_map, (htx.inputs hcb).holds.length_eq])
      rw [hkeys]
      exact rollforwardInputs_spec hs tx.vin
  obtain ⟨s', hok, hsteps⟩ := addCoinsFrom_overwrite hspent.wf 0 hvalues
  refine ⟨s', hok, ?_⟩
  rw [hspent.view] at hsteps
  rw [Effect.log, run_append]
  exact hspent.trans hsteps

end CCoinsViewCache

variable {nHeight : BitVec 31} {m m' : CoinMap} {txs : List CTransaction}
  {coinss : List (List Coin)} {fees : Int}

theorem TxsConnected.rollforward (h : TxsConnected nHeight m txs coinss fees m')
    (hvalues : ∀ tx ∈ txs, ∀ out ∈ tx.vout, moneyRange out.nValue = true) :
    ∃ log, run m log = m' ∧ ∀ s : CCoinsViewCache B, s.Wf →
      ∃ s', s.rollforwardTxs nHeight txs = .ok s' ∧
        CCoinsViewCache.Steps s s' (run s.view log) := by
  induction h with
  | nil m => exact ⟨[], rfl, fun s hs => ⟨s, rfl, CCoinsViewCache.Steps.refl hs⟩⟩
  | @cons m m' tx coins txfee fees txs coinss htx _ ih =>
    obtain ⟨log, hrun, happly⟩ := ih fun t ht => hvalues t (by simp [ht])
    refine ⟨(tx.effect nHeight coins).log ++ log, by rw [run_append, hrun], ?_⟩
    intro s hs
    obtain ⟨s₁, hok₁, hsteps₁⟩ := rollforwardTx_spec htx (hvalues tx (by simp)) hs
    obtain ⟨s₂, hok₂, hsteps₂⟩ := happly s₁ hsteps₁.wf
    refine ⟨s₂, ?_, ?_⟩
    · rw [rollforwardTxs, hok₁]
      exact hok₂
    · rw [hsteps₁.view] at hsteps₂
      rw [run_append]
      exact hsteps₁.trans hsteps₂

end Cache

theorem TxConnected.coins_unique {nHeight : BitVec 31} {m : CoinMap} {tx : CTransaction}
    {coins coins' : List Coin} {txfee txfee' : Int} (h : TxConnected nHeight m tx coins txfee)
    (h' : TxConnected nHeight m tx coins' txfee') : coins = coins' := by
  cases hcb : tx.isCoinBase with
  | true => rw [(h.coinbase hcb).1, (h'.coinbase hcb).1]
  | false =>
    refine right_unique_forall₂' ?_ (h.inputs hcb).holds (h'.inputs hcb).holds
    intro txin c c' hc hc'
    exact Option.some.inj (hc.symm.trans hc')

theorem TxsConnected.unique {nHeight : BitVec 31} {m m' m'' : CoinMap} {txs : List CTransaction}
    {coinss coinss' : List (List Coin)} {fees fees' : Int}
    (h : TxsConnected nHeight m txs coinss fees m') (h' : TxsConnected nHeight m txs coinss' fees' m'') :
    m' = m'' := by
  induction h generalizing coinss' fees' with
  | nil m =>
    cases h'
    rfl
  | cons htx _ ih =>
    cases h' with
    | cons htx' hrest' =>
      obtain rfl := htx.coins_unique htx'
      exact ih hrest'

/-! ### Reading back from disk -/

section Disk
variable {env : Env} {store : BlockStore}

theorem parses_uint256 (hash : Uint256) : Parses (readLE 32) (serUint256 hash) hash.toNat :=
  parses_le (by omega)

theorem undoReadFromDisk_spec {pindex pprev : ChainIndex} {us : List CTxUndo}
    (hu : Storable ⟨us, none⟩) {trailing : Bytes}
    (hstored : store.undo pindex.index.hash =
      some (undoRecord env ⟨us, none⟩ pprev.index.hash ++ trailing)) :
    undoReadFromDisk env store pindex pprev = .ok (some ⟨us.map CTxUndo.forgetPegout, none⟩) := by
  rw [undoReadFromDisk, hstored]
  have hsize : Parses (readLE 4) (writeLE 4 (diskSize env.curve ⟨us, none⟩))
      (diskSize env.curve ⟨us, none⟩) := parses_le (Nat.mod_lt _ (by decide))
  have hdata := parses_blockUndo_txs env.curve hu
  generalize hser : serBlockUndo env.curve ⟨us, none⟩ = data at hdata
  have hsum := parses_uint256 (env.getHash (serUint256 pprev.index.hash ++ data))
  generalize hck : serUint256 (env.getHash (serUint256 pprev.index.hash ++ data)) = checksum at hsum
  have hbytes : undoRecord env ⟨us, none⟩ pprev.index.hash ++ trailing =
      writeLE 4 (diskSize env.curve ⟨us, none⟩) ++ (data ++ (checksum ++ trailing)) := by
    simp [undoRecord, hser, hck]
  -- the bytes read are exactly those of the undo data
  have hread : readUndoData env pprev.index.hash (diskSize env.curve ⟨us, none⟩)
      (data ++ (checksum ++ trailing)) = .ok (⟨us.map CTxUndo.forgetPegout, none⟩, trailing) := by
    rw [readUndoData, hdata (checksum ++ trailing)]
    simp only [bind, Except.bind, hsum trailing]
    rw [if_neg (by simp)]
    rfl
  simp only [hbytes, hsize (data ++ (checksum ++ trailing)), hread]

variable {B : Type} [CoinsBase B] {block : CBlock} {pindex : ChainIndex} {view : UtxoView B}
  {r : Connected B}

theorem readBlockFromDisk_spec (h : connectBlock env block pindex view false = .ok r)
    (hstored : store.blocks pindex.index.hash = some block) :
    readBlockFromDisk env store pindex = some block := by
  obtain ⟨hhash, h⟩ := unless_eq_ok.mp h
  obtain ⟨_, hcheck, _⟩ := bind_eq_ok.mp h
  have hcheck := mapError_eq_ok.mp hcheck
  obtain ⟨hpow, hcheck⟩ := unless_eq_ok.mp hcheck
  obtain ⟨hsignet, _⟩ := unless_eq_ok.mp hcheck
  simp only [Bool.not_false, Bool.true_and, Bool.and_true] at hpow hsignet
  rw [readBlockFromDisk, hstored]
  simp only
  rw [if_neg hpow, if_neg hsignet, if_neg]
  exact fun hne => hhash (Ne.symm hne)

end Disk

/-! ### Writing the database -/

namespace CCoinsViewDB

theorem foldl_writeEntry (db : CCoinsViewDB)
    {entries : List (Sigma fun _ : COutPoint => CCoinsCacheEntry)} (hnd : entries.NodupKeys) :
    entries.foldl (fun db e => db.writeEntry e.1 e.2) db =
      { db with coins := fun o =>
          match entries.dlookup o with
          | some e => if e.dirty then e.unspent? else db.coins o
          | none => db.coins o } := by
  have hrecords : (entries.foldl (fun db e => db.writeEntry e.1 e.2) db).bestBlock = db.bestBlock ∧
      (entries.foldl (fun db e => db.writeEntry e.1 e.2) db).headBlocks = db.headBlocks := by
    clear hnd
    induction entries generalizing db with
    | nil => exact ⟨rfl, rfl⟩
    | cons e rest ih =>
      have hone : (db.writeEntry e.1 e.2).bestBlock = db.bestBlock ∧
          (db.writeEntry e.1 e.2).headBlocks = db.headBlocks := by
        unfold writeEntry
        split <;> exact ⟨rfl, rfl⟩
      obtain ⟨hbest, hheads⟩ := ih (db.writeEntry e.1 e.2)
      exact ⟨hbest.trans hone.1, hheads.trans hone.2⟩
  have hcoins := FiniteMap.foldl_entries_spec (fun db o e => writeEntry db o e)
    (fun db o => db.coins o) (fun _ _ => True) (fun _ c e => if e.dirty then e.unspent? else c)
    (by
      intro db o e _
      unfold writeEntry
      split
      · exact ⟨CoinMap.set_self .., fun k hk => CoinMap.set_ne _ hk _⟩
      · exact ⟨rfl, fun _ _ => rfl⟩) entries db hnd (fun _ _ _ => trivial)
  obtain ⟨hbest, hheads⟩ := hrecords
  generalize entries.foldl (fun db e => db.writeEntry e.1 e.2) db = db' at hcoins hbest hheads
  obtain ⟨coins, _, heads⟩ := db'
  congr 1
  funext o
  have ho := hcoins o
  cases hl : entries.dlookup o with
  | none => simpa only [hl] using ho
  | some e => simpa only [hl] using ho

theorem foldl_writeEntry_map (db : CCoinsViewDB) (mapCoins : CCoinsMap) :
    mapCoins.entries.foldl (fun db e => db.writeEntry e.1 e.2) db =
      { db with coins := db.coins.writtenBack mapCoins } :=
  foldl_writeEntry db mapCoins.nodupKeys

/-- **A crash** in the middle of `BatchWrite` leaves a database between two tips, with the coin from
    before or after the write at every outpoint. -/
theorem interrupted_spec {db db' : CCoinsViewDB} {mapCoins : CCoinsMap} {hashBlock : Uint256}
    {written : Nat} (h : db.interruptedWrite mapCoins hashBlock written = .ok db') :
    (∃ old_tip, db.oldTip hashBlock = .ok old_tip ∧ db'.getHeadBlocks = [hashBlock, old_tip]) ∧
      ∀ o, db'.coins o = db.coins o ∨ db'.coins o = db.coins.writtenBack mapCoins o := by
  obtain ⟨_, hstart, h⟩ := bind_eq_ok.mp h
  unfold beginWrite at hstart
  split at hstart
  · cases hstart
  · obtain ⟨old_tip, htip, hstart⟩ := bind_eq_ok.mp hstart
    cases hstart
    cases h
    have hnd : (mapCoins.entries.take written).NodupKeys :=
      mapCoins.nodupKeys.sublist (take_sublist _ _)
    rw [foldl_writeEntry _ hnd]
    refine ⟨⟨old_tip, htip, rfl⟩, ?_⟩
    intro o
    cases hl : (mapCoins.entries.take written).dlookup o with
    | none =>
      left
      simp [hl]
    | some e =>
      -- the entry is one of those that the whole write has
      right
      have hmem := mem_of_mem_take (of_mem_dlookup hl)
      have hlookup : mapCoins.lookup o = some e := AList.mem_lookup_iff.mpr hmem
      simp only [hl, CoinMap.writtenBack, hlookup]

theorem batchWrite_spec {db : CCoinsViewDB} {hashNew hashOld : Uint256}
    (hheads : db.getHeadBlocks = [hashNew, hashOld]) (hnull : hashNew ≠ 0) (mapCoins : CCoinsMap) :
    db.batchWrite mapCoins hashNew = .ok
      { coins := db.coins.writtenBack mapCoins, bestBlock := some hashNew, headBlocks := none } := by
  have hbegin : ∃ tip, db.beginWrite hashNew =
      .ok { db with bestBlock := none, headBlocks := some [hashNew, tip] } := by
    have htip : ∃ tip, db.oldTip hashNew = .ok tip := by
      unfold oldTip
      split
      · simp only [hheads]
        exact ⟨_, rfl⟩
      · exact ⟨_, rfl⟩
    obtain ⟨tip, htip⟩ := htip
    refine ⟨tip, ?_⟩
    rw [beginWrite, Uint256.isNull_eq_false hnull, htip]
    rfl
  obtain ⟨tip, hbegin⟩ := hbegin
  rw [batchWrite, hbegin]
  simp only [foldl_writeEntry_map]
  rfl

end CCoinsViewDB

theorem CCoinsView.eq_base_bottom {B : Type} [CoinsBase B] {v : CCoinsView B}
    (h : v.layers.tail = []) : v = .base v.bottom := by
  cases v with
  | base b => rfl
  | cache p cc hash =>
    rw [layers, head_layers] at h
    cases h

end Defcoin
