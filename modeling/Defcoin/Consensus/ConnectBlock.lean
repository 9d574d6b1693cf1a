import Defcoin.Consensus.TxVerify
import Defcoin.Undo
import Mathlib.Data.List.Chain

/-! # Connecting and disconnecting blocks

  `CheckBlock`, `ConnectBlock` and `DisconnectBlock` on a coin view and the extension block's view
  that goes with it. A failed block leaves no view: the source throws the layer away.

  `Env` has the consensus parameters and the checks of other parts of the program, as functions of
  what they read. `fChecked` and all disk errors are left out.
-/

namespace Defcoin

/-! ### The chain a block extends -/

/-- `CBlockIndex`, the members read here. -/
structure CBlockIndex where
  /-- `*phashBlock` -/
  hash : Uint256
  nHeight : BitVec 31
  /-- `nStatus & BLOCK_HAVE_MWEB` -/
  haveMWEB : Bool
  mweb_header : Option Mweb.Header
  hogex_hash : Uint256
  mweb_amount : Int

/-- An entry of the block index with its ancestors, the parent first. Heights count up by one, as
    `AddToBlockIndex` sets them. -/
structure ChainIndex where
  index : CBlockIndex
  ancestors : List CBlockIndex
  linked : List.IsChain (fun e p => e.nHeight.toNat = p.nHeight.toNat + 1) (index :: ancestors)

namespace ChainIndex

variable (pindex : ChainIndex)

/-- `pprev` -/
def pprev : Option ChainIndex :=
  match pindex with
  | ⟨_, [], _⟩ => none
  | ⟨_, parent :: rest, linked⟩ => some ⟨parent, rest, (List.isChain_cons_cons.mp linked).2⟩

/-- The entry with index `e` and ancestors `as`, and the entries below it. -/
def lineFrom : (e : CBlockIndex) → (as : List CBlockIndex) →
    List.IsChain (fun e p => e.nHeight.toNat = p.nHeight.toNat + 1) (e :: as) → List ChainIndex
  | e, [], linked => [⟨e, [], linked⟩]
  | e, p :: rest, linked => ⟨e, p :: rest, linked⟩ :: lineFrom p rest (List.isChain_cons_cons.mp linked).2

/-- The entry itself, its parent, the parent of that, and so on. -/
def line : List ChainIndex := lineFrom pindex.index pindex.ancestors pindex.linked

/-- `GetAncestor` -/
def getAncestor (height : Nat) : Option ChainIndex :=
  pindex.line.find? fun p => p.index.nHeight.toNat == height

theorem height_pos {pindex prev : ChainIndex} (h : pindex.pprev = some prev) :
    pindex.index.nHeight.toNat = prev.index.nHeight.toNat + 1 := by
  obtain ⟨index, ancestors, linked⟩ := pindex
  cases ancestors with
  | nil => cases h
  | cons parent rest =>
    cases h
    exact (List.isChain_cons_cons.mp linked).1

theorem height_ne_zero {pindex prev : ChainIndex} (h : pindex.pprev = some prev) :
    pindex.index.nHeight ≠ 0 := by
  intro hzero
  have := height_pos h
  rw [hzero] at this
  simp at this

end ChainIndex

/-- The networks of `CreateChainParams`. -/
inductive Network where
  | main | test | regtest
  deriving DecidableEq

/-- `Consensus::Params`, the members used here. -/
structure ConsensusParams where
  network : Network
  hashGenesisBlock : Uint256
  BIP34Height : Nat
  BIP34Hash : Uint256
  signet_blocks : Bool
  mweb_input_metadata_grandfather_blockhash : Uint256
  frozen_mweb_output_ids : List Mweb.Hash

/-- `nSubsidyHalvingInterval`, as the constructors of the networks' parameters set it. -/
def ConsensusParams.nSubsidyHalvingInterval (params : ConsensusParams) : Nat :=
  match params.network with
  | .main | .test => 840000
  | .regtest => 150

/-- What validation takes from elsewhere: the parameters, the vendored libraries, and the checks
    that other files implement. -/
structure Env where
  params : ConsensusParams
  crypto : Mweb.Crypto
  curve : PubKeyCurve
  /-- `CHashWriter::GetHash` of the bytes written to it -/
  getHash : ByteCodec.Bytes → Uint256
  /-- `CheckProofOfWork(block.GetPoWHash(), block.nBits)` -/
  checkProofOfWork : CBlock → Bool
  checkSignetBlockSolution : CBlock → Bool
  /-- `BlockMerkleRoot`: the root and whether the tree is malleable -/
  blockMerkleRoot : CBlock → Uint256 × Bool
  getLegacySigOpCount : CTransaction → Nat
  /-- `GetTransactionSigOpCost`, from the coins spent and the script flags of the block -/
  getTransactionSigOpCost : CTransaction → List Coin → ChainIndex → Nat
  /-- `SequenceLocks`, from the heights of the coins spent -/
  sequenceLocks : CTransaction → List (BitVec 31) → ChainIndex → Bool
  /-- `fScriptChecks`: not below an assumed valid block -/
  scriptChecks : ChainIndex → Bool
  /-- `CheckInputScripts`: the reject reason if it fails at once -/
  checkInputScripts : CTransaction → List Coin → ChainIndex → Option String
  /-- `control.Wait()`: the script checks that were queued -/
  checkQueueWait : CBlock → Bool
  /-- `IsMWEBEnabled(pindexPrev)` -/
  isMWEBEnabled : Option ChainIndex → Bool

/-- The subsidy after a number of halvings. -/
def halvedSubsidy (halvings : Nat) : Int :=
  -- the shift is undefined from 64 on
  if halvings ≥ 64 then 0 else (50 * coinUnit) >>> halvings

/-- `GetBlockSubsidy` -/
def getBlockSubsidy (params : ConsensusParams) (nHeight : Nat) : Int :=
  halvedSubsidy (nHeight / params.nSubsidyHalvingInterval)

/-! ### CheckBlock -/

/-- `MAX_BLOCK_SIGOPS_COST` -/
def maxBlockSigOpsCost : Nat := 80000

/-- A failed transaction check is a consensus failure of the block. -/
def Failure.ofTx : Failure TxValidationResult → Failure BlockValidationResult
  | .invalid _ reason => .invalid .BLOCK_CONSENSUS reason
  | .abort message => .abort message
  | .fault f => .fault f

/-- The loop of `CheckBlock` over the transactions. -/
def checkTransactions : List CTransaction → BlockCheck Unit
  | [] => .ok ()
  | tx :: rest => do
    (checkTransaction tx).mapError Failure.ofTx
    checkTransactions rest

/-- `CheckBlock`, with `MWEB::Node::CheckBlock` at its end. -/
def checkBlock (env : Env) (block : CBlock) (fCheckPOW fCheckMerkleRoot : Bool) : BlockCheck Unit := do
  if fCheckPOW && !env.checkProofOfWork block then
    throw (.invalid .BLOCK_INVALID_HEADER "high-hash")
  if env.params.signet_blocks && fCheckPOW && !env.checkSignetBlockSolution block then
    throw (.invalid .BLOCK_CONSENSUS "bad-signet-blksig")
  if fCheckMerkleRoot && block.hashMerkleRoot != (env.blockMerkleRoot block).1 then
    throw (.invalid .BLOCK_MUTATED "bad-txnmrklroot")
  if fCheckMerkleRoot && (env.blockMerkleRoot block).2 then
    throw (.invalid .BLOCK_MUTATED "bad-txns-duplicate")
  if block.vtx.isEmpty || decide (block.vtx.length * witnessScaleFactor > maxBlockWeight) ||
      decide (block.serializeSize * witnessScaleFactor > maxBlockWeight) then
    throw (.invalid .BLOCK_CONSENSUS "bad-blk-length")
  if !(block.vtx.head?.map CTransaction.isCoinBase).getD false then
    throw (.invalid .BLOCK_CONSENSUS "bad-cb-missing")
  if block.vtx.tail.any CTransaction.isCoinBase then
    throw (.invalid .BLOCK_CONSENSUS "bad-cb-multiple")
  checkTransactions block.vtx
  if (block.vtx.map env.getLegacySigOpCount).sum * witnessScaleFactor > maxBlockSigOpsCost then
    throw (.invalid .BLOCK_CONSENSUS "bad-blk-sigops")
  if block.vtx.any CTransaction.hasMWEBTx then
    throw (.invalid .BLOCK_MUTATED "unexpected-mweb-data")

/-! ### Coins of a transaction -/

/-- The coin that output `i` of a transaction becomes. -/
def CTransaction.coin (tx : CTransaction) (nHeight : BitVec 31) (i : Nat) (out : CTxOut) : Coin :=
  -- the first output of a HogEx is the HogAddr, which is not a pegout
  { out := out, fCoinBase := tx.isCoinBase, nHeight := nHeight, fPegout := tx.isHogEx && decide (i > 0) }

/-- `MEMPOOL_HEIGHT` -/
def mempoolHeight : BitVec 32 := 0x7FFFFFFF

/-- `CCoinsViewCache` with the view of the extension block's coins it carries. -/
structure UtxoView (B : Type) where
  coins : CCoinsViewCache B
  mwebBase : Mweb.CoinsView
  mweb : Mweb.CoinsViewCache

/-- `GetMWEBCacheView()` as a view. -/
def UtxoView.mwebView {B : Type} (view : UtxoView B) : Mweb.CoinsView := .cache view.mwebBase view.mweb

section Coins
variable {B : Type} [CoinsBase B]

namespace CCoinsViewCache

/-- The loop of `UpdateCoins` over the inputs: the coins spent. -/
def spendInputs (inputs : CCoinsViewCache B) : List CTxIn → Except Fault (List Coin × CCoinsViewCache B)
  | [] => .ok ([], inputs)
  | txin :: rest =>
    match inputs.spendCoin txin.prevout with
    | (none, _) => .error (.assertion "is_spent")
    | (some coin, inputs') => do
      let (coins, inputs'') ← inputs'.spendInputs rest
      pure (coin :: coins, inputs'')

/-- The inputs of a transaction, in `UpdateCoins`. -/
def spendTxInputs (inputs : CCoinsViewCache B) (tx : CTransaction) :
    Except Fault (List Coin × CCoinsViewCache B) :=
  if tx.isCoinBase then .ok ([], inputs) else inputs.spendInputs tx.vin

/-- The loop of `AddCoins` from output `i` on. -/
def addCoinsFrom (tx : CTransaction) (nHeight : BitVec 31) (check_for_overwrite : Bool)
    (cache : CCoinsViewCache B) (i : Nat) : List CTxOut → Except Fault (CCoinsViewCache B)
  | [] => .ok cache
  | out :: rest => do
    let r := if check_for_overwrite then cache.haveCoin ⟨tx.hash, i⟩ else (tx.isCoinBase, cache)
    let cache' ← r.2.addCoin ⟨tx.hash, i⟩ (tx.coin nHeight i out) r.1
    addCoinsFrom tx nHeight check_for_overwrite cache' (i + 1) rest

/-- `AddCoins` -/
def addCoins (cache : CCoinsViewCache B) (tx : CTransaction) (nHeight : BitVec 31)
    (check_for_overwrite : Bool) : Except Fault (CCoinsViewCache B) :=
  addCoinsFrom tx nHeight check_for_overwrite cache 0 tx.vout

def haveAnyCoin (s : CCoinsViewCache B) : List COutPoint → Bool × CCoinsViewCache B
  | [] => (false, s)
  | o :: rest =>
    let r := s.haveCoin o
    if r.1 then (true, r.2) else r.2.haveAnyCoin rest

end CCoinsViewCache

/-- The loops of `AddTx`: the outputs are added, then the inputs spent. -/
def Mweb.CoinsViewCache.addTx (cr : Mweb.Crypto) (base : Mweb.CoinsView) (c : Mweb.CoinsViewCache)
    (body : Mweb.TxBody) : Except Mweb.Error Mweb.CoinsViewCache := do
  let added ← c.addOutputs cr base mempoolHeight body.outputs
  body.inputs.foldlM (fun c input => do
    let (_, c') ← c.spendUTXO base input.outputID
    pure c') added

/-- The extension block data of a transaction, in `UpdateCoins`. -/
def UtxoView.addMWEBTx (env : Env) (inputs : UtxoView B) : Option Mweb.TxBody →
    Except Fault Mweb.CoinsViewCache
  | none => .ok inputs.mweb
  | some body => (inputs.mweb.addTx env.crypto inputs.mwebBase body).mapError Mweb.Error.toFault

/-- `UpdateCoins` -/
def updateCoins (env : Env) (tx : CTransaction) (inputs : UtxoView B) (nHeight : BitVec 31) :
    Except Fault (CTxUndo × UtxoView B) := do
  let (vprevout, coins) ← inputs.coins.spendTxInputs tx
  let coins ← coins.addCoins tx nHeight false
  let mweb ← inputs.addMWEBTx env tx.mweb_tx
  pure (⟨vprevout⟩, { inputs with coins, mweb })

/-- `CCoinsViewCache::Flush`, with the flush of the view of the extension block's coins. -/
def UtxoView.flush (env : Env) (view : UtxoView B) : Except Fault (UtxoView B) := do
  let coins ← view.coins.flush
  let (mwebBase, mweb) ← (view.mweb.flush env.crypto view.mwebBase).mapError Mweb.Error.toFault
  pure { coins, mwebBase, mweb }

end Coins

/-! ### The extension block -/

/-- The loop of `MWEB::Node::ConnectBlock` over the outputs that may be pegins. -/
def sumPegins (hogex_input_amount : Int) : List CTxOut → BlockCheck Int
  | [] => .ok hogex_input_amount
  | output :: rest =>
    if output.scriptPubKey.isMWEBPegin.isSome then do
      let next ← orFault (toAmount (hogex_input_amount + output.nValue))
      if !moneyRange next then throw (.invalid .BLOCK_CONSENSUS "accumulated-pegin-outofrange")
      sumPegins next rest
    else sumPegins hogex_input_amount rest

def CBlock.innerTxs (block : CBlock) : List CTransaction := block.vtx.tail.dropLast

/-- The check that a HogEx spends the first output of the HogEx before it. -/
def checkHogExInput (env : Env) (pindexPrev : ChainIndex) (pHogEx : CTransaction) : BlockCheck Unit :=
  -- the first HogEx has none before it
  if !env.isMWEBEnabled pindexPrev.pprev then .ok ()
  else
    match pHogEx.vin with
    | [] => .error (.fault (.undefinedBehavior "vin.front()"))
    | txin :: _ =>
      if txin.prevout.n ≠ 0 ∨ pindexPrev.index.hogex_hash ≠ txin.prevout.hash then
        .error (.invalid .BLOCK_CONSENSUS "invalid-hogex-input")
      else .ok ()

/-- The comparison of the HogEx with the amounts of the extension block. -/
def checkHogExAmounts (pindexPrev : ChainIndex) (mweb_block : Mweb.Block) (pHogEx : CTransaction)
    (hogex_input_amount : Int) : BlockCheck Unit :=
  match mweb_block.body.getTotalFee, mweb_block.body.getSupplyChange with
  | some mweb_fee, some supply_change => do
    let value_out ← orFault pHogEx.getValueOut
    let hogex_fee ← orFault (toAmount (hogex_input_amount - value_out))
    if !moneyRange hogex_fee || hogex_fee != mweb_fee then
      throw (.invalid .BLOCK_CONSENSUS "bad-txns-mweb-fee-mismatch")
    match Mweb.trySafeAdd pindexPrev.index.mweb_amount supply_change, pHogEx.vout with
    | none, _ => throw (.invalid .BLOCK_CONSENSUS "bad-mweb-amount")
    | some _, [] => throw (.fault (.undefinedBehavior "vout.front()"))
    | some mweb_amount, hogAddr :: _ =>
      if !moneyRange mweb_amount || mweb_amount != hogAddr.nValue then
        throw (.invalid .BLOCK_CONSENSUS "mweb-amount-mismatch")
  | _, _ => .error (.invalid .BLOCK_CONSENSUS "bad-mweb-amount")

/-- `allow_historical_metadata_mismatch` -/
def allowHistoricalMetadataMismatch (env : Env) (block : CBlock) : Bool :=
  let grandfather := env.params.mweb_input_metadata_grandfather_blockhash
  !grandfather.isNull && block.hash == grandfather

/-- `ApplyBlock` with the handler around it: an exception may come from a mutated body. -/
def applyMWEBBlock (env : Env) (block : CBlock) (base : Mweb.CoinsView) (c : Mweb.CoinsViewCache)
    (mweb_block : Mweb.Block) : BlockCheck (Mweb.BlockUndo × Mweb.CoinsViewCache) :=
  match c.applyBlock env.crypto base mweb_block (allowHistoricalMetadataMismatch env block) with
  | .error (.assertion expr) => .error (.fault (.assertion expr))
  | .error _ => .error (.invalid .BLOCK_MUTATED "mweb-connect-failed")
  | .ok (_, .db _) => .error (.fault (.assertion "a cache stays a cache"))
  | .ok (mwundo, .cache _ c') => .ok (mwundo, c')

/-- `MWEB::Node::ConnectBlock`: the undo data of the extension block, if there is one, and the view
    of its coins. -/
def connectMWEBBlock (env : Env) (block : CBlock) (pindexPrev : ChainIndex) (base : Mweb.CoinsView)
    (c : Mweb.CoinsViewCache) : BlockCheck (Option Mweb.BlockUndo × Mweb.CoinsViewCache) :=
  match block.mweb_block, block.vtx.getLast? with
  | none, _ => .ok (none, c)
  | some _, none => .error (.fault (.undefinedBehavior "vtx.back()"))
  | some mweb_block, some pHogEx => do
    checkHogExInput env pindexPrev pHogEx
    let hogex_input_amount ←
      sumPegins pindexPrev.index.mweb_amount (block.innerTxs.flatMap CTransaction.vout)
    checkHogExAmounts pindexPrev mweb_block pHogEx hogex_input_amount
    let (mwundo, c') ← applyMWEBBlock env block base c mweb_block
    if mweb_block.body.inputs.any fun input =>
        decide (input.outputID ∈ env.params.frozen_mweb_output_ids) then
      throw (.invalid .BLOCK_CONSENSUS "frozen-mweb-output-spent")
    pure (some mwundo, c')

/-! ### ConnectBlock -/

section Connect
variable {B : Type} [CoinsBase B] (env : Env)

/-- The checks that `ConnectBlock` makes on the inputs of a transaction: the fees so far. -/
def checkInputs (pindex : ChainIndex) (view : UtxoView B) (tx : CTransaction) (nFees : Int) :
    BlockCheck (Int × CCoinsViewCache B) :=
  if tx.isCoinBase then .ok (nFees, view.coins)
  else do
    let (txfee, coins) ← (checkTxInputs env.params.frozen_mweb_output_ids view.mwebView view.coins tx
      pindex.index.nHeight).mapError Failure.ofTx
    let nFees ← orFault (toAmount (nFees + txfee))
    if !moneyRange nFees then
      throw (.invalid .BLOCK_CONSENSUS "bad-txns-accumulated-fee-outofrange")
    let (prevs, coins) := coins.accessCoins tx.vin
    if !env.sequenceLocks tx (prevs.map Coin.nHeight) pindex then
      throw (.invalid .BLOCK_CONSENSUS "bad-txns-nonfinal")
    pure (nFees, coins)

/-- The signature operations and scripts of a transaction: the signature operations so far. -/
def checkScripts (pindex : ChainIndex) (coins : CCoinsViewCache B) (tx : CTransaction)
    (nSigOpsCost : Nat) : BlockCheck (Nat × CCoinsViewCache B) := do
  let (prevs, coins) := if tx.isCoinBase then ([], coins) else coins.accessCoins tx.vin
  if prevs.any Coin.isSpent then throw (.fault (.assertion "!coin.IsSpent()"))
  let nSigOpsCost := nSigOpsCost + env.getTransactionSigOpCost tx prevs pindex
  if nSigOpsCost > maxBlockSigOpsCost then throw (.invalid .BLOCK_CONSENSUS "bad-blk-sigops")
  match if tx.isCoinBase || !env.scriptChecks pindex then none
      else env.checkInputScripts tx prevs pindex with
  | some reason => throw (.invalid .BLOCK_CONSENSUS reason)
  | none => pure (nSigOpsCost, coins)

/-- The loop of `ConnectBlock` over the transactions: the fees, the undo data of every transaction,
    and the view. -/
def connectTxs (pindex : ChainIndex) (view : UtxoView B) (nFees : Int) (nSigOpsCost : Nat) :
    List CTransaction → BlockCheck (Int × List CTxUndo × UtxoView B)
  | [] => .ok (nFees, [], view)
  | tx :: rest => do
    let (nFees, coins) ← checkInputs env pindex view tx nFees
    let (nSigOpsCost, coins) ← checkScripts env pindex coins tx nSigOpsCost
    let (txundo, view) ← orFault (updateCoins env tx { view with coins } pindex.index.nHeight)
    let (nFees, txundos, view) ← connectTxs pindex view nFees nSigOpsCost rest
    pure (nFees, txundo :: txundos, view)

/-- `fEnforceBIP30` -/
def enforceBIP30 (pindexPrev : ChainIndex) : Bool :=
  match pindexPrev.getAncestor env.params.BIP34Height with
  | none => true
  | some pindexBIP34height => pindexBIP34height.index.hash != env.params.BIP34Hash

variable (block : CBlock)

def CBlock.outpoints : List COutPoint :=
  block.vtx.flatMap fun tx => (List.range tx.vout.length).map fun o => ⟨tx.hash, o⟩

/-- The BIP30 check: no transaction of the block overwrites an unspent output. -/
def checkBIP30 (pindexPrev : ChainIndex) (coins : CCoinsViewCache B) (block : CBlock) :
    BlockCheck (CCoinsViewCache B) :=
  if enforceBIP30 env pindexPrev then
    match coins.haveAnyCoin block.outpoints with
    | (true, _) => .error (.invalid .BLOCK_CONSENSUS "bad-txns-BIP30")
    | (false, coins) => .ok coins
  else .ok coins

/-- What `ConnectBlock` writes to the block index for a block with an extension block. -/
def updateBlockIndex (index : CBlockIndex) : BlockCheck CBlockIndex :=
  match block.mweb_block with
  | none => .ok index
  | some mweb_block => do
    match ← orFault block.getHogEx with
    | none =>
      if index.haveMWEB then pure index
      else throw (.fault (.undefinedBehavior "pHogEx->GetHash()"))
    | some pHogEx =>
      if index.haveMWEB then pure index
      else pure { index with
        haveMWEB := true
        mweb_header := some mweb_block.header
        hogex_hash := pHogEx.hash
        mweb_amount := (pHogEx.vout.head?.map CTxOut.nValue).getD 0 }

/-- `vtx[0]->GetValueOut()` -/
def CBlock.coinbaseValueOut : Except Fault Int :=
  match block.vtx with
  | [] => .error (.undefinedBehavior "vtx[0]")
  | coinbase :: _ => coinbase.getValueOut

/-- What `ConnectBlock` leaves. -/
structure Connected (B : Type) where
  blockundo : CBlockUndo
  view : UtxoView B
  index : CBlockIndex

/-- `ConnectBlock` after the checks that need no coins, for a block with a parent. -/
def connectTail (pindex pindexPrev : ChainIndex) (view : UtxoView B)
    (fJustCheck : Bool) : BlockCheck (Connected B) := do
  let coins ← checkBIP30 env pindexPrev view.coins block
  let (nFees, txundos, view) ← connectTxs env pindex { view with coins } 0 0 block.vtx
  let blockReward ←
    orFault (toAmount (nFees + getBlockSubsidy env.params pindex.index.nHeight.toNat))
  let value_out ← orFault block.coinbaseValueOut
  if value_out > blockReward then throw (.invalid .BLOCK_CONSENSUS "bad-cb-amount")
  if !env.checkQueueWait block then throw (.invalid .BLOCK_CONSENSUS "block-validation-failed")
  let (mwundo, mweb) ← connectMWEBBlock env block pindexPrev view.mwebBase view.mweb
  -- the coinbase has no undo data
  let blockundo : CBlockUndo := { vtxundo := txundos.tail, mwundo := mwundo }
  if fJustCheck then
    pure { blockundo := blockundo, view := { view with mweb }, index := pindex.index }
  else
    let index ← updateBlockIndex block pindex.index
    pure { blockundo := blockundo
           view := { view with coins := view.coins.setBestBlock pindex.index.hash, mweb := mweb }
           index := index }

/-- `ConnectBlock` -/
def connectBlock (pindex : ChainIndex) (view : UtxoView B) (fJustCheck : Bool) :
    BlockCheck (Connected B) := do
  if pindex.index.hash ≠ block.hash then
    throw (.fault (.assertion "*pindex->phashBlock == block.GetHash()"))
  (checkBlock env block (!fJustCheck) (!fJustCheck)).mapError fun
    | .invalid .BLOCK_MUTATED _ =>
      .abort "Corrupt block found indicating potential hardware failure; shutting down"
    | e => e
  let hashPrevBlock := (pindex.pprev.map fun p => p.index.hash).getD 0
  let (best, coins) := view.coins.getBestBlock
  if hashPrevBlock ≠ best then throw (.fault (.assertion "hashPrevBlock == view.GetBestBlock()"))
  let view := { view with coins }
  -- the coinbase of the genesis block is not added
  if block.hash = env.params.hashGenesisBlock then
    pure { blockundo := ⟨[], none⟩
           view := if fJustCheck then view
             else { view with coins := view.coins.setBestBlock pindex.index.hash }
           index := pindex.index }
  else
    match pindex.pprev with
    | none => throw (.fault (.assertion "pindex->pprev"))
    | some pindexPrev => connectTail env block pindex pindexPrev view fJustCheck

end Connect

/-! ### DisconnectBlock -/

/-- `DisconnectResult` of a block that was disconnected. -/
inductive DisconnectResult where
  | DISCONNECT_OK
  | DISCONNECT_UNCLEAN
  deriving DecidableEq

/-- How disconnecting ends otherwise; the view is then in an indeterminate state. -/
inductive DisconnectStop where
  /-- DISCONNECT_FAILED -/
  | failed
  | fault (f : Fault)
  deriving DecidableEq

/-- `MAX_OUTPUTS_PER_BLOCK` -/
def maxOutputsPerBlock : Nat :=
  maxBlockWeight / (witnessScaleFactor * CTxOut.null.serializeSize)

section Disconnect
variable {B : Type} [CoinsBase B]

namespace CCoinsViewCache

/-- The loop of `AccessByTxid` from index `n` on. -/
def accessByTxidFrom (view : CCoinsViewCache B) (txid : Uint256) (n : Nat) :
    (left : Nat) → Coin × CCoinsViewCache B
  | 0 => (coinEmpty, view)
  | left + 1 =>
    let r := view.accessCoin ⟨txid, n⟩
    if !r.1.isSpent then r else r.2.accessByTxidFrom txid (n + 1) left

/-- `AccessByTxid` -/
def accessByTxid (view : CCoinsViewCache B) (txid : Uint256) : Coin × CCoinsViewCache B :=
  view.accessByTxidFrom txid 0 maxOutputsPerBlock

/-- The coin to restore, with its metadata. -/
def undoMetadata (view : CCoinsViewCache B) (undo : Coin) (out : COutPoint) :
    Except DisconnectStop (Coin × CCoinsViewCache B) :=
  if undo.nHeight = 0 then
    -- old undo records have the height only once for all outputs of a transaction
    let (alternate, view) := view.accessByTxid out.hash
    if !alternate.isSpent then
      .ok ({ undo with nHeight := alternate.nHeight, fCoinBase := alternate.fCoinBase }, view)
    else .error .failed
  else .ok (undo, view)

/-- `ApplyTxInUndo`: whether the outpoint was free, and the view. -/
def applyTxInUndo (view : CCoinsViewCache B) (undo : Coin) (out : COutPoint) :
    Except DisconnectStop (Bool × CCoinsViewCache B) := do
  let (found, view) := view.haveCoin out
  let fClean := !found
  let (undo, view) ← view.undoMetadata undo out
  let view ← (view.addCoin out undo (!fClean)).mapError .fault
  pure (fClean, view)

/-- The loop of `DisconnectBlock` over the outputs of a transaction, from output `o` on. -/
def disconnectOutputs (tx : CTransaction) (nHeight : BitVec 31) (view : CCoinsViewCache B)
    (fClean : Bool) (o : Nat) : List CTxOut → Bool × CCoinsViewCache B
  | [] => (fClean, view)
  | out :: rest =>
    if out.scriptPubKey.isUnspendable then view.disconnectOutputs tx nHeight fClean (o + 1) rest
    else
      let (spent, view) := view.spendCoin ⟨tx.hash, o⟩
      let coin := spent.getD coinEmpty
      let matched := spent.isSome && decide (out = coin.out) && decide (nHeight = coin.nHeight) &&
        (tx.isCoinBase == coin.fCoinBase)
      view.disconnectOutputs tx nHeight (fClean && matched) (o + 1) rest

/-- The loop of `DisconnectBlock` that restores inputs, in the order of the list. -/
def restoreInputs (view : CCoinsViewCache B) (fClean : Bool) :
    List (COutPoint × Coin) → Except DisconnectStop (Bool × CCoinsViewCache B)
  | [] => .ok (fClean, view)
  | (out, undo) :: rest => do
    let (res, view) ← view.applyTxInUndo undo out
    view.restoreInputs (fClean && res) rest

/-- The body of the loop of `DisconnectBlock` over the transactions. The first transaction of a
    block comes without undo data. -/
def disconnectTx (nHeight : BitVec 31) (view : CCoinsViewCache B) (fClean : Bool) (tx : CTransaction)
    (txundo : Option CTxUndo) : Except DisconnectStop (Bool × CCoinsViewCache B) :=
  let (fClean, view) := view.disconnectOutputs tx nHeight fClean 0 tx.vout
  match txundo with
  | none => .ok (fClean, view)
  | some txundo =>
    if txundo.vprevout.length ≠ tx.vin.length then .error .failed
    else view.restoreInputs fClean ((tx.vin.map CTxIn.prevout).zip txundo.vprevout).reverse

/-- The loop of `DisconnectBlock` over the transactions, in the order of the list. -/
def disconnectTxs (nHeight : BitVec 31) (view : CCoinsViewCache B) (fClean : Bool) :
    List (CTransaction × Option CTxUndo) → Except DisconnectStop (Bool × CCoinsViewCache B)
  | [] => .ok (fClean, view)
  | (tx, txundo) :: rest => do
    let (fClean, view) ← view.disconnectTx nHeight fClean tx txundo
    view.disconnectTxs nHeight fClean rest

end CCoinsViewCache

/-- The extension block, in `DisconnectBlock`. -/
def UtxoView.undoMWEBBlock (env : Env) (view : UtxoView B) : Option Mweb.BlockUndo →
    Except DisconnectStop Mweb.CoinsViewCache
  | none => .ok view.mweb
  | some mwundo =>
    (view.mweb.undoBlock env.crypto view.mwebBase mwundo).mapError fun
      | .assertion expr => .fault (.assertion expr)
      | _ => .failed

/-- `DisconnectBlock`, given what `UndoReadFromDisk` read. -/
def disconnectBlock (env : Env) (block : CBlock) (pindex : ChainIndex) (blockUndo : Option CBlockUndo)
    (view : UtxoView B) : Except DisconnectStop (DisconnectResult × UtxoView B) :=
  match blockUndo with
  | none => .error .failed
  | some blockUndo =>
    if blockUndo.vtxundo.length + 1 ≠ block.vtx.length then .error .failed
    else do
      let (fClean, coins) ← view.coins.disconnectTxs pindex.index.nHeight true
        (block.vtx.zip (none :: blockUndo.vtxundo.map some)).reverse
      let mweb ← view.undoMWEBBlock env blockUndo.mwundo
      match pindex.pprev with
      | none => .error (.fault (.undefinedBehavior "pindex->pprev->GetBlockHash()"))
      | some pprev =>
        pure (if fClean then .DISCONNECT_OK else .DISCONNECT_UNCLEAN,
          { view with coins := coins.setBestBlock pprev.index.hash, mweb := mweb })

end Disconnect

end Defcoin
