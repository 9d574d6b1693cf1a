import Defcoin.Consensus.ConnectBlock

/-! # The coin database and ReplayBlocks

  The coin database is written in several batches. Meanwhile it has no best block, and its head
  blocks name the tips it moves between. After a crash `ReplayBlocks` disconnects the old branch and
  applies the new one on whatever mix of the two the database holds.

  A pointer into the block index is the entry with its ancestors, and pointers are the same if their
  hashes are. The encoding of coins and blocks on disk is left out; undo data is read from its bytes.
-/

namespace Defcoin

open ByteCodec

/-! ### CCoinsViewDB -/

/-- `CCoinsViewDB`: the records of the coin database. -/
structure CCoinsViewDB where
  /-- DB_COIN -/
  coins : CoinMap
  /-- DB_BEST_BLOCK -/
  bestBlock : Option Uint256
  /-- DB_HEAD_BLOCKS -/
  headBlocks : Option (List Uint256)

namespace CCoinsViewDB

variable (db : CCoinsViewDB)

/-- `CCoinsViewDB::GetBestBlock` -/
def getBestBlock : Uint256 := db.bestBlock.getD 0

/-- `CCoinsViewDB::GetHeadBlocks` -/
def getHeadBlocks : List Uint256 := db.headBlocks.getD []

variable (hashBlock : Uint256)

/-- The tip that a write of `hashBlock` starts from. -/
def oldTip : Except Fault Uint256 :=
  if db.getBestBlock.isNull then
    -- we may be in the middle of replaying
    match db.getHeadBlocks with
    | [head, old_tip] =>
      if head = hashBlock then .ok old_tip else .error (.assertion "old_heads[0] == hashBlock")
    | _ => .ok db.getBestBlock
  else .ok db.getBestBlock

def beginWrite : Except Fault CCoinsViewDB :=
  if hashBlock.isNull then .error (.assertion "!hashBlock.IsNull()")
  else do
    let old_tip ← db.oldTip hashBlock
    pure { db with bestBlock := none, headBlocks := some [hashBlock, old_tip] }

/-- The loop body of `CCoinsViewDB::BatchWrite`. -/
def writeEntry (outpoint : COutPoint) (e : CCoinsCacheEntry) : CCoinsViewDB :=
  if e.dirty then { db with coins := db.coins.set outpoint e.unspent? } else db

def endWrite : CCoinsViewDB :=
  { db with bestBlock := some hashBlock, headBlocks := none }

/-- `CCoinsViewDB::BatchWrite` -/
def batchWrite (mapCoins : CCoinsMap) (hashBlock : Uint256) :
    Except Fault CCoinsViewDB := do
  let started ← db.beginWrite hashBlock
  let written := mapCoins.entries.foldl (fun db e => db.writeEntry e.1 e.2) started
  pure (written.endWrite hashBlock)

/-- The database after a crash in `BatchWrite`, when the batches with the first `written` entries
    have reached it. -/
def interruptedWrite (mapCoins : CCoinsMap) (hashBlock : Uint256) (written : Nat) :
    Except Fault CCoinsViewDB := do
  let started ← db.beginWrite hashBlock
  pure ((mapCoins.entries.take written).foldl (fun db e => db.writeEntry e.1 e.2) started)

end CCoinsViewDB

instance : CoinsBase CCoinsViewDB where
  getCoin db := db.coins
  getBestBlock := CCoinsViewDB.getBestBlock
  batchWrite := CCoinsViewDB.batchWrite

/-! ### Blocks and undo data on disk -/

/-- The block index, and what the block and undo files hold for its entries. -/
structure BlockStore where
  /-- `m_block_index` -/
  blockIndex : Uint256 → Option ChainIndex
  /-- `InsertBlockIndex` makes no entry for the null hash -/
  null_hash : blockIndex 0 = none
  /-- the block at `GetBlockPos()` -/
  blocks : Uint256 → Option CBlock
  /-- the undo file from four bytes before `GetUndoPos()` on -/
  undo : Uint256 → Option Bytes

def serUint256 (hash : Uint256) : Bytes := writeLE 32 hash.toNat

section Disk
variable (env : Env) (store : BlockStore)

/-- `ReadBlockFromDisk` -/
def readBlockFromDisk (pindex : ChainIndex) : Option CBlock :=
  match store.blocks pindex.index.hash with
  | none => none
  | some block =>
    if !env.checkProofOfWork block then none
    else if env.params.signet_blocks && !env.checkSignetBlockSolution block then none
    else if block.hash ≠ pindex.index.hash then none
    else some block

/-- What `UndoWriteToDisk` appends after the message start bytes. -/
def undoRecord (blockundo : CBlockUndo) (hashBlock : Uint256) : Bytes :=
  let data := serBlockUndo env.curve blockundo
  writeLE 4 (blockundo.diskSize env.curve) ++
    (data ++ serUint256 (env.getHash (serUint256 hashBlock ++ data)))

def readUndoData (hashPrev : Uint256) (undo_size : Nat) : Reader CBlockUndo := fun bs => do
  let (blockundo, rest) ← unserializeBlockUndo env.curve undo_size bs
  let (hashChecksum, rest') ← readLE 32 rest
  let read := bs.take (bs.length - rest.length)
  if hashChecksum ≠ (env.getHash (serUint256 hashPrev ++ read)).toNat then
    throw "Checksum mismatch"
  pure (blockundo, rest')

/-- `UndoReadFromDisk`. The size is read outside of the exception handler. -/
def undoReadFromDisk (pindex pprev : ChainIndex) : Except Fault (Option CBlockUndo) :=
  match store.undo pindex.index.hash with
  | none => .ok none
  | some bytes =>
    match readLE 4 bytes with
    | .error what => .error (.iosFailure what)
    | .ok (undo_size, data) =>
      match readUndoData env pprev.index.hash undo_size data with
      | .error _ => .ok none
      | .ok (blockundo, _) => .ok (some blockundo)

end Disk

/-- The loop of `LastCommonAncestor` along two lines of ancestors. -/
def meet : List ChainIndex → List ChainIndex → Except Fault (Option ChainIndex)
  | [], [] => .ok none
  | pa :: as, pb :: bs => if pa.index.hash = pb.index.hash then .ok (some pa) else meet as bs
  | _, _ => .error (.assertion "pa == pb")

/-- The line of `pindex` from the given height down, if it reaches above it. -/
def ChainIndex.lineUpTo (pindex : ChainIndex) (height : Nat) : List ChainIndex :=
  pindex.line.dropWhile fun p => decide (p.index.nHeight.toNat > height)

/-- `LastCommonAncestor` -/
def lastCommonAncestor (pa pb : ChainIndex) : Except Fault (Option ChainIndex) :=
  meet (pa.lineUpTo pb.index.nHeight.toNat) (pb.lineUpTo pa.index.nHeight.toNat)

/-! ### Rolling back and forward -/

/-- How `ReplayBlocks` ends other than by returning true. -/
inductive ReplayStop where
  /-- `return error(...)`, with the format of the message -/
  | error (message : String)
  | fault (f : Fault)
  deriving DecidableEq

section Replay
variable {B : Type} [CoinsBase B]

namespace CCoinsViewCache

/-- The loop of `RollforwardBlock` over the inputs of a transaction. -/
def rollforwardInputs (inputs : CCoinsViewCache B) : List CTxIn → CCoinsViewCache B
  | [] => inputs
  | txin :: rest => (inputs.spendCoin txin.prevout).2.rollforwardInputs rest

/-- The body of the loop of `RollforwardBlock` over the transactions. -/
def rollforwardTx (inputs : CCoinsViewCache B) (nHeight : BitVec 31) (tx : CTransaction) :
    Except Fault (CCoinsViewCache B) :=
  -- every addition may be an overwrite
  (if tx.isCoinBase then inputs else inputs.rollforwardInputs tx.vin).addCoins tx nHeight true

/-- The loop of `RollforwardBlock` over the transactions. -/
def rollforwardTxs (inputs : CCoinsViewCache B) (nHeight : BitVec 31) :
    List CTransaction → Except Fault (CCoinsViewCache B)
  | [] => .ok inputs
  | tx :: rest => do
    let inputs ← inputs.rollforwardTx nHeight tx
    inputs.rollforwardTxs nHeight rest

end CCoinsViewCache

variable (env : Env) (store : BlockStore)

/-- The extension block, in `RollforwardBlock`. -/
def UtxoView.rollforwardMWEB (view : UtxoView B) (block : CBlock) (pindex : ChainIndex) :
    Except ReplayStop Mweb.CoinsViewCache :=
  if block.mweb_block.isNone then .ok view.mweb
  else
    match pindex.pprev with
    | none => .error (.fault (.undefinedBehavior "pindex->pprev"))
    | some pprev =>
      match connectMWEBBlock env block pprev view.mwebBase view.mweb with
      | .ok (_, mweb) => .ok mweb
      | .error (.fault f) => .error (.fault f)
      | .error _ => .error (.error "ReplayBlock(): MWEB ConnectBlock failed at %d, hash=%s (%s)")

/-- `RollforwardBlock` -/
def rollforwardBlock (pindex : ChainIndex) (inputs : UtxoView B) : Except ReplayStop (UtxoView B) :=
  match readBlockFromDisk env store pindex with
  | none => .error (.error "ReplayBlock(): ReadBlockFromDisk failed at %d, hash=%s")
  | some block => do
    let coins ← (inputs.coins.rollforwardTxs pindex.index.nHeight block.vtx).mapError .fault
    let mweb ← inputs.rollforwardMWEB env block pindex
    pure { inputs with coins, mweb }

/-- The loop of `ReplayBlocks` over the heights of the new branch. -/
def rollforward (pindexNew : ChainIndex) (view : UtxoView B) :
    List Nat → Except ReplayStop (UtxoView B)
  | [] => .ok view
  | nHeight :: rest =>
    match pindexNew.getAncestor nHeight with
    | none => .error (.fault (.undefinedBehavior "pindex->GetBlockHash()"))
    | some pindex => do
      let view ← rollforwardBlock env store pindex view
      rollforward pindexNew view rest

/-- `DisconnectBlock` of a block that is read from disk, in `ReplayBlocks`. -/
def rollbackBlock (pindexOld pprev : ChainIndex) (view : UtxoView B) : Except ReplayStop (UtxoView B) :=
  match readBlockFromDisk env store pindexOld with
  | none => .error (.error "RollbackBlock(): ReadBlockFromDisk() failed at %d, hash=%s")
  | some block => do
    let blockUndo ← (undoReadFromDisk env store pindexOld pprev).mapError .fault
    -- DISCONNECT_UNCLEAN is expected here
    match disconnectBlock env block pindexOld blockUndo view with
    | .ok (_, view) => pure view
    | .error .failed => throw (.error "RollbackBlock(): DisconnectBlock failed at %d, hash=%s")
    | .error (.fault f) => throw (.fault f)

/-- The body of the loop of `ReplayBlocks` along the old branch. -/
def rollbackStep (pindexOld : ChainIndex) (view : UtxoView B) : Except ReplayStop (UtxoView B) :=
  -- the genesis block is never disconnected
  if pindexOld.index.nHeight.toNat > 0 then
    match pindexOld.pprev with
    | none => .error (.fault (.undefinedBehavior "pindex->pprev->GetBlockHash()"))
    | some pprev => rollbackBlock env store pindexOld pprev view
  else .ok view

/-- The loop of `ReplayBlocks` along the old branch, down to the fork. -/
def rollback (pindexFork : Option ChainIndex) (view : UtxoView B) :
    List ChainIndex → Except ReplayStop (UtxoView B)
  | [] =>
    if pindexFork.isNone then .ok view else .error (.fault (.undefinedBehavior "pindexOld->nHeight"))
  | pindexOld :: rest =>
    if some pindexOld.index.hash = pindexFork.map (fun p => p.index.hash) then .ok view
    else do
      let view ← rollbackStep env store pindexOld view
      rollback pindexFork view rest

end Replay

/-! ### ReplayBlocks -/

section Recovery
variable (env : Env) (store : BlockStore)

/-- The old tip and the fork. The old tip is allowed to be null, for the first flush. -/
def BlockStore.oldAndFork (hashOld : Uint256) (pindexNew : ChainIndex) :
    Except ReplayStop (Option ChainIndex × Option ChainIndex) :=
  if hashOld.isNull then .ok (none, none)
  else
    match store.blockIndex hashOld with
    | none => .error (.error "ReplayBlocks(): reorganization from unknown block requested")
    | some pindexOld =>
      match lastCommonAncestor pindexOld pindexNew with
      | .error f => .error (.fault f)
      | .ok none => .error (.fault (.assertion "pindexFork != nullptr"))
      | .ok (some pindexFork) => .ok (some pindexOld, some pindexFork)

def newHeights (pindexFork : Option ChainIndex) (pindexNew : ChainIndex) : List Nat :=
  let nForkHeight := (pindexFork.map fun p => p.index.nHeight.toNat).getD 0
  List.range' (nForkHeight + 1) (pindexNew.index.nHeight.toNat - nForkHeight)

/-- `ReplayBlocks` between the two tips. -/
def replayBetween (db : CCoinsViewDB) (mwebDB : Mweb.CoinsView) (pindexNew : ChainIndex)
    (pindexOld pindexFork : Option ChainIndex) : Except ReplayStop (CCoinsViewDB × Mweb.CoinsView) := do
  let view : UtxoView CCoinsViewDB :=
    { coins := .new (.base db)
      mwebBase := mwebDB
      mweb := { Mweb.CoinsViewCache.new mwebDB with
        header := pindexOld.bind fun p => p.index.mweb_header } }
  let view ← rollback env store pindexFork view ((pindexOld.map ChainIndex.line).getD [])
  let view ← rollforward env store pindexNew view (newHeights pindexFork pindexNew)
  let view ← (UtxoView.flush env
    { view with coins := view.coins.setBestBlock pindexNew.index.hash }).mapError .fault
  pure (view.coins.base.bottom, view.mwebBase)

/-- `ReplayBlocks`: the databases after it. -/
def replayBlocks (db : CCoinsViewDB) (mwebDB : Mweb.CoinsView) :
    Except ReplayStop (CCoinsViewDB × Mweb.CoinsView) :=
  match db.getHeadBlocks with
  | [] => .ok (db, mwebDB)
  | [hashNew, hashOld] =>
    match store.blockIndex hashNew with
    | none => .error (.error "ReplayBlocks(): reorganization to unknown block requested")
    | some pindexNew => do
      let (pindexOld, pindexFork) ← store.oldAndFork hashOld pindexNew
      replayBetween env store db mwebDB pindexNew pindexOld pindexFork
  | _ => .error (.error "ReplayBlocks(): unknown inconsistent state")

end Recovery

end Defcoin
