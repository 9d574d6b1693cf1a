import Defcoin.Mweb.LeafSet
import Defcoin.Mweb.Pmmr

/-! # Views of the extension block's coins

  A stack of `CoinsViewCache`s over a `CoinsViewDB`. Each layer has a best header, a leaf set, an
  output MMR and, for a cache, a log of actions per output id. Reads go down the stack; a flush
  writes a cache into the layer below it.

  The layers below a cache are passed to its operations, as the source reaches them through
  `m_pBase`. Numbering of the MMR files is left out.
-/

namespace Defcoin.Mweb

/-! ### The action log -/

/-- `CoinsViewUpdates`: the actions for each output id. An action is the coin added, or `none` for a
    spend. -/
abbrev CoinsViewUpdates := AList fun _ : Hash => List (Option UTXO)

namespace CoinsViewUpdates

variable (u : CoinsViewUpdates) (output_id : Hash)

/-- `GetActions(output_id)` -/
def getActions : List (Option UTXO) :=
  (u.lookup output_id).getD []

/-- `AddAction` -/
def addAction (action : Option UTXO) : CoinsViewUpdates :=
  u.insert output_id (u.getActions output_id ++ [action])

/-- `AddUTXO` -/
def addUTXO (cr : Crypto) (u : CoinsViewUpdates) (utxo : UTXO) : CoinsViewUpdates :=
  u.addAction (utxo.getOutputID cr) (some utxo)

/-- `SpendUTXO` -/
def spendUTXO : CoinsViewUpdates :=
  u.addAction output_id none

end CoinsViewUpdates

/-- The loop of `CoinsViewCache::GetUTXO`: the coin below, then the actions of this layer. -/
def replay : Option UTXO → List (Option UTXO) → Except Error (Option UTXO)
  | pUTXO, [] => .ok pUTXO
  | none, some utxo :: actions => replay (some utxo) actions
  | some _, some _ :: _ => .error (.assertion "pUTXO == nullptr")
  | some _, none :: actions => replay none actions
  | none, none :: _ => .error (.assertion "pUTXO != nullptr")

/-! ### The layers -/

/-- The members of a `CoinsViewCache` other than its base. -/
structure CoinsViewCache where
  header : Option Header
  leafSet : LeafSetCache
  outputPMMR : PMMRCache
  updates : CoinsViewUpdates

/-- `CoinsViewDB`, between two batches -/
structure CoinsViewDB where
  header : Option Header
  coinDB : Hash → Option UTXO
  leafSet : LeafSet
  outputPMMR : PMMR

/-- `ICoinsView`: the database, or a cache over another view. -/
inductive CoinsView where
  | db (d : CoinsViewDB)
  | cache (base : CoinsView) (c : CoinsViewCache)

namespace CoinsView

/-- `GetBestHeader` -/
def getBestHeader : CoinsView → Option Header
  | db d => d.header
  | cache _ c => c.header

/-- `GetUTXO` -/
def getUTXO : CoinsView → Hash → Except Error (Option UTXO)
  | db d, output_id => .ok (d.coinDB output_id)
  | cache base c, output_id => do
    let pUTXO ← base.getUTXO output_id
    replay pUTXO (c.updates.getActions output_id)

/-- `GetLeafSet()->GetByte` -/
def getByte : CoinsView → Nat → UInt8
  | db d => d.leafSet.bytes
  | cache base c => c.leafSet.getByte base.getByte

/-- `GetLeafSet()->GetNextLeafIdx` -/
def getNextLeafIdx : CoinsView → Nat
  | db d => d.leafSet.nextLeafIdx
  | cache _ c => c.leafSet.nextLeafIdx

/-- `GetOutputPMMR()->GetHash` -/
def getHash : CoinsView → Nat → Hash
  | db d => d.outputPMMR.getHash
  | cache base c => c.outputPMMR.getHash base.getHash

/-- `GetOutputPMMR()->GetLeaf` -/
def getLeaf (cr : Crypto) : CoinsView → Nat → Option Leaf
  | db d => d.outputPMMR.getLeaf cr
  | cache base c => c.outputPMMR.getLeaf (base.getLeaf cr)

/-- `GetOutputPMMR()->GetNumLeaves` -/
def getNumLeaves : CoinsView → Nat
  | db d => d.outputPMMR.getNumLeaves
  | cache _ c => c.outputPMMR.getNextLeafIdx

/-- `GetOutputPMMR()->Root` -/
def outputRoot (cr : Crypto) (v : CoinsView) : Except Error Hash :=
  mmrRoot cr (PostOrder.leafPos v.getNumLeaves) v.getHash

/-- `GetLeafSet()->Root` -/
def leafsetRoot (cr : Crypto) (v : CoinsView) : Hash := leafSetRoot cr v.getNextLeafIdx v.getByte

end CoinsView

/-- `CoinsViewCache(pBase)` -/
def CoinsViewCache.new (base : CoinsView) : CoinsViewCache where
  header := base.getBestHeader
  leafSet := LeafSetCache.new base.getNextLeafIdx
  outputPMMR := PMMRCache.new base.getNumLeaves
  updates := ∅

/-! ### Writing a batch to the database -/

/-- A `DBTransaction` on the coin table: the items added (`m_added`) and what the batch writes. -/
structure CoinBatch where
  added : Hash → List UTXO
  written : Hash → Option (Option UTXO)

namespace CoinBatch

def empty : CoinBatch := { added := fun _ => [], written := fun _ => none }

/-- `DBTransaction::Get`: the last item added, or what the database holds -/
def get (coinDB : Hash → Option UTXO) (b : CoinBatch) (output_id : Hash) : Option UTXO :=
  match (b.added output_id).getLast? with
  | some utxo => some utxo
  | none => coinDB output_id

/-- `DBTransaction::Put` -/
def put (b : CoinBatch) (output_id : Hash) (utxo : UTXO) : CoinBatch where
  added := Function.update b.added output_id (b.added output_id ++ [utxo])
  written := Function.update b.written output_id (some (some utxo))

/-- `DBTransaction::Delete` -/
def delete (b : CoinBatch) (output_id : Hash) : CoinBatch where
  added := Function.update b.added output_id (b.added output_id).dropLast
  written := Function.update b.written output_id (some none)

def commit (coinDB : Hash → Option UTXO) (b : CoinBatch) : Hash → Option UTXO := fun output_id =>
  (b.written output_id).getD (coinDB output_id)

end CoinBatch

section
variable (cr : Crypto)

/-- One action of `CoinsViewDB::WriteBatch`. -/
def CoinsViewDB.writeAction (coinDB : Hash → Option UTXO) (b : CoinBatch)
    (output_id : Hash) : Option UTXO → Except Error CoinBatch
  | none =>
    match b.get coinDB output_id with
    | none => .error (.validation .UTXO_MISSING)
    | some _ => .ok (b.delete output_id)
  | some utxo => .ok (b.put (utxo.getOutputID cr) utxo)

/-- `CoinsViewDB::WriteBatch`, and the commit of the batch -/
def CoinsViewDB.writeBatch (d : CoinsViewDB) (updates : CoinsViewUpdates)
    (header : Option Header) : Except Error CoinsViewDB := do
  let batch ← updates.entries.foldlM
    (fun b e => e.2.foldlM (fun b action => writeAction cr d.coinDB b e.1 action) b) CoinBatch.empty
  pure { d with header, coinDB := batch.commit d.coinDB }

/-- One action of `CoinsViewCache::WriteBatch`. -/
def CoinsViewCache.writeAction (u : CoinsViewUpdates) (output_id : Hash) :
    Option UTXO → CoinsViewUpdates
  | none => u.spendUTXO output_id
  | some utxo => u.addUTXO cr utxo

/-- `CoinsViewCache::WriteBatch` -/
def CoinsViewCache.writeBatch (c : CoinsViewCache) (updates : CoinsViewUpdates)
    (header : Option Header) : CoinsViewCache :=
  { c with
    header
    updates := updates.entries.foldl
      (fun u e => e.2.foldl (fun u action => writeAction cr u e.1 action) u) c.updates }

/-! ### Flushing -/

/-- The three writes of `CoinsViewCache::Flush` into the base: coins, leaf set, output MMR. -/
def CoinsView.flushInto (top : CoinsViewCache) : CoinsView → Except Error CoinsView
  | .db d => do
    let d' ← d.writeBatch cr top.updates top.header
    let outputPMMR ← d.outputPMMR.batchWrite cr top.outputPMMR.firstLeaf top.outputPMMR.leaves
    pure (.db { d' with
      leafSet := d.leafSet.applyUpdates top.leafSet.nextLeafIdx top.leafSet.modifiedBytes
      outputPMMR })
  | .cache base c =>
    .ok (.cache base { c.writeBatch cr top.updates top.header with
      leafSet := c.leafSet.applyUpdates top.leafSet.nextLeafIdx top.leafSet.modifiedBytes
      outputPMMR :=
        c.outputPMMR.batchWrite cr base.getHash top.outputPMMR.firstLeaf top.outputPMMR.leaves })

/-- What `Flush` leaves of the cache itself. -/
def CoinsViewCache.flushed (c : CoinsViewCache) : CoinsViewCache :=
  { c with
    leafSet := { c.leafSet with modifiedBytes := ∅ }
    outputPMMR := c.outputPMMR.flushed
    updates := ∅ }

/-- `CoinsViewCache::Flush`: the base and the cache afterwards. A cache without a best header is not
    written. -/
def CoinsViewCache.flush (base : CoinsView) (c : CoinsViewCache) :
    Except Error (CoinsView × CoinsViewCache) :=
  if c.header.isNone then .ok (base, c)
  else do
    let base' ← base.flushInto cr c
    pure (base', c.flushed)

end

/-! ### Applying and undoing blocks -/

namespace CoinsViewCache
section Operations
variable (cr : Crypto) (base : CoinsView)

/-- `GetUTXO` -/
def getUTXO (c : CoinsViewCache) (output_id : Hash) : Except Error (Option UTXO) :=
  (CoinsView.cache base c).getUTXO output_id

/-- `AddUTXO` -/
def addUTXO (c : CoinsViewCache) (header_height : BitVec 32) (output : Output) :
    Except Error CoinsViewCache := do
  let pUTXO ← c.getUTXO base (output.getOutputID cr)
  if pUTXO.isSome then throw (.validation .DUPLICATES)
  let (leafIdx, outputPMMR) := c.outputPMMR.add cr base.getHash (output.getOutputID cr).bytes
  pure { c with
    outputPMMR
    leafSet := c.leafSet.add base.getByte leafIdx
    updates := c.updates.addUTXO cr { blockHeight := header_height, leafIndex := leafIdx, output } }

/-- `SpendUTXO` -/
def spendUTXO (c : CoinsViewCache) (output_id : Hash) : Except Error (UTXO × CoinsViewCache) := do
  match ← c.getUTXO base output_id with
  | none => throw (.validation .UTXO_MISSING)
  | some utxo =>
    if !c.leafSet.contains base.getByte utxo.leafIndex then throw (.validation .UTXO_MISSING)
    pure (utxo, { c with
      leafSet := c.leafSet.remove base.getByte utxo.leafIndex
      updates := c.updates.spendUTXO output_id })

/-- The loop over the outputs of a block. -/
def addOutputs (c : CoinsViewCache) (height : BitVec 32) : List Output → Except Error CoinsViewCache
  | [] => .ok c
  | output :: rest => do
    let c' ← c.addUTXO cr base height output
    c'.addOutputs height rest

/-- The loop over the inputs of a block: the coins spent, and the cache afterwards. -/
def spendInputs (c : CoinsViewCache) (allow_historical_metadata_mismatch : Bool) :
    List Input → Except Error (List UTXO × CoinsViewCache)
  | [] => .ok ([], c)
  | input :: rest => do
    match ← c.getUTXO base input.outputID with
    | none => throw (.validation .UTXO_MISSING)
    | some utxo =>
      if !allow_historical_metadata_mismatch &&
          (utxo.output.commitment != input.commitment ||
            utxo.output.receiverPubKey != input.outputPubKey) then
        throw (.validation .UTXO_MISMATCH)
      let (spentUTXO, c') ← c.spendUTXO base input.outputID
      let (coinsSpent, c'') ← c'.spendInputs allow_historical_metadata_mismatch rest
      pure (spentUTXO :: coinsSpent, c'')

/-- The comparison of a header with the MMR and the leaf set that ends `ApplyBlockChanges` and
    `UndoBlock`. -/
def checkRoots (c : CoinsViewCache) (h : Header) : Except Error Unit := do
  let v := CoinsView.cache base c
  let root ← v.outputRoot cr
  if h.outputRoot ≠ root ∨ h.outputMMRSize.toNat ≠ v.getNumLeaves ∨
      h.leafsetRoot ≠ v.leafsetRoot cr then
    throw (.validation .MMR_MISMATCH)

/-- `ApplyBlockChanges` -/
def applyBlockChanges (c : CoinsViewCache) (block : Block)
    (allow_historical_metadata_mismatch : Bool) : Except Error (BlockUndo × CoinsViewCache) := do
  let prevHeader := c.header
  let prev_offset := (prevHeader.map Header.kernelOffset).getD BigInt.zero
  validateForBlock cr block.body block.header.kernelOffset prev_offset
  let added ← addOutputs cr base { c with header := some block.header }
    (block.header.height.setWidth 32) block.body.outputs
  let (coinsSpent, spent) ←
    added.spendInputs base allow_historical_metadata_mismatch block.body.inputs
  spent.checkRoots cr base block.header
  pure ({ prevHeader, coinsSpent, coinsAdded := block.body.outputs.map (Output.getOutputID cr) }, spent)

/-- `ApplyBlock`: the changes are made in a temporary cache and flushed into this one. -/
def applyBlock (c : CoinsViewCache) (block : Block) (allow_historical_metadata_mismatch : Bool) :
    Except Error (BlockUndo × CoinsView) := do
  let self := CoinsView.cache base c
  let (undo, validation_cache) ←
    (CoinsViewCache.new self).applyBlockChanges cr self block allow_historical_metadata_mismatch
  let (self', _) ← validation_cache.flush cr self
  pure (undo, self')

/-- `UndoBlock` -/
def undoBlock (c : CoinsViewCache) (undo : BlockUndo) : Except Error CoinsViewCache :=
  let restored := undo.coinsSpent.foldl (fun u utxo => u.addUTXO cr utxo) c.updates
  let updates := undo.coinsAdded.foldl (fun u output_id => u.spendUTXO output_id) restored
  match undo.prevHeader with
  | none =>
    .ok { header := none
          leafSet := c.leafSet.rewind base.getByte 0 []
          outputPMMR := c.outputPMMR.rewind 0
          updates }
  | some h => do
    let c' : CoinsViewCache :=
      { header := some h
        leafSet := c.leafSet.rewind base.getByte h.outputMMRSize.toNat
          (undo.coinsSpent.map UTXO.leafIndex)
        outputPMMR := c.outputPMMR.rewind h.outputMMRSize.toNat
        updates }
    c'.checkRoots cr base h
    pure c'

end Operations
end CoinsViewCache

end Defcoin.Mweb
