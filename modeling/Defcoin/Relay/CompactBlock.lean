import Defcoin.Consensus.TxVerify
import Defcoin.Framework.Slots
import Defcoin.Relay.TransactionCodec

/-! # Compact blocks (blockencodings.cpp)

  A compact block has the header of a block, some of its transactions, and short hashes for the
  others, which the receiver looks up among the transactions it has. Positions are given as
  distances.

  Short hashes are a function of the header and a nonce; it and the sizes of the buckets of the table
  are parameters.
-/

namespace Defcoin.Relay

open ByteCodec Slots

/-! ### Messages -/

/-- `CBlockHeader` -/
structure CBlockHeader where
  nVersion : BitVec 32
  hashPrevBlock : Uint256
  hashMerkleRoot : Uint256
  nTime : BitVec 32
  nBits : BitVec 32
  nNonce : BitVec 32
  deriving DecidableEq

/-- `CBlockHeader()` -/
def CBlockHeader.null : CBlockHeader := ⟨0, 0, 0, 0, 0, 0⟩

/-- `CBlockHeader::IsNull` -/
def CBlockHeader.isNull (header : CBlockHeader) : Bool := header.nBits == 0

/-- `CBlock`, with its transactions as they are relayed. -/
structure CBlock where
  header : CBlockHeader
  vtx : List CMutableTransaction
  mweb_block : Option Mweb.Block

/-- `CTransaction::IsNull` -/
def CMutableTransaction.isNull (tx : CMutableTransaction) : Bool := tx.vin.isEmpty && tx.vout.isEmpty

/-- `CTransactionRef`, which may be null. -/
abbrev CTransactionRef := Option CMutableTransaction

/-- `PrefilledTransaction` -/
structure PrefilledTransaction where
  index : BitVec 16
  tx : CMutableTransaction

/-- `CBlockHeaderAndShortTxIDs` -/
structure CBlockHeaderAndShortTxIDs where
  header : CBlockHeader
  nonce : BitVec 64
  shorttxids : List (BitVec 64)
  prefilledtxn : List PrefilledTransaction
  mweb_block : Option Mweb.Block

/-- `SipHashUint256`, with the keys of `FillShortTxIDSelector`. -/
abbrev SipHash := CBlockHeader → BitVec 64 → Uint256 → BitVec 64

/-- `GetShortID` -/
def getShortID (sipHash : SipHash) (header : CBlockHeader) (nonce : BitVec 64) (txhash : Uint256) : BitVec 64 :=
  sipHash header nonce txhash &&& 0xffffffffffff

def hashFor (H : Hashing) (fUseWTXID : Bool) (tx : CMutableTransaction) : Uint256 :=
  if fUseWTXID then tx.computeWitnessHash H else tx.computeHash H

namespace CBlockHeaderAndShortTxIDs

/-- `BlockTxCount` -/
def blockTxCount (m : CBlockHeaderAndShortTxIDs) : Nat := m.shorttxids.length + m.prefilledtxn.length

/-- The prefilled transactions: the first, and the last of a block with an extension block. -/
def prefilledOf (block : CBlock) (coinbase : CMutableTransaction) : List PrefilledTransaction :=
  ⟨0, coinbase⟩ ::
    (if block.mweb_block.isSome then
      [⟨(BitVec.ofNat 64 block.vtx.length - 2).setWidth 16, block.vtx.getLastD coinbase⟩]
    else [])

/-- The constructor from a block. -/
def ofBlock (H : Hashing) (sipHash : SipHash) (nonce : BitVec 64) (fUseWTXID : Bool) (block : CBlock) :
    Except Fault CBlockHeaderAndShortTxIDs :=
  match block.vtx with
  | [] => .error (.undefinedBehavior "block.vtx[0]")
  | coinbase :: rest =>
    .ok
      { header := block.header
        nonce := nonce
        shorttxids := (rest.filter fun tx => !tx.m_hogEx).map fun tx =>
          getShortID sipHash block.header nonce (hashFor H fUseWTXID tx)
        prefilledtxn := prefilledOf block coinbase
        mweb_block := block.mweb_block }

end CBlockHeaderAndShortTxIDs

/-! ### Serialisation -/

def serHeader (header : CBlockHeader) : Bytes :=
  writeLE 4 header.nVersion.toNat ++ writeLE 32 header.hashPrevBlock.toNat ++
    writeLE 32 header.hashMerkleRoot.toNat ++ writeLE 4 header.nTime.toNat ++
    writeLE 4 header.nBits.toNat ++ writeLE 4 header.nNonce.toNat

def unserHeader : Reader CBlockHeader := do
  let nVersion ← readLE 4
  let hashPrevBlock ← readLE 32
  let hashMerkleRoot ← readLE 32
  let nTime ← readLE 4
  let nBits ← readLE 4
  let nNonce ← readLE 4
  pure
    { nVersion := BitVec.ofNat 32 nVersion
      hashPrevBlock := BitVec.ofNat 256 hashPrevBlock
      hashMerkleRoot := BitVec.ofNat 256 hashMerkleRoot
      nTime := BitVec.ofNat 32 nTime
      nBits := BitVec.ofNat 32 nBits
      nNonce := BitVec.ofNat 32 nNonce }

def serPrefilled (v : StreamFlags) (p : PrefilledTransaction) : Bytes :=
  writeCompactSize p.index.toNat ++ p.tx.serialize v

def unserPrefilled (v : StreamFlags) : Reader PrefilledTransaction := do
  let index ← readCompactSize
  ensure (index ≤ 0xffff) "CompactSize exceeds limit of type"
  let tx ← CMutableTransaction.unserialize v
  pure { index := BitVec.ofNat 16 index, tx }

namespace CBlockHeaderAndShortTxIDs

section Serialisation
variable (writeMweb : Mweb.Block → Bytes) (readMweb : Reader Mweb.Block) (v : StreamFlags)

/-- `Serialize`, with the serialisation of the extension block as a parameter. -/
def serialize (m : CBlockHeaderAndShortTxIDs) : Bytes :=
  serHeader m.header ++ writeLE 8 m.nonce.toNat ++
    writeVector (fun id => writeLE 6 id.toNat) m.shorttxids ++
    writeVector (serPrefilled v) m.prefilledtxn ++
    (if v.fAllowMWEB then serOptionalPtr writeMweb m.mweb_block else [])

def unserMwebBlock : Reader (Option Mweb.Block) :=
  if v.fAllowMWEB then unserOptionalPtr readMweb else pure none

/-- `Unserialize` -/
def unserialize : Reader CBlockHeaderAndShortTxIDs := do
  let header ← unserHeader
  let nonce ← readLE 8
  let shorttxids ← readVector (readLE 6)
  let prefilledtxn ← readVector (unserPrefilled v)
  let mweb_block ← unserMwebBlock readMweb v
  ensure (shorttxids.length + prefilledtxn.length ≤ 0xffff) "indexes overflowed 16 bits"
  pure
    { header
      nonce := BitVec.ofNat 64 nonce
      shorttxids := shorttxids.map (BitVec.ofNat 64)
      prefilledtxn
      mweb_block }

end Serialisation

end CBlockHeaderAndShortTxIDs

/-! ### Reconstruction -/

/-- `ReadStatus` -/
inductive ReadStatus where
  | READ_STATUS_OK | READ_STATUS_INVALID | READ_STATUS_FAILED | READ_STATUS_CHECKBLOCK_FAILED
  deriving DecidableEq

/-- `PartiallyDownloadedBlock`. A null pointer is an empty slot. -/
structure PartiallyDownloadedBlock where
  txn_available : List CTransactionRef
  prefilled_count : Nat
  mempool_count : BitVec 64
  extra_count : BitVec 64
  header : CBlockHeader
  mweb_block : Option Mweb.Block

namespace PartiallyDownloadedBlock

def new (mweb_block : Option Mweb.Block) : PartiallyDownloadedBlock := ⟨[], 0, 0, 0, .null, mweb_block⟩

/-- `MAX_BLOCK_WEIGHT / MIN_SERIALIZABLE_TRANSACTION_WEIGHT` -/
def maxTxCount : Nat := maxBlockWeight / (witnessScaleFactor * 10)

/-- The loop of `InitData` over the prefilled transactions: whether the message is valid so far. -/
def placePrefilled (shorttxids : Nat) : Nat → Int → List PrefilledTransaction →
    List CTransactionRef → Except Fault (Bool × List CTransactionRef)
  | _, _, [], txn_available => .ok (true, txn_available)
  | i, lastprefilledindex, p :: prefilledtxn, txn_available =>
    if p.tx.isNull then .ok (false, txn_available)
    else
      let lastprefilledindex := lastprefilledindex + p.index.toNat + 1
      if lastprefilledindex > 0xffff then .ok (false, txn_available)
      else if lastprefilledindex.toNat > shorttxids + i then .ok (false, txn_available)
      else do
        let txn_available ← setAt (.undefinedBehavior "txn_available[lastprefilledindex]") txn_available
          lastprefilledindex.toNat (some p.tx)
        placePrefilled shorttxids (i + 1) lastprefilledindex prefilledtxn txn_available

/-- The inner loop over positions that are filled. The offset has sixteen bits, so a loop of more
    rounds than it has values does not end. -/
def skipFilled (txn_available : List CTransactionRef) (i : Nat) : Nat → BitVec 16 →
    Except Fault (BitVec 16)
  | 0, _ => .error (.undefinedBehavior "while (txn_available[i + index_offset])")
  | rounds + 1, index_offset => do
    let tx ← getAt (.undefinedBehavior "txn_available[i + index_offset]") txn_available (i + index_offset.toNat)
    if tx.isSome then skipFilled txn_available i rounds (index_offset + 1) else pure index_offset

/-- The positions of short hashes. -/
abbrev ShortTxIDs := AList fun _ : BitVec 64 => BitVec 16

/-- `bucket_size(bucket(id))`, for a table made with a number of buckets and the hashes that are in
    it. -/
abbrev BucketSize := Nat → List (BitVec 64) → BitVec 64 → Nat

/-- The loop of `InitData` over the short hashes. Nothing is returned if a bucket has too many
    elements. -/
def assignShortIDs (bucketSize : BucketSize) (buckets : Nat) (txn_available : List CTransactionRef) :
    Nat → BitVec 16 → List (BitVec 64) → ShortTxIDs → Except Fault (Option ShortTxIDs)
  | _, _, [], shorttxids => .ok (some shorttxids)
  | i, index_offset, id :: ids, shorttxids => do
    let index_offset ← skipFilled txn_available i (2 ^ 16) index_offset
    let shorttxids := shorttxids.insert id (BitVec.ofNat 16 (i + index_offset.toNat))
    if bucketSize buckets shorttxids.keys id > 12 then pure none
    else assignShortIDs bucketSize buckets txn_available (i + 1) index_offset ids shorttxids

/-- What the loops over known transactions change. -/
structure Scan where
  txn_available : List CTransactionRef
  have_txn : List Bool
  mempool_count : BitVec 64
  extra_count : BitVec 64

/-- A reference whose short hash has the position `k`. If there is a transaction already and they
    differ, neither is used; `extra` is added to the second count. -/
def offer (differs : CMutableTransaction → CTransactionRef → Except Fault Bool) (extra : BitVec 64) (s : Scan)
    (k : Nat) (tx : CTransactionRef) : Except Fault Scan := do
  let seen ← getAt (.undefinedBehavior "have_txn[idit->second]") s.have_txn k
  let old ← getAt (.undefinedBehavior "txn_available[idit->second]") s.txn_available k
  if !seen then
    pure
      { txn_available := s.txn_available.set k tx
        have_txn := s.have_txn.set k true
        mempool_count := s.mempool_count + 1
        extra_count := s.extra_count + extra }
  else match old with
    | none => pure s
    | some old =>
      if ← differs old tx then
        pure
          { s with
            txn_available := s.txn_available.set k none
            mempool_count := s.mempool_count - 1
            extra_count := s.extra_count - extra }
      else pure s

/-- One round of the loops over known transactions. -/
def consider (shortID : Uint256 → BitVec 64) (shorttxids : ShortTxIDs)
    (differs : CMutableTransaction → CTransactionRef → Except Fault Bool) (extra : BitVec 64) (s : Scan)
    (known : Uint256 × CTransactionRef) : Except Fault Scan :=
  match shorttxids.lookup (shortID known.1) with
  | some k => offer differs extra s k.toNat known.2
  | none => .ok s

/-- The loops over known transactions, which end early when everything is found. -/
def scan (shortID : Uint256 → BitVec 64) (shorttxids : ShortTxIDs)
    (differs : CMutableTransaction → CTransactionRef → Except Fault Bool) (extra : BitVec 64) :
    List (Uint256 × CTransactionRef) → Scan → Except Fault Scan
  | [], s => .ok s
  | known :: rest, s => do
    let s ← consider shortID shorttxids differs extra s known
    if s.mempool_count = BitVec.ofNat 64 shorttxids.keys.length then pure s
    else scan shortID shorttxids differs extra rest s

/-- The references to the transactions of the pool. -/
def refs (vTxHashes : List (Uint256 × CMutableTransaction)) : List (Uint256 × CTransactionRef) :=
  vTxHashes.map fun x => (x.1, some x.2)

/-- The loop over `pool->vTxHashes`: any second match counts. -/
def scanPool (shortID : Uint256 → BitVec 64) (shorttxids : ShortTxIDs)
    (vTxHashes : List (Uint256 × CMutableTransaction)) : Scan → Except Fault Scan :=
  scan shortID shorttxids (fun _ _ => .ok true) 0 (refs vTxHashes)

/-- A null reference is followed. -/
abbrev nullFollowed : Fault := .undefinedBehavior "extra_txn[i].second->GetWitnessHash()"

/-- The comparison with a reference of `extra_txn`, made without a look whether it is null. -/
def witnessDiffers (H : Hashing) (old : CMutableTransaction) : CTransactionRef → Except Fault Bool
  | some tx => .ok (old.computeWitnessHash H != tx.computeWitnessHash H)
  | none => .error nullFollowed

/-- The loop over `extra_txn`: a second match with the same witness hash does not count. -/
def scanExtra (H : Hashing) (shortID : Uint256 → BitVec 64) (shorttxids : ShortTxIDs) :
    List (Uint256 × CTransactionRef) → Scan → Except Fault Scan :=
  scan shortID shorttxids (witnessDiffers H) 1

section InitData
variable (H : Hashing) (sipHash : SipHash) (bucketSize : BucketSize) (m : CBlockHeaderAndShortTxIDs)

/-- The loops over known transactions, one after the other. -/
def lookUp (shorttxids : ShortTxIDs) (vTxHashes : List (Uint256 × CMutableTransaction))
    (extra_txn : List (Uint256 × CTransactionRef)) (p : PartiallyDownloadedBlock) :
    Except Fault PartiallyDownloadedBlock := do
  let shortID := getShortID sipHash m.header m.nonce
  let s ← scanPool shortID shorttxids vTxHashes
    ⟨p.txn_available, List.replicate p.txn_available.length false, p.mempool_count, p.extra_count⟩
  let s ← scanExtra H shortID shorttxids extra_txn s
  pure
    { p with
      txn_available := s.txn_available
      mempool_count := s.mempool_count
      extra_count := s.extra_count }

variable (vTxHashes : List (Uint256 × CMutableTransaction)) (extra_txn : List (Uint256 × CTransactionRef))

/-- `InitData` from the short hashes on. -/
def matchShortIDs (p : PartiallyDownloadedBlock) : Except Fault (ReadStatus × PartiallyDownloadedBlock) := do
  let assigned ← assignShortIDs bucketSize m.shorttxids.length p.txn_available 0 0 m.shorttxids ∅
  match assigned with
  | none => pure (.READ_STATUS_FAILED, p)
  | some shorttxids =>
    if shorttxids.keys.length ≠ m.shorttxids.length then pure (.READ_STATUS_FAILED, p)
    else (lookUp H sipHash m shorttxids vTxHashes extra_txn p).map fun p => (.READ_STATUS_OK, p)

/-- `InitData` -/
def initData (p : PartiallyDownloadedBlock) : Except Fault (ReadStatus × PartiallyDownloadedBlock) :=
  if m.header.isNull || (m.shorttxids.isEmpty && m.prefilledtxn.isEmpty) then .ok (.READ_STATUS_INVALID, p)
  else if m.shorttxids.length + m.prefilledtxn.length > maxTxCount then .ok (.READ_STATUS_INVALID, p)
  else if !p.header.isNull || !p.txn_available.isEmpty then .ok (.READ_STATUS_INVALID, p)
  else do
    let placed ← placePrefilled m.shorttxids.length 0 (-1) m.prefilledtxn (List.replicate m.blockTxCount none)
    let p := { p with header := m.header, mweb_block := m.mweb_block, txn_available := placed.2 }
    if !placed.1 then pure (.READ_STATUS_INVALID, p)
    else
      matchShortIDs H sipHash bucketSize m vTxHashes extra_txn
        { p with prefilled_count := m.prefilledtxn.length }

end InitData

/-- What the loop of `FillBlock` has done: the transactions in place, how many of those sent were
    used, and the slots it did not get to. -/
structure Filled where
  vtx : List CMutableTransaction
  tx_missing_offset : Nat
  left : List CTransactionRef

/-- The loop of `FillBlock`. The block has as many places as there are slots. -/
def fillSlots (vtx_missing : List CMutableTransaction) : List CTransactionRef → Nat →
    Except Fault Filled
  | [], tx_missing_offset => .ok ⟨[], tx_missing_offset, []⟩
  | some tx :: slots, tx_missing_offset => do
    let filled ← fillSlots vtx_missing slots tx_missing_offset
    pure { filled with vtx := tx :: filled.vtx }
  | none :: slots, tx_missing_offset =>
    if vtx_missing.length ≤ tx_missing_offset then .ok ⟨[], tx_missing_offset, none :: slots⟩
    else do
      let tx ← getAt (.undefinedBehavior "vtx_missing[tx_missing_offset++]") vtx_missing tx_missing_offset
      let filled ← fillSlots vtx_missing slots (tx_missing_offset + 1)
      pure { filled with vtx := tx :: filled.vtx }

/-- `CheckBlockFn`: the result in the state if the check fails. -/
abbrev CheckBlockFn := CBlock → Option BlockValidationResult

def statusOf : Option BlockValidationResult → ReadStatus
  | none => .READ_STATUS_OK
  | some .BLOCK_MUTATED => .READ_STATUS_FAILED
  | some _ => .READ_STATUS_CHECKBLOCK_FAILED

/-- `FillBlock`: the status, the block if all its places were filled, and what is left of the
    object. -/
def fillBlock (checkBlock : CheckBlockFn) (p : PartiallyDownloadedBlock) (vtx_missing : List CMutableTransaction) :
    Except Fault (ReadStatus × Option CBlock × PartiallyDownloadedBlock) :=
  if p.header.isNull then .ok (.READ_STATUS_INVALID, none, p)
  else do
    let filled ← fillSlots vtx_missing p.txn_available 0
    if !filled.left.isEmpty then
      -- the slots passed were moved from
      pure (.READ_STATUS_INVALID, none,
        { p with txn_available := List.replicate filled.vtx.length none ++ filled.left })
    else
      let block : CBlock := ⟨p.header, filled.vtx, p.mweb_block⟩
      let p := { p with header := .null, txn_available := [] }
      if vtx_missing.length ≠ filled.tx_missing_offset then pure (.READ_STATUS_INVALID, some block, p)
      else pure (statusOf (checkBlock block), some block, p)

end PartiallyDownloadedBlock

end Defcoin.Relay
