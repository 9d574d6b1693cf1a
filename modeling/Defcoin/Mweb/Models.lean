import Defcoin.Primitives
import Defcoin.Serialize

/-! # The data of the extension block

  Headers, outputs, inputs, kernels and blocks of the MimbleWimble extension block, and the parts of
  their serialisation that end up on disk. Fixed-size values carry their length.

  The curve and hash libraries are parameters, collected in `Crypto`. Cached hashes are functions of
  the object here.
-/

namespace Defcoin.Mweb

open ByteCodec

/-! ### Fixed-size values -/

/-- `BigInt<NUM_BYTES>` -/
structure BigInt (numBytes : Nat) where
  bytes : Bytes
  size : bytes.length = numBytes
  deriving DecidableEq

namespace BigInt
variable {n : Nat}

/-- `BigInt()`: all zeros. -/
def zero : BigInt n := ⟨List.replicate n 0, List.length_replicate⟩

/-- `BigInt::IsZero` -/
def isZero (b : BigInt n) : Bool := b.bytes.all (· == 0)

@[ext] theorem ext_bytes {a b : BigInt n} (h : a.bytes = b.bytes) : a = b := by
  cases a
  cases b
  simpa using h

end BigInt

/-- `BigInt::Unserialize` -/
def readBigInt (n : Nat) : Reader (BigInt n) := fun bs =>
  if h : n ≤ bs.length then .ok (⟨bs.take n, by simp [h]⟩, bs.drop n) else .error "end of data"

theorem parses_bigInt {n : Nat} (b : BigInt n) : Parses (readBigInt n) b.bytes b := by
  intro rest
  obtain ⟨bytes, rfl⟩ := b
  simp [readBigInt]

abbrev Hash := BigInt 32

instance : LawfulBEq Hash := inferInstance

abbrev Commitment := BigInt 33
abbrev PublicKey := BigInt 33
abbrev BlindingFactor := BigInt 32
abbrev Signature := BigInt 64
/-- `RangeProof`, of `RangeProof::SIZE` bytes. -/
abbrev RangeProof := BigInt 675

/-- `EConsensusError` -/
inductive EConsensusError where
  | HASH_MISMATCH | DUPLICATES | BLOCK_WEIGHT | BLOCK_SUMS | AMOUNT_OUT_OF_RANGE | STEALTH_SUMS
  | INVALID_SIG | BULLETPROOF | PEGIN_MISMATCH | PEGOUT_MISMATCH | MMR_MISMATCH | UTXO_MISSING
  | UTXO_MISMATCH | NOT_SORTED | LOCK_HEIGHT | BAD_STATE
  deriving DecidableEq

/-- What ends an operation of `libmw` other than a normal return. -/
inductive Error where
  /-- `ThrowValidation` -/
  | validation (type : EConsensusError)
  /-- `ThrowCrypto` -/
  | crypto (msg : String)
  /-- `ThrowFile` -/
  | file (msg : String)
  /-- a failed `assert` -/
  | assertion (expr : String)
  /-- a `CAmount` overflows, which is undefined -/
  | overflow
  deriving DecidableEq

/-! ### Outputs -/

/-- The fields of an `OutputMessage` that stand under `STANDARD_FIELDS_FEATURE_BIT`. -/
structure StandardFields where
  key_exchange_pubkey : PublicKey
  view_tag : UInt8
  masked_value : BitVec 64
  masked_nonce : BigInt 16
  deriving DecidableEq

/-- The values `OutputMessage()` gives them. -/
def StandardFields.default : StandardFields :=
  { key_exchange_pubkey := BigInt.zero, view_tag := 0, masked_value := 0, masked_nonce := BigInt.zero }

/-- `OutputMessage` -/
structure OutputMessage where
  features : UInt8
  standard : StandardFields
  extra_data : Bytes
  deriving DecidableEq

namespace OutputMessage

def hasStandardFields (m : OutputMessage) : Bool := m.features &&& 0x01 != 0
def hasExtraData (m : OutputMessage) : Bool := m.features &&& 0x02 != 0

/-- What every message read from a stream satisfies: fields whose feature bit is not set keep their
    defaults, and the extra data is of a size that can be read. -/
structure Wf (m : OutputMessage) : Prop where
  standard : m.hasStandardFields = false → m.standard = StandardFields.default
  extra : m.hasExtraData = false → m.extra_data = []
  size : m.extra_data.length ≤ maxSize

end OutputMessage

/-- `Output` -/
structure Output where
  commitment : Commitment
  senderPubKey : PublicKey
  receiverPubKey : PublicKey
  message : OutputMessage
  proof : RangeProof
  signature : Signature
  deriving DecidableEq

def serByteVector (v : Bytes) : Bytes := writeCompactSize v.length ++ v

def unserByteVector : Reader Bytes := do
  let size ← readCompactSize
  readBytes size

theorem parses_byteVector {v : Bytes} (h : v.length ≤ maxSize) :
    Parses unserByteVector (serByteVector v) v :=
  (parses_compactSize h).bind (parses_bytes rfl)

def serStandardFields (f : StandardFields) : Bytes :=
  f.key_exchange_pubkey.bytes ++ ([f.view_tag] ++ (writeLE 8 f.masked_value.toNat ++ f.masked_nonce.bytes))

def unserStandardFields : Reader StandardFields := do
  let key_exchange_pubkey ← readBigInt 33
  let view_tag ← readByte
  let masked_value ← readLE 8
  let masked_nonce ← readBigInt 16
  pure ⟨key_exchange_pubkey, view_tag, BitVec.ofNat 64 masked_value, masked_nonce⟩

theorem parses_standardFields (f : StandardFields) :
    Parses unserStandardFields (serStandardFields f) f := by
  obtain ⟨key, tag, value, nonce⟩ := f
  have hvalue : BitVec.ofNat 64 value.toNat = value := BitVec.ofNat_toNat ..
  have h := (parses_bigInt nonce).map (StandardFields.mk key tag (BitVec.ofNat 64 value.toNat))
  rw [hvalue] at h
  exact (parses_bigInt key).bind ((parses_byte tag).bind
    ((parses_le (by simpa using value.isLt)).bind (by rw [hvalue]; exact h)))

/-- `OutputMessage` serialisation. -/
def serOutputMessage (m : OutputMessage) : Bytes :=
  [m.features] ++ ((if m.hasStandardFields then serStandardFields m.standard else []) ++
    (if m.hasExtraData then serByteVector m.extra_data else []))

/-- A field that is read when its feature bit is set and keeps its default otherwise. -/
def unserIf {α : Type} (set : Bool) (r : Reader α) (default : α) : Reader α :=
  if set then r else pure default

theorem parses_unserIf {α : Type} {set : Bool} {r : Reader α} {default a : α} {bs : Bytes}
    (hset : set = true → Parses r bs a) (hunset : set = false → a = default) :
    Parses (unserIf set r default) (if set then bs else []) a := by
  cases set with
  | true => exact hset rfl
  | false =>
    rw [hunset rfl]
    exact Parses.pure default

def unserOutputMessage : Reader OutputMessage := do
  let features ← readByte
  let standard ← unserIf (features &&& 0x01 != 0) unserStandardFields StandardFields.default
  let extra_data ← unserIf (features &&& 0x02 != 0) unserByteVector []
  pure ⟨features, standard, extra_data⟩

theorem parses_outputMessage {m : OutputMessage} (hm : m.Wf) :
    Parses unserOutputMessage (serOutputMessage m) m := by
  obtain ⟨features, standard, extra⟩ := m
  have hstandard := parses_unserIf (fun _ => parses_standardFields standard) hm.standard
  have hextra := parses_unserIf (fun _ => parses_byteVector hm.size) hm.extra
  exact (parses_byte features).bind (hstandard.bind (hextra.map (OutputMessage.mk features standard)))

/-- `Output` serialisation. -/
def serOutput (o : Output) : Bytes :=
  o.commitment.bytes ++ (o.senderPubKey.bytes ++ (o.receiverPubKey.bytes ++
    (serOutputMessage o.message ++ (o.proof.bytes ++ o.signature.bytes))))

def unserOutput : Reader Output := do
  let commitment ← readBigInt 33
  let senderPubKey ← readBigInt 33
  let receiverPubKey ← readBigInt 33
  let message ← unserOutputMessage
  let proof ← readBigInt 675
  let signature ← readBigInt 64
  pure ⟨commitment, senderPubKey, receiverPubKey, message, proof, signature⟩

theorem parses_output {o : Output} (ho : o.message.Wf) : Parses unserOutput (serOutput o) o := by
  obtain ⟨commitment, sender, receiver, message, proof, signature⟩ := o
  exact (parses_bigInt commitment).bind ((parses_bigInt sender).bind ((parses_bigInt receiver).bind
    ((parses_outputMessage ho).bind ((parses_bigInt proof).bind
      ((parses_bigInt signature).map (Output.mk commitment sender receiver message proof))))))

/-! ### Unspent outputs -/

/-- `UTXO`: an output with the height it was created at and its leaf in the output MMR. -/
structure UTXO where
  blockHeight : BitVec 32
  leafIndex : Nat
  output : Output
  deriving DecidableEq

/-- `UTXO` serialisation. -/
def serUTXO (u : UTXO) : Bytes :=
  writeLE 4 u.blockHeight.toNat ++ (writeLE 8 u.leafIndex ++ serOutput u.output)

def unserUTXO : Reader UTXO := do
  let blockHeight ← readLE 4
  let leafIndex ← readLE 8
  let output ← unserOutput
  pure ⟨BitVec.ofNat 32 blockHeight, leafIndex, output⟩

structure UTXO.Wf (u : UTXO) : Prop where
  leafIndex : u.leafIndex < 2 ^ 64
  message : u.output.message.Wf

theorem parses_utxo {u : UTXO} (hu : u.Wf) : Parses unserUTXO (serUTXO u) u := by
  obtain ⟨height, leaf, _⟩ := u
  have hheight : BitVec.ofNat 32 height.toNat = height := BitVec.ofNat_toNat ..
  have h := (parses_output hu.message).map (UTXO.mk (BitVec.ofNat 32 height.toNat) leaf)
  rw [hheight] at h
  exact (parses_le (by simpa using height.isLt)).bind
    ((parses_le (by simpa using hu.leafIndex)).bind (by rw [hheight]; exact h))

/-! ### Headers -/

/-- `mw::Header`. A height read from a stream is not negative. -/
structure Header where
  height : BitVec 31
  outputRoot : Hash
  kernelRoot : Hash
  leafsetRoot : Hash
  kernelOffset : BlindingFactor
  stealthOffset : BlindingFactor
  outputMMRSize : BitVec 64
  kernelMMRSize : BitVec 64
  deriving DecidableEq

/-- `Header` serialisation. -/
def serHeader (h : Header) : Bytes :=
  writeVarInt 32 h.height.toNat ++ (h.outputRoot.bytes ++ (h.kernelRoot.bytes ++
    (h.leafsetRoot.bytes ++ (h.kernelOffset.bytes ++ (h.stealthOffset.bytes ++
      (writeVarInt 64 h.outputMMRSize.toNat ++ writeVarInt 64 h.kernelMMRSize.toNat))))))

def unserHeader : Reader Header := do
  let height ← readVarInt (2 ^ 31 - 1)
  let outputRoot ← readBigInt 32
  let kernelRoot ← readBigInt 32
  let leafsetRoot ← readBigInt 32
  let kernelOffset ← readBigInt 32
  let stealthOffset ← readBigInt 32
  let outputMMRSize ← readVarInt (2 ^ 64 - 1)
  let kernelMMRSize ← readVarInt (2 ^ 64 - 1)
  pure ⟨BitVec.ofNat 31 height, outputRoot, kernelRoot, leafsetRoot, kernelOffset, stealthOffset,
    BitVec.ofNat 64 outputMMRSize, BitVec.ofNat 64 kernelMMRSize⟩

theorem parses_header (h : Header) : Parses unserHeader (serHeader h) h := by
  obtain ⟨height, oroot, kroot, lroot, koff, soff, osize, ksize⟩ := h
  have hheight : BitVec.ofNat 31 height.toNat = height := BitVec.ofNat_toNat ..
  have hosize : BitVec.ofNat 64 osize.toNat = osize := BitVec.ofNat_toNat ..
  have hksize : BitVec.ofNat 64 ksize.toNat = ksize := BitVec.ofNat_toNat ..
  have hlt' := osize.isLt
  have hlt'' := ksize.isLt
  have hlast := (parses_varInt 64 (2 ^ 64 - 1) (by decide) hlt'' (by omega)).map fun k =>
    (⟨height, oroot, kroot, lroot, koff, soff, osize, BitVec.ofNat 64 k⟩ : Header)
  rw [hksize] at hlast
  refine (parses_varInt 32 (2 ^ 31 - 1) (by decide) (by omega) (by omega)).bind ?_
  rw [hheight]
  refine (parses_bigInt oroot).bind ((parses_bigInt kroot).bind ((parses_bigInt lroot).bind
    ((parses_bigInt koff).bind ((parses_bigInt soff).bind
      ((parses_varInt 64 (2 ^ 64 - 1) (by decide) hlt' (by omega)).bind ?_)))))
  rw [hosize]
  exact hlast

/-! ### Undo data -/

/-- `mw::BlockUndo` -/
structure BlockUndo where
  prevHeader : Option Header
  coinsSpent : List UTXO
  coinsAdded : List Hash
  deriving DecidableEq

/-- `OptionalPtr` serialisation of a header. -/
def serOptionalHeader : Option Header → Bytes
  | some h => [1] ++ serHeader h
  | none => [0]

def unserOptionalHeader : Reader (Option Header) := do
  let is_set ← readByte
  if is_set = 1 then
    let h ← unserHeader
    pure (some h)
  else pure none

theorem parses_optionalHeader (h : Option Header) :
    Parses unserOptionalHeader (serOptionalHeader h) h := by
  cases h with
  | some h => exact (parses_byte 1).bind ((parses_header h).map some)
  | none =>
    intro rest
    rfl

/-- `BlockUndo` serialisation. -/
def serBlockUndo (u : BlockUndo) : Bytes :=
  serOptionalHeader u.prevHeader ++
    (writeVector serUTXO u.coinsSpent ++ writeVector BigInt.bytes u.coinsAdded)

def unserBlockUndo : Reader BlockUndo := do
  let prevHeader ← unserOptionalHeader
  let coinsSpent ← readVector unserUTXO
  let coinsAdded ← readVector (readBigInt 32)
  pure ⟨prevHeader, coinsSpent, coinsAdded⟩

structure BlockUndo.Wf (u : BlockUndo) : Prop where
  spent : ∀ c ∈ u.coinsSpent, c.Wf
  spentSize : u.coinsSpent.length ≤ maxSize
  addedSize : u.coinsAdded.length ≤ maxSize

theorem parses_blockUndo {u : BlockUndo} (hu : u.Wf) :
    Parses unserBlockUndo (serBlockUndo u) u := by
  obtain ⟨header, spent, _⟩ := u
  exact (parses_optionalHeader header).bind
    ((parses_vector_self hu.spentSize fun c hc => parses_utxo (hu.spent c hc)).bind
      ((parses_vector_self hu.addedSize fun c _ => parses_bigInt c).map
        (BlockUndo.mk header spent)))

end Defcoin.Mweb
