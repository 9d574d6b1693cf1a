import Defcoin.Mweb.TransactionCodec
import Defcoin.Relay.Transaction

/-! # Reading transactions

  `UnserializeTransaction` and `SerializeTransaction`. A stream may leave out the witnesses and the
  data of the extension block; which of them follow is said by a byte of flags behind an empty
  vector of inputs.
-/

namespace Defcoin.Relay

open ByteCodec Mweb CMutableTransaction List Transaction

/-! ### Parts -/

def serOutPoint (o : COutPoint) : Bytes := writeLE 32 o.hash.toNat ++ writeLE 4 o.n

def unserOutPoint : Reader COutPoint := do
  let hash ← readLE 32
  let n ← readLE 4
  pure { hash := BitVec.ofNat 256 hash, n }

/-- `CTxIn` serialisation, which leaves the witness to the transaction. -/
def serTxIn (txin : CTxIn) : Bytes :=
  serOutPoint txin.prevout ++ serByteVector txin.scriptSig ++ writeLE 4 txin.nSequence.toNat

def unserTxIn : Reader CTxIn := do
  let prevout ← unserOutPoint
  let scriptSig ← unserByteVector
  let nSequence ← readLE 4
  pure { prevout, scriptSig, nSequence := BitVec.ofNat 32 nSequence, scriptWitness := [] }

/-- `CTxOut` serialisation. An amount is written in two's complement. -/
def serTxOut (out : CTxOut) : Bytes :=
  writeLE 8 (BitVec.ofInt 64 out.nValue).toNat ++ serByteVector out.scriptPubKey

def unserTxOut : Reader CTxOut := do
  let nValue ← readLE 8
  let scriptPubKey ← unserByteVector
  pure { nValue := (BitVec.ofNat 64 nValue).toInt, scriptPubKey }

def strip (txin : CTxIn) : CTxIn := { txin with scriptWitness := [] }

@[simp] theorem serTxIn_strip (txin : CTxIn) : serTxIn (strip txin) = serTxIn txin := rfl

structure TxInWf (txin : CTxIn) : Prop where
  index : txin.prevout.n < 2 ^ 32
  script : txin.scriptSig.length ≤ maxSize

structure TxOutWf (out : CTxOut) : Prop where
  value : int64Min ≤ out.nValue ∧ out.nValue ≤ int64Max
  script : out.scriptPubKey.length ≤ maxSize

theorem exact_outPoint : Exact unserOutPoint serOutPoint fun o => o.n < 2 ^ 32 := by
  intro bs o rest
  simp only [unserOutPoint, reader_bind_eq_ok, reader_pure_eq_ok, (exact_le _).iff]
  constructor
  · intro h
    obtain ⟨hash, _, ⟨rfl, hhash⟩, n, _, ⟨rfl, hn⟩, rfl, rfl⟩ := h
    have hhash' : hash < 2 ^ 256 := hhash
    refine ⟨?_, hn⟩
    rw [serOutPoint, BitVec.toNat_ofNat, Nat.mod_eq_of_lt hhash', append_assoc]
  · intro h
    obtain ⟨rfl, hn⟩ := h
    refine ⟨o.hash.toNat, _, ⟨by rw [serOutPoint, append_assoc], o.hash.isLt⟩, o.n, _, ⟨rfl, hn⟩, ?_, rfl⟩
    rw [BitVec.ofNat_toNat, BitVec.setWidth_eq]

theorem exact_txIn : Exact unserTxIn serTxIn fun txin => TxInWf txin ∧ txin.scriptWitness = [] := by
  intro bs txin rest
  simp only [unserTxIn, reader_bind_eq_ok, reader_pure_eq_ok, (exact_le _).iff, exact_outPoint.iff,
    exact_byteVector.iff]
  constructor
  · intro h
    obtain ⟨prevout, _, ⟨rfl, hn⟩, script, _, ⟨rfl, hscript⟩, nSequence, _, ⟨rfl, hseq⟩, rfl, rfl⟩ := h
    have hseq' : nSequence < 2 ^ 32 := hseq
    refine ⟨?_, ⟨hn, hscript⟩, rfl⟩
    rw [serTxIn, BitVec.toNat_ofNat, Nat.mod_eq_of_lt hseq', append_assoc, append_assoc]
  · intro h
    obtain ⟨rfl, hwf, hstack⟩ := h
    refine ⟨txin.prevout, _, ⟨by rw [serTxIn, append_assoc, append_assoc], hwf.index⟩,
      txin.scriptSig, _, ⟨rfl, hwf.script⟩, txin.nSequence.toNat, _, ⟨rfl, txin.nSequence.isLt⟩, ?_, rfl⟩
    rw [BitVec.ofNat_toNat, BitVec.setWidth_eq, ← hstack]

theorem exact_txOut : Exact unserTxOut serTxOut TxOutWf := by
  intro bs out rest
  simp only [unserTxOut, reader_bind_eq_ok, reader_pure_eq_ok, (exact_le _).iff, exact_byteVector.iff]
  constructor
  · intro h
    obtain ⟨value, _, ⟨rfl, hvalue⟩, script, _, ⟨rfl, hscript⟩, rfl, rfl⟩ := h
    have hvalue' : value < 2 ^ 64 := hvalue
    refine ⟨?_, ?_, hscript⟩
    · rw [serTxOut, BitVec.ofInt_toInt, BitVec.toNat_ofNat, Nat.mod_eq_of_lt hvalue', append_assoc]
    · have hlow := BitVec.le_toInt (BitVec.ofNat 64 value)
      have hhigh := BitVec.toInt_lt (x := BitVec.ofNat 64 value)
      constructor
      · exact hlow
      · exact Int.le_sub_one_of_lt hhigh
  · intro h
    obtain ⟨rfl, hwf⟩ := h
    refine ⟨(BitVec.ofInt 64 out.nValue).toNat, _, ⟨by rw [serTxOut, append_assoc], BitVec.isLt _⟩,
      out.scriptPubKey, _, ⟨rfl, hwf.script⟩, ?_, rfl⟩
    have hvalue : (BitVec.ofInt 64 out.nValue).toInt = out.nValue := by
      obtain ⟨hlow, hhigh⟩ := hwf.value
      unfold int64Min at hlow
      unfold int64Max at hhigh
      rw [BitVec.toInt_ofInt]
      apply Int.bmod_eq_of_le <;> omega
    rw [BitVec.ofNat_toNat, BitVec.setWidth_eq, hvalue]

/-! ### Witnesses -/

/-- `s << tx.vin[i].scriptWitness.stack`, for all inputs. -/
def serWitnesses (vin : List CTxIn) : Bytes :=
  writeEach (fun txin => writeVector serByteVector txin.scriptWitness) vin

/-- `s >> tx.vin[i].scriptWitness.stack`, for all inputs. -/
def unserWitnesses : List CTxIn → Reader (List CTxIn)
  | [] => pure []
  | txin :: rest => do
    let stack ← readVector unserByteVector
    let rest ← unserWitnesses rest
    pure ({ txin with scriptWitness := stack } :: rest)

def StackWf (stack : List Bytes) : Prop := stack.length ≤ maxSize ∧ ∀ item ∈ stack, item.length ≤ maxSize

theorem unserWitnesses_eq_ok {vin vin' : List CTxIn} {bs rest : Bytes} :
    unserWitnesses vin bs = .ok (vin', rest) ↔
      bs = serWitnesses vin' ++ rest ∧ vin'.map strip = vin.map strip ∧
        ∀ txin ∈ vin', StackWf txin.scriptWitness := by
  induction vin generalizing vin' bs rest with
  | nil =>
    rw [unserWitnesses, reader_pure_eq_ok]
    constructor
    · intro h
      obtain ⟨rfl, rfl⟩ := h
      exact ⟨rfl, rfl, by simp⟩
    · intro h
      obtain ⟨rfl, hnil, -⟩ := h
      rw [map_nil, map_eq_nil_iff] at hnil
      subst hnil
      exact ⟨rfl, rfl⟩
  | cons txin vin ih =>
    simp only [unserWitnesses, reader_bind_eq_ok, reader_pure_eq_ok, (exact_vector exact_byteVector).iff, ih]
    constructor
    · intro h
      obtain ⟨_, _, ⟨rfl, hstack⟩, vin', _, ⟨rfl, hmap, hall⟩, rfl, rfl⟩ := h
      refine ⟨by simp [serWitnesses, writeEach], ?_, ?_⟩
      · rw [map_cons, hmap]
        rfl
      · exact forall_mem_cons.mpr ⟨hstack, hall⟩
    · intro h
      obtain ⟨rfl, hmap, hall⟩ := h
      cases vin' with
      | nil => cases hmap
      | cons first vin' =>
        rw [map_cons, map_cons, List.cons.injEq] at hmap
        refine ⟨first.scriptWitness, serWitnesses vin' ++ rest,
          ⟨by simp [serWitnesses, writeEach], hall first mem_cons_self⟩, vin', rest,
          ⟨rfl, hmap.2, fun x hx => hall x (mem_cons_of_mem _ hx)⟩, ?_, rfl⟩
        -- the fields other than the witness are those that were read before
        have hfirst : { txin with scriptWitness := first.scriptWitness } = first := by
          have hstrip := hmap.1
          unfold strip at hstrip
          cases first
          simp only [CTxIn.mk.injEq] at hstrip ⊢
          exact ⟨hstrip.1.symm, hstrip.2.1.symm, hstrip.2.2.1.symm, trivial⟩
        rw [hfirst]

/-! ### Serialisation -/

/-- `OptionalPtr::Serialize` -/
def serOptionalPtr {α : Type} (w : α → Bytes) : Option α → Bytes
  | some a => [1] ++ w a
  | none => [0]

/-- `OptionalPtr::Unserialize` into a null pointer -/
def unserOptionalPtr {α : Type} (r : Reader α) : Reader (Option α) := do
  let is_set ← readByte
  if is_set = 1 then r >>= fun a => pure (some a) else pure none

/-- What a stream leaves out: the version flags `SERIALIZE_TRANSACTION_NO_WITNESS` and
    `SERIALIZE_NO_MWEB`, as the settings they turn off. -/
structure StreamFlags where
  fAllowWitness : Bool
  fAllowMWEB : Bool
  deriving DecidableEq

/-- The settings the node uses. -/
def StreamFlags.Used (v : StreamFlags) : Prop := v.fAllowMWEB = true → v.fAllowWitness = true

namespace CMutableTransaction

variable (v : StreamFlags)

/-- The parts of a transaction that are announced by `flags`. -/
def flags (tx : CMutableTransaction) : UInt8 :=
  (if v.fAllowWitness && tx.hasWitness then 1 else 0) |||
    (if v.fAllowMWEB && (tx.m_hogEx || tx.hasMWEBTx) then 8 else 0)

/-- A transaction, with `extension` for the data of the extension block. -/
def write (extension : Bytes) (tx : CMutableTransaction) : Bytes :=
  writeLE 4 tx.nVersion.toNat ++
    (if tx.flags v ≠ 0 then writeVector serTxIn [] ++ [tx.flags v] else []) ++
    writeVector serTxIn tx.vin ++ writeVector serTxOut tx.vout ++
    (if tx.flags v &&& 1 ≠ 0 then serWitnesses tx.vin else []) ++
    (if tx.flags v &&& 8 ≠ 0 then extension else []) ++
    writeLE 4 tx.nLockTime.toNat

/-- `SerializeTransaction` -/
def serialize (tx : CMutableTransaction) : Bytes :=
  tx.write v (serOptionalPtr Transaction.serialize tx.mweb_tx)

end CMutableTransaction

/-! ### Deserialisation -/

section
variable (v : StreamFlags)

/-- What follows the first vector of inputs: flags and both vectors, or the outputs. -/
def unserInputsOutputs (vin : List CTxIn) : Reader (UInt8 × List CTxIn × List CTxOut) :=
  if vin.isEmpty && v.fAllowWitness then do
    let flags ← readByte
    if flags ≠ 0 then do
      let vin ← readVector unserTxIn
      let vout ← readVector unserTxOut
      pure (flags, vin, vout)
    else pure (0, [], [])
  else do
    let vout ← readVector unserTxOut
    pure (0, vin, vout)

def unserWitnessPart (flags : UInt8) (vin : List CTxIn) : Reader (UInt8 × List CTxIn) :=
  if flags &&& 1 ≠ 0 ∧ v.fAllowWitness = true then do
    let vin ← unserWitnesses vin
    ensure ((vin.any fun txin => !txin.scriptWitness.isEmpty) = true) "Superfluous witness record"
    pure (flags ^^^ 1, vin)
  else pure (flags, vin)

/-- The data of the extension block, if it is announced; without any, the transaction is a HogEx. -/
def unserExtensionPart (flags : UInt8) (vout : List CTxOut) :
    Reader (UInt8 × Option Transaction × Bool) :=
  if flags &&& 8 ≠ 0 ∧ v.fAllowMWEB = true then do
    let mweb_tx ← unserOptionalPtr Transaction.unserialize
    match mweb_tx with
    | some t => pure (flags ^^^ 8, some t, false)
    | none => do
      ensure (vout ≠ []) "Missing HogEx output"
      pure (flags ^^^ 8, none, true)
  else pure (flags, none, false)

/-- `UnserializeTransaction` -/
def CMutableTransaction.unserialize : Reader CMutableTransaction := do
  let nVersion ← readLE 4
  let vin ← readVector unserTxIn
  let (flags, vin, vout) ← unserInputsOutputs v vin
  let (flags, vin) ← unserWitnessPart v flags vin
  let (flags, mweb_tx, m_hogEx) ← unserExtensionPart v flags vout
  ensure (flags = 0) "Unknown transaction optional data"
  let nLockTime ← readLE 4
  pure
    { vin, vout, nVersion := BitVec.ofNat 32 nVersion, nLockTime := BitVec.ofNat 32 nLockTime, mweb_tx
      m_hogEx }

end

/-! ### What a transaction is read from -/

namespace CMutableTransaction

/-- The bytes a transaction is read from, when `presence` is the byte that says whether there is an
    extension part. -/
def encoding (v : StreamFlags) (presence : UInt8) (tx : CMutableTransaction) : Bytes :=
  tx.write v ([presence] ++ serOptional Transaction.encoding tx.mweb_tx)

/-- Sizes and ranges of a transaction that can be read. -/
structure Wf (tx : CMutableTransaction) : Prop where
  vin_size : tx.vin.length ≤ maxSize
  vin : ∀ txin ∈ tx.vin, TxInWf txin ∧ StackWf txin.scriptWitness
  vout_size : tx.vout.length ≤ maxSize
  vout : ∀ out ∈ tx.vout, TxOutWf out
  mweb_tx : ∀ t ∈ tx.mweb_tx, t.Wf

/-- A transaction that can be read from a stream with the given settings. -/
structure Readable (v : StreamFlags) (tx : CMutableTransaction) : Prop extends tx.Wf where
  witness : v.fAllowWitness = false → tx.hasWitness = false
  extension : v.fAllowMWEB = false → tx.mweb_tx = none ∧ tx.m_hogEx = false
  hogEx : tx.m_hogEx = true → tx.vout ≠ [] ∧ tx.mweb_tx = none
  noInputs : v.fAllowWitness = true → tx.vin = [] → tx.flags v = 0 → tx.vout = []

section Flags
variable (v : StreamFlags) (tx : CMutableTransaction)

def writesWitness : Bool := v.fAllowWitness && tx.hasWitness

def writesExtension : Bool := v.fAllowMWEB && (tx.m_hogEx || tx.hasMWEBTx)

theorem flags_eq : tx.flags v =
    (if tx.writesWitness v then 1 else 0) ||| (if tx.writesExtension v then 8 else 0) := rfl

theorem flags_and_one : tx.flags v &&& 1 ≠ 0 ↔ tx.writesWitness v = true := by
  rw [flags_eq]
  cases tx.writesWitness v <;> cases tx.writesExtension v <;> decide

theorem flags_and_eight : tx.flags v &&& 8 ≠ 0 ↔ tx.writesExtension v = true := by
  rw [flags_eq]
  cases tx.writesWitness v <;> cases tx.writesExtension v <;> decide

theorem flags_eq_zero : tx.flags v = 0 ↔ tx.writesWitness v = false ∧ tx.writesExtension v = false := by
  rw [flags_eq]
  cases tx.writesWitness v <;> cases tx.writesExtension v <;> decide

end Flags

end CMutableTransaction

section Stages
variable {v : StreamFlags} {bs rest : Bytes}

theorem unserOptionalPtr_eq_ok {α : Type} {r : Reader α} {w : α → Bytes} {P : α → Prop} (h : Exact r w P)
    {o : Option α} : unserOptionalPtr r bs = .ok (o, rest) ↔
      ∃ presence : UInt8, (presence = 1 ↔ o.isSome = true) ∧
        bs = [presence] ++ serOptional w o ++ rest ∧ ∀ a ∈ o, P a := by
  simp only [unserOptionalPtr, reader_bind_eq_ok, exact_byte.iff]
  constructor
  · intro hread
    obtain ⟨presence, _, ⟨rfl, -⟩, hread⟩ := hread
    by_cases hset : presence = 1
    · rw [if_pos hset] at hread
      obtain ⟨a, _, ha, hread⟩ := reader_bind_eq_ok.mp hread
      obtain ⟨rfl, rfl⟩ := reader_pure_eq_ok.mp hread
      obtain ⟨rfl, hpa⟩ := h.iff.mp ha
      exact ⟨presence, by simp [hset], rfl, by simpa using hpa⟩
    · rw [if_neg hset] at hread
      obtain ⟨rfl, rfl⟩ := reader_pure_eq_ok.mp hread
      exact ⟨presence, by simp [hset], rfl, by simp⟩
  · intro hread
    obtain ⟨presence, hpresence, rfl, hall⟩ := hread
    refine ⟨presence, serOptional w o ++ rest, ⟨by simp, trivial⟩, ?_⟩
    cases o with
    | some a =>
      rw [if_pos (hpresence.mpr rfl)]
      exact reader_bind_eq_ok.mpr ⟨a, rest, h.iff.mpr ⟨rfl, hall a rfl⟩, rfl⟩
    | none =>
      rw [if_neg (by simp [hpresence])]
      rfl

variable {vin : List CTxIn} {flags flags' : UInt8} {tx : CMutableTransaction}

theorem map_strip_of_empty (h : ∀ txin ∈ vin, txin.scriptWitness = []) : vin.map strip = vin := by
  have hid : ∀ txin ∈ vin, strip txin = txin := by
    intro txin hmem
    cases txin
    have hnil := h _ hmem
    subst hnil
    rfl
  rw [map_congr_left hid, map_id']

theorem hasWitness_eq_false_iff : tx.hasWitness = false ↔ ∀ txin ∈ tx.vin, txin.scriptWitness = [] := by
  unfold hasWitness
  simp

theorem unserWitnessPart_iff (hvin : ∀ txin ∈ vin, txin.scriptWitness = []) :
    unserWitnessPart v flags vin bs = .ok ((flags', tx.vin), rest) ↔
      (flags &&& 1 ≠ 0 ∧ v.fAllowWitness = true ↔ tx.writesWitness v = true) ∧
      flags' = flags ^^^ (if tx.writesWitness v then 1 else 0) ∧ vin = tx.vin.map strip ∧
      bs = (if tx.writesWitness v then serWitnesses tx.vin else []) ++ rest ∧
      (∀ txin ∈ tx.vin, StackWf txin.scriptWitness) ∧ (v.fAllowWitness = false → tx.hasWitness = false) := by
  by_cases hset : flags &&& 1 ≠ 0 ∧ v.fAllowWitness = true
  -- the flag is cleared exactly where witnesses are read
  · rw [unserWitnessPart, if_pos hset]
    simp only [reader_bind_eq_ok, reader_pure_eq_ok, ensure_eq_ok, unserWitnesses_eq_ok, Prod.mk.injEq]
    constructor
    · intro h
      obtain ⟨_, _, ⟨rfl, hmap, hall⟩, _, _, ⟨hany, rfl⟩, ⟨rfl, rfl⟩, rfl⟩ := h
      have hwrites : tx.writesWitness v = true := by
        rw [writesWitness, hset.2]
        exact hany
      rw [hwrites]
      exact ⟨iff_of_true hset rfl, rfl, by rw [hmap, map_strip_of_empty hvin], rfl, hall, by simp [hset.2]⟩
    · intro h
      obtain ⟨hbit, rfl, rfl, rfl, hall, -⟩ := h
      have hwrites := hbit.mp hset
      rw [hwrites]
      exact ⟨tx.vin, rest, ⟨rfl, by rw [map_strip_of_empty hvin], hall⟩, (), rest,
        ⟨(Bool.and_eq_true_iff.mp hwrites).2, rfl⟩, ⟨rfl, rfl⟩, rfl⟩
  · rw [unserWitnessPart, if_neg hset, reader_pure_eq_ok, Prod.mk.injEq]
    constructor
    · intro h
      obtain ⟨⟨rfl, hsame⟩, rfl⟩ := h
      have hnone := hasWitness_eq_false_iff.mpr (hsame ▸ hvin)
      have hwrites : tx.writesWitness v = false := by
        rw [writesWitness, hnone, Bool.and_false]
      rw [hwrites, ← hsame]
      refine ⟨by simpa using hset, by simp, (map_strip_of_empty hvin).symm, rfl, ?_, fun _ => hnone⟩
      intro txin hmem
      rw [hvin txin hmem]
      exact ⟨Nat.zero_le _, by simp⟩
    · intro h
      obtain ⟨hbit, rfl, rfl, rfl, -, hnone⟩ := h
      have hwrites : tx.writesWitness v = false := by simpa using mt hbit.mpr hset
      have hno := (Bool.and_eq_false_iff.mp hwrites).elim hnone id
      rw [hwrites]
      exact ⟨⟨by simp, map_strip_of_empty (hasWitness_eq_false_iff.mp hno)⟩, rfl⟩

theorem unserExtensionPart_iff :
    unserExtensionPart v flags tx.vout bs = .ok ((flags', tx.mweb_tx, tx.m_hogEx), rest) ↔
      (flags &&& 8 ≠ 0 ∧ v.fAllowMWEB = true ↔ tx.writesExtension v = true) ∧
      flags' = flags ^^^ (if tx.writesExtension v then 8 else 0) ∧
      (∃ presence : UInt8, (presence = 1 ↔ tx.hasMWEBTx = true) ∧
        bs = (if tx.writesExtension v then [presence] ++ serOptional encoding tx.mweb_tx else []) ++
          rest) ∧
      (∀ t ∈ tx.mweb_tx, t.Wf) ∧ (v.fAllowMWEB = false → tx.mweb_tx = none ∧ tx.m_hogEx = false) ∧
      (tx.m_hogEx = true → tx.vout ≠ [] ∧ tx.mweb_tx = none) := by
  by_cases hset : flags &&& 8 ≠ 0 ∧ v.fAllowMWEB = true
  · rw [unserExtensionPart, if_pos hset, reader_bind_eq_ok]
    constructor
    · intro h
      obtain ⟨o, mid, ho, h⟩ := h
      obtain ⟨presence, hpresence, rfl, hall⟩ := (unserOptionalPtr_eq_ok exact_transaction).mp ho
      -- the mark of a HogEx is that there is no data
      have hread : flags' = flags ^^^ 8 ∧ tx.mweb_tx = o ∧ tx.m_hogEx = o.isNone ∧ mid = rest ∧
          (tx.m_hogEx = true → tx.vout ≠ []) := by
        cases o with
        | some t =>
          simp only [reader_pure_eq_ok, Prod.mk.injEq] at h
          obtain ⟨⟨hflags, hdata, hmark⟩, rfl⟩ := h
          exact ⟨hflags.symm, hdata.symm, hmark.symm, rfl, by simp [← hmark]⟩
        | none =>
          simp only [reader_bind_eq_ok, ensure_eq_ok, reader_pure_eq_ok, Prod.mk.injEq] at h
          obtain ⟨_, _, ⟨hvout, rfl⟩, ⟨hflags, hdata, hmark⟩, rfl⟩ := h
          exact ⟨hflags.symm, hdata.symm, hmark.symm, rfl, fun _ => hvout⟩
      obtain ⟨rfl, rfl, hhogEx, rfl, hvout⟩ := hread
      have hwrites : tx.writesExtension v = true := by
        rw [writesExtension, hasMWEBTx, hset.2, hhogEx]
        cases tx.mweb_tx <;> rfl
      rw [hwrites]
      refine ⟨iff_of_true hset rfl, rfl, ⟨presence, hpresence, rfl⟩, hall, by simp [hset.2], fun hmark => ?_⟩
      refine ⟨hvout hmark, ?_⟩
      rw [hhogEx] at hmark
      exact Option.isNone_iff_eq_none.mp hmark
    · intro h
      obtain ⟨hbit, rfl, ⟨presence, hpresence, rfl⟩, hall, -, hhogEx⟩ := h
      have hwrites := hbit.mp hset
      rw [hwrites]
      refine ⟨tx.mweb_tx, rest, (unserOptionalPtr_eq_ok exact_transaction).mpr
        ⟨presence, hpresence, rfl, hall⟩, ?_⟩
      have hparts := (Bool.and_eq_true_iff.mp hwrites).2
      rw [hasMWEBTx] at hparts
      cases hdata : tx.mweb_tx with
      | some t =>
        have hmark : tx.m_hogEx = false := by
          by_contra hmark
          rw [(hhogEx (by simpa using hmark)).2] at hdata
          cases hdata
        rw [hmark]
        rfl
      | none =>
        rw [hdata] at hparts
        have hmark : tx.m_hogEx = true := by simpa using hparts
        rw [hmark]
        exact reader_bind_eq_ok.mpr ⟨(), rest, ensure_eq_ok.mpr ⟨(hhogEx hmark).1, rfl⟩, rfl⟩
  · rw [unserExtensionPart, if_neg hset, reader_pure_eq_ok, Prod.mk.injEq, Prod.mk.injEq]
    constructor
    · intro h
      obtain ⟨⟨rfl, hnone, hmark⟩, rfl⟩ := h
      have hwrites : tx.writesExtension v = false := by
        rw [writesExtension, hasMWEBTx, ← hnone, ← hmark]
        simp
      rw [hwrites, hasMWEBTx, ← hnone, ← hmark]
      exact ⟨by simpa using hset, by simp, ⟨0, by decide, rfl⟩, by simp, fun _ => ⟨rfl, rfl⟩, by simp⟩
    · intro h
      obtain ⟨hbit, rfl, ⟨presence, -, rfl⟩, -, hnone, -⟩ := h
      have hwrites : tx.writesExtension v = false := by simpa using mt hbit.mpr hset
      have hno : tx.mweb_tx = none ∧ tx.m_hogEx = false := by
        rcases Bool.and_eq_false_iff.mp hwrites with hallow | hparts
        · exact hnone hallow
        · rw [Bool.or_eq_false_iff, hasMWEBTx, Option.isSome_eq_false_iff,
            Option.isNone_iff_eq_none] at hparts
          exact ⟨hparts.2, hparts.1⟩
      rw [hwrites, hno.1, hno.2]
      exact ⟨⟨by simp, rfl, rfl⟩, rfl⟩

theorem flags_left_iff : ((flags &&& 1 ≠ 0 ∧ v.fAllowWitness = true ↔ tx.writesWitness v = true) ∧
      ((flags ^^^ (if tx.writesWitness v then 1 else 0)) &&& 8 ≠ 0 ∧ v.fAllowMWEB = true ↔
        tx.writesExtension v = true) ∧
      0 = flags ^^^ (if tx.writesWitness v then 1 else 0) ^^^ (if tx.writesExtension v then 8 else 0)) ↔
    flags = tx.flags v := by
  constructor
  · intro h
    obtain ⟨-, -, hzero⟩ := h
    have heq := UInt8.xor_eq_zero_iff.mp hzero.symm
    -- the flag of the witnesses is put back
    have hflags : flags = (if tx.writesExtension v then 8 else 0) ^^^ (if tx.writesWitness v then 1 else 0) := by
      rw [← heq, UInt8.xor_assoc, UInt8.xor_self, UInt8.xor_zero]
    rw [hflags, flags_eq]
    cases tx.writesWitness v <;> cases tx.writesExtension v <;> decide
  · intro h
    subst h
    have hrest : (tx.flags v ^^^ (if tx.writesWitness v then 1 else 0)) =
        if tx.writesExtension v then 8 else 0 := by
      rw [flags_eq]
      cases tx.writesWitness v <;> cases tx.writesExtension v <;> decide
    rw [hrest, tx.flags_and_one v, UInt8.xor_self]
    refine ⟨⟨And.left, fun h => ⟨h, (Bool.and_eq_true_iff.mp h).1⟩⟩, ⟨fun h => ?_, fun h => ⟨?_, ?_⟩⟩, rfl⟩
    · by_contra hnot
      rw [if_neg hnot] at h
      exact h.1 (by decide)
    · rw [if_pos h]
      decide
    · exact (Bool.and_eq_true_iff.mp h).1

theorem unserInputsOutputs_eq_ok {vin' : List CTxIn} {vout : List CTxOut} :
    unserInputsOutputs v vin bs = .ok ((flags, vin', vout), rest) ↔
      (vin = [] ∧ v.fAllowWitness = true ∧ flags ≠ 0 ∧
        bs = [flags] ++ writeVector serTxIn vin' ++ writeVector serTxOut vout ++ rest ∧
        (vin'.length ≤ maxSize ∧ ∀ txin ∈ vin', TxInWf txin ∧ txin.scriptWitness = []) ∧
        (vout.length ≤ maxSize ∧ ∀ out ∈ vout, TxOutWf out)) ∨
      (vin = [] ∧ v.fAllowWitness = true ∧ flags = 0 ∧ bs = [0] ++ rest ∧ vin' = [] ∧ vout = []) ∨
      (¬ (vin = [] ∧ v.fAllowWitness = true) ∧ flags = 0 ∧ bs = writeVector serTxOut vout ++ rest ∧
        vin' = vin ∧ (vout.length ≤ maxSize ∧ ∀ out ∈ vout, TxOutWf out)) := by
  by_cases hset : vin = [] ∧ v.fAllowWitness = true
  -- an empty first vector announces a flag byte; vectors follow unless it is zero
  · rw [unserInputsOutputs]
    simp only [hset, true_and, not_true, false_and, or_false]
    constructor
    · intro hread
      obtain ⟨f, _, hf, h⟩ := reader_bind_eq_ok.mp hread
      obtain ⟨rfl, -⟩ := exact_byte.iff.mp hf
      by_cases hzero : f ≠ 0
      · rw [if_pos hzero] at h
        simp only [reader_bind_eq_ok, reader_pure_eq_ok, (exact_vector exact_txIn).iff,
          (exact_vector exact_txOut).iff] at h
        obtain ⟨_, _, ⟨rfl, hin⟩, _, _, ⟨rfl, hout⟩, heq, rfl⟩ := h
        cases heq
        exact .inl ⟨hzero, by simp only [append_assoc], hin, hout⟩
      · rw [if_neg hzero] at h
        obtain ⟨heq, rfl⟩ := reader_pure_eq_ok.mp h
        cases heq
        rw [not_not] at hzero
        subst hzero
        exact .inr ⟨rfl, rfl, rfl, rfl⟩
    · intro h
      rcases h with ⟨hzero, rfl, hin, hout⟩ | ⟨rfl, rfl, rfl, rfl⟩
      · apply reader_bind_eq_ok.mpr
        refine ⟨flags, _, exact_byte.iff.mpr ⟨by simp only [append_assoc]; rfl, trivial⟩, ?_⟩
        rw [if_pos hzero]
        simp only [reader_bind_eq_ok, reader_pure_eq_ok, (exact_vector exact_txIn).iff,
          (exact_vector exact_txOut).iff]
        exact ⟨vin', _, ⟨rfl, hin⟩, vout, _, ⟨rfl, hout⟩, rfl, rfl⟩
      · rfl
  · have hif : ¬ (vin.isEmpty && v.fAllowWitness) = true := by simpa using hset
    rw [unserInputsOutputs, if_neg hif]
    simp only [reader_bind_eq_ok, reader_pure_eq_ok, (exact_vector exact_txOut).iff, Prod.mk.injEq]
    constructor
    · intro h
      obtain ⟨_, _, ⟨rfl, hout⟩, ⟨rfl, rfl, rfl⟩, rfl⟩ := h
      exact .inr (.inr ⟨hset, rfl, rfl, rfl, hout⟩)
    · intro h
      rcases h with h | h | h
      · exact absurd ⟨h.1, h.2.1⟩ hset
      · exact absurd ⟨h.1, h.2.1⟩ hset
      · obtain ⟨-, rfl, rfl, rfl, hout⟩ := h
        exact ⟨vout, rest, ⟨rfl, hout⟩, ⟨rfl, rfl, rfl⟩, rfl⟩

end Stages

namespace CMutableTransaction

variable {v : StreamFlags} {tx : CMutableTransaction} {bs rest : Bytes}

theorem writeVector_strip (vin : List CTxIn) :
    writeVector serTxIn (vin.map strip) = writeVector serTxIn vin := by
  simp [writeVector, writeEach, flatMap_map]

theorem unserParts_iff (tx : CMutableTransaction) (rest : Bytes) {flags : UInt8} {vin : List CTxIn}
    (hvin : ∀ txin ∈ vin, txin.scriptWitness = []) :
    (∃ flags' mid, unserWitnessPart v flags vin bs = .ok ((flags', tx.vin), mid) ∧
      unserExtensionPart v flags' tx.vout mid = .ok ((0, tx.mweb_tx, tx.m_hogEx), rest)) ↔
    flags = tx.flags v ∧ vin = tx.vin.map strip ∧
      (∃ presence : UInt8, (presence = 1 ↔ tx.hasMWEBTx = true) ∧
        bs = (if tx.writesWitness v then serWitnesses tx.vin else []) ++
          (if tx.writesExtension v then [presence] ++ serOptional Transaction.encoding tx.mweb_tx else []) ++
          rest) ∧ (∀ txin ∈ tx.vin, StackWf txin.scriptWitness) ∧ (∀ t ∈ tx.mweb_tx, t.Wf) ∧
      (v.fAllowWitness = false → tx.hasWitness = false) ∧
      (v.fAllowMWEB = false → tx.mweb_tx = none ∧ tx.m_hogEx = false) ∧
      (tx.m_hogEx = true → tx.vout ≠ [] ∧ tx.mweb_tx = none) := by
  simp only [unserWitnessPart_iff hvin, unserExtensionPart_iff]
  constructor
  · intro h
    obtain ⟨flags', mid, ⟨hbit, rfl, hmap, rfl, hstack, hnowit⟩, hbit', hzero, ⟨presence, hpresence, rfl⟩, hall,
      hnoext, hhogEx⟩ := h
    exact ⟨flags_left_iff.mp ⟨hbit, hbit', hzero⟩, hmap, ⟨presence, hpresence, by simp only [append_assoc]⟩,
      hstack, hall, hnowit, hnoext, hhogEx⟩
  · intro h
    obtain ⟨hflags, hmap, ⟨presence, hpresence, rfl⟩, hstack, hall, hnowit, hnoext, hhogEx⟩ := h
    obtain ⟨hbit, hbit', hzero⟩ := flags_left_iff.mpr hflags
    exact ⟨_, _, ⟨hbit, rfl, hmap, by simp only [append_assoc], hstack, hnowit⟩, hbit', hzero,
      ⟨presence, hpresence, rfl⟩, hall, hnoext, hhogEx⟩

theorem encoding_eq (presence : UInt8) : tx.encoding v presence = writeLE 4 tx.nVersion.toNat ++
      (if tx.flags v ≠ 0 then writeVector serTxIn [] ++ [tx.flags v] else []) ++
      writeVector serTxIn tx.vin ++ writeVector serTxOut tx.vout ++
      (if tx.writesWitness v then serWitnesses tx.vin else []) ++
      (if tx.writesExtension v then [presence] ++ serOptional Transaction.encoding tx.mweb_tx else []) ++
      writeLE 4 tx.nLockTime.toNat := by
  unfold encoding write
  simp only [tx.flags_and_one v, tx.flags_and_eight v]

theorem exact_word32 : Exact (readLE 4) (writeLE 4) (· < 2 ^ 32) := exact_le 4

theorem unserialize_eq_ok : unserialize v bs = .ok (tx, rest) ↔ ∃ vin₀ flags vin₁ bs₁ bs₂,
        bs = writeLE 4 tx.nVersion.toNat ++ (writeVector serTxIn vin₀ ++ bs₁) ∧
        (vin₀.length ≤ maxSize ∧ ∀ txin ∈ vin₀, TxInWf txin ∧ txin.scriptWitness = []) ∧
        unserInputsOutputs v vin₀ bs₁ = .ok ((flags, vin₁, tx.vout), bs₂) ∧
        ∃ flags' mid, unserWitnessPart v flags vin₁ bs₂ = .ok ((flags', tx.vin), mid) ∧
          unserExtensionPart v flags' tx.vout mid =
            .ok ((0, tx.mweb_tx, tx.m_hogEx), writeLE 4 tx.nLockTime.toNat ++ rest) := by
  have hword : ∀ {n : Nat}, n < 2 ^ 32 → (BitVec.ofNat 32 n).toNat = n := by
    intro n hn
    rw [BitVec.toNat_ofNat, Nat.mod_eq_of_lt hn]
  constructor
  · intro h
    obtain ⟨nVersion, _, hversion, h⟩ := reader_bind_eq_ok.mp h
    obtain ⟨vin₀, bs₁, hvin₀, h⟩ := reader_bind_eq_ok.mp h
    obtain ⟨⟨flags, vin₁, vout⟩, bs₂, hvectors, h⟩ := reader_bind_eq_ok.mp h
    obtain ⟨⟨flags', vin⟩, mid, hwitness, h⟩ := reader_bind_eq_ok.mp h
    obtain ⟨⟨_, mweb_tx, m_hogEx⟩, _, hextension, h⟩ := reader_bind_eq_ok.mp h
    obtain ⟨_, _, hensure, h⟩ := reader_bind_eq_ok.mp h
    obtain ⟨nLockTime, _, hlock, h⟩ := reader_bind_eq_ok.mp h
    obtain ⟨rfl, rfl⟩ := reader_pure_eq_ok.mp h
    obtain ⟨rfl, rfl⟩ := ensure_eq_ok.mp hensure
    obtain ⟨rfl, hversion'⟩ := exact_word32.iff.mp hversion
    obtain ⟨rfl, hvin₀'⟩ := (exact_vector exact_txIn).iff.mp hvin₀
    obtain ⟨rfl, hlock'⟩ := exact_word32.iff.mp hlock
    refine ⟨vin₀, flags, vin₁, bs₁, bs₂, ?_, hvin₀', hvectors, flags', mid, hwitness, ?_⟩
    · rw [hword hversion']
    · rw [hword hlock']
      exact hextension
  · intro h
    obtain ⟨vin₀, flags, vin₁, bs₁, bs₂, rfl, hvin₀, hvectors, flags', mid, hwitness, hextension⟩ := h
    apply reader_bind_eq_ok.mpr
    refine ⟨_, _, exact_word32.iff.mpr ⟨rfl, tx.nVersion.isLt⟩, ?_⟩
    apply reader_bind_eq_ok.mpr
    refine ⟨_, _, (exact_vector exact_txIn).iff.mpr ⟨rfl, hvin₀⟩, ?_⟩
    apply reader_bind_eq_ok.mpr
    refine ⟨_, _, hvectors, ?_⟩
    apply reader_bind_eq_ok.mpr
    refine ⟨_, _, hwitness, ?_⟩
    apply reader_bind_eq_ok.mpr
    refine ⟨_, _, hextension, ?_⟩
    apply reader_bind_eq_ok.mpr
    refine ⟨(), _, ensure_eq_ok.mpr ⟨rfl, rfl⟩, ?_⟩
    apply reader_bind_eq_ok.mpr
    refine ⟨_, _, exact_word32.iff.mpr ⟨rfl, tx.nLockTime.isLt⟩, ?_⟩
    simp only [reader_pure_eq_ok, BitVec.ofNat_toNat, BitVec.setWidth_eq, and_true]

theorem wf_of_strip {vin : List CTxIn}
    (hvin : ∀ txin ∈ vin.map strip, TxInWf txin ∧ txin.scriptWitness = [])
    (hstack : ∀ txin ∈ vin, StackWf txin.scriptWitness) :
    ∀ txin ∈ vin, TxInWf txin ∧ StackWf txin.scriptWitness := by
  intro txin hmem
  have hwf := (hvin (strip txin) (mem_map_of_mem hmem)).1
  exact ⟨⟨hwf.index, hwf.script⟩, hstack txin hmem⟩

theorem strip_wf (h : tx.Wf) :
    (tx.vin.map strip).length ≤ maxSize ∧ ∀ txin ∈ tx.vin.map strip, TxInWf txin ∧ txin.scriptWitness = [] := by
  refine ⟨by rw [length_map]; exact h.vin_size, fun txin hmem => ?_⟩
  obtain ⟨x, hx, rfl⟩ := mem_map.mp hmem
  have hwf := (h.vin x hx).1
  exact ⟨⟨hwf.index, hwf.script⟩, rfl⟩

theorem allowWitness_of_flags (hv : v.Used) (h : tx.flags v ≠ 0) : v.fAllowWitness = true := by
  by_contra hnot
  rw [Bool.not_eq_true] at hnot
  apply h
  rw [flags_eq_zero, writesWitness, writesExtension, hnot]
  refine ⟨rfl, ?_⟩
  cases hmweb : v.fAllowMWEB with
  | false => rfl
  | true =>
    rw [hv hmweb] at hnot
    cases hnot

/-- **Inversion**: a transaction is read from its encodings, one for each byte that can announce its
    extension part. -/
theorem unserialize_iff (hv : v.Used) : unserialize v bs = .ok (tx, rest) ↔
      ∃ presence : UInt8, (presence = 1 ↔ tx.hasMWEBTx = true) ∧ bs = tx.encoding v presence ++ rest ∧
        tx.Readable v := by
  rw [unserialize_eq_ok]
  constructor
  · intro h
    obtain ⟨_, flags, _, _, _, rfl, hvin₀, hvectors, hparts⟩ := h
    -- the three forms: both vectors behind the flags, nothing at all, or the outputs alone
    rcases unserInputsOutputs_eq_ok.mp hvectors with
      ⟨rfl, hallow, hflags, rfl, hin, hout⟩ | ⟨rfl, hallow, rfl, rfl, rfl, hnil⟩ | ⟨hplain, rfl, rfl, rfl, hout⟩
    · obtain ⟨rfl, rfl, ⟨presence, hpresence, rfl⟩, hstack, hall, hnowit, hnoext, hhogEx⟩ :=
        (unserParts_iff tx _ fun txin hmem => (hin.2 txin hmem).2).mp hparts
      refine ⟨presence, hpresence, ?_,
        ⟨by simpa using hin.1, wf_of_strip hin.2 hstack, hout.1, hout.2, hall⟩, hnowit, hnoext, hhogEx, ?_⟩
      · rw [encoding_eq, if_pos hflags, writeVector_strip]
        simp
      · intro _ _ hzero
        exact absurd hzero hflags
    · obtain ⟨hflags, hmap, ⟨presence, hpresence, rfl⟩, hstack, hall, hnowit, hnoext, hhogEx⟩ :=
        (unserParts_iff tx _ (by simp)).mp hparts
      have hvin : tx.vin = [] := map_eq_nil_iff.mp hmap.symm
      refine ⟨presence, hpresence, ?_,
        ⟨by simp [hvin], by simp [hvin], by simp [hnil], by simp [hnil], hall⟩, hnowit, hnoext, hhogEx,
        fun _ _ _ => hnil⟩
      have hzero := not_not.mpr hflags.symm
      rw [encoding_eq, if_neg hzero, hvin, hnil]
      simp only [append_assoc]
      rfl
    · obtain ⟨hflags, rfl, ⟨presence, hpresence, rfl⟩, hstack, hall, hnowit, hnoext, hhogEx⟩ :=
        (unserParts_iff tx _ fun txin hmem => (hvin₀.2 txin hmem).2).mp hparts
      refine ⟨presence, hpresence, ?_,
        ⟨by simpa using hvin₀.1, wf_of_strip hvin₀.2 hstack, hout.1, hout.2, hall⟩, hnowit, hnoext, hhogEx, ?_⟩
      · have hzero := not_not.mpr hflags.symm
        rw [encoding_eq, if_neg hzero, writeVector_strip]
        simp
      · intro hallow hvin
        exact absurd ⟨by simp [hvin], hallow⟩ hplain
  · intro h
    obtain ⟨presence, hpresence, rfl, hread⟩ := h
    have hstrip := strip_wf hread.toWf
    have hstack : ∀ txin ∈ tx.vin, StackWf txin.scriptWitness := fun txin hmem => (hread.vin txin hmem).2
    have hparts := (unserParts_iff tx (writeLE 4 tx.nLockTime.toNat ++ rest)
      fun txin hmem => (hstrip.2 txin hmem).2).mpr
      ⟨rfl, rfl, ⟨presence, hpresence, rfl⟩, hstack, hread.mweb_tx, hread.witness, hread.extension, hread.hogEx⟩
    by_cases hflags : tx.flags v ≠ 0
    · refine ⟨[], tx.flags v, tx.vin.map strip, _, _, ?_, by simp, unserInputsOutputs_eq_ok.mpr (.inl
        ⟨rfl, allowWitness_of_flags hv hflags, hflags, rfl, hstrip, hread.vout_size, hread.vout⟩), hparts⟩
      rw [encoding_eq, if_pos hflags, writeVector_strip]
      simp
    · have hzero := not_not.mp hflags
      by_cases hplain : tx.vin.map strip = [] ∧ v.fAllowWitness = true
      · have hvin : tx.vin = [] := map_eq_nil_iff.mp hplain.1
        have hvout := hread.noInputs hplain.2 hvin hzero
        refine ⟨[], 0, tx.vin.map strip, _, _, ?_, by simp, unserInputsOutputs_eq_ok.mpr (.inr (.inl
          ⟨rfl, hplain.2, rfl, rfl, hplain.1, hvout⟩)), hzero ▸ hparts⟩
        rw [encoding_eq, if_neg hflags, hvin, hvout]
        simp only [append_assoc]
        rfl
      · refine ⟨tx.vin.map strip, 0, tx.vin.map strip, _, _, ?_, hstrip, unserInputsOutputs_eq_ok.mpr (.inr
          (.inr ⟨hplain, rfl, rfl, rfl, hread.vout_size, hread.vout⟩)), hzero ▸ hparts⟩
        rw [encoding_eq, if_neg hflags, writeVector_strip]
        simp only [append_assoc, nil_append]

end CMutableTransaction

end Defcoin.Relay
