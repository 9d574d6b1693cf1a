import Defcoin.Relay.TransactionCodec

/-! # The round trip of transactions

  From the inversion of `UnserializeTransaction`: which bytes are written again as they were read,
  and which transactions come back from a stream.
-/

namespace Defcoin.Relay

open ByteCodec Mweb

namespace CMutableTransaction

variable {v : StreamFlags} {tx : CMutableTransaction} {bs rest : Bytes}

/-! ### What is written again -/

theorem write_eq_iff {extension extension' : Bytes} :
    tx.write v extension = tx.write v extension' ↔ (tx.writesExtension v = true → extension = extension') := by
  unfold write
  simp only [tx.flags_and_eight v]
  cases tx.writesExtension v with
  | true => simp
  | false => simp

theorem serialize_eq_encoding_iff {presence : UInt8} (hpresence : presence = 1 ↔ tx.hasMWEBTx = true)
    (hwf : ∀ t ∈ tx.mweb_tx, t.Wf) : tx.serialize v = tx.encoding v presence ↔
      (tx.writesExtension v = true → presence ≤ 1 ∧ ∀ t ∈ tx.mweb_tx, t.FieldsPresent) := by
  unfold serialize encoding
  rw [write_eq_iff]
  apply imp_congr_right
  intro _
  unfold hasMWEBTx at hpresence
  cases hmweb : tx.mweb_tx with
  | some t =>
    have hone : presence = 1 := hpresence.mpr (by rw [hmweb]; rfl)
    subst hone
    show [1] ++ t.serialize = [1] ++ t.encoding ↔ _
    rw [List.append_cancel_left_eq, Transaction.serialize_eq_encoding_iff (hwf t hmweb)]
    simp
  | none =>
    have hne : presence ≠ 1 := by
      intro heq
      have hsome := hpresence.mp heq
      rw [hmweb] at hsome
      cases hsome
    show [0] = [presence] ++ [] ↔ _
    have hle : (0 = presence) ↔ presence ≤ 1 := by
      constructor
      · intro h
        rw [← h]
        decide
      · intro h
        rw [UInt8.le_iff_toNat_le] at h
        have hne' : presence.toNat ≠ 1 := fun h' => hne (UInt8.toNat_inj.mp h')
        apply UInt8.toNat_inj.mp
        show 0 = presence.toNat
        have hone : (1 : UInt8).toNat = 1 := rfl
        omega
    simp [hle]

def fullStream : StreamFlags := ⟨true, true⟩

theorem writesExtension_of_mweb {t : Transaction} (ht : t ∈ tx.mweb_tx) :
    tx.writesExtension fullStream = true := by
  rw [writesExtension, hasMWEBTx, Option.mem_def.mp ht, Option.isSome_some, Bool.or_true]
  rfl

/-- **Re-encoding**: the bytes a transaction was read from are written again exactly when the byte
    before the extension part was 0 or 1 and no kernel announced an empty field. -/
theorem reencodes_iff (bs rest : Bytes) (tx : CMutableTransaction)
    (h : unserialize fullStream bs = .ok (tx, rest)) :
    ∃ consumed presence, bs = consumed ++ rest ∧ consumed = tx.encoding fullStream presence ∧
      (tx.serialize fullStream = consumed ↔
        (tx.writesExtension fullStream = true → presence ≤ 1) ∧ ∀ t ∈ tx.mweb_tx, t.FieldsPresent) := by
  obtain ⟨presence, hpresence, rfl, hread⟩ := (unserialize_iff fun _ => rfl).mp h
  refine ⟨_, presence, rfl, rfl, ?_⟩
  rw [serialize_eq_encoding_iff hpresence hread.mweb_tx]
  constructor
  · intro hall
    refine ⟨fun hwrites => (hall hwrites).1, fun t ht => ?_⟩
    exact (hall (writesExtension_of_mweb ht)).2 t ht
  · intro hall hwrites
    exact ⟨hall.1 hwrites, hall.2⟩

/-- A transaction with one output, the mark of a HogEx and `presence` before an extension part that
    is not there. -/
def markedBytes (presence : UInt8) : Bytes :=
  [2, 0, 0, 0] ++ [0, 8] ++ [0] ++ [1, 5, 0, 0, 0, 0, 0, 0, 0, 0] ++ [presence] ++ [0, 0, 0, 0]

/-- A HogEx is also read from a presence byte of 2, and written with 0. -/
theorem presence_not_kept : ∃ tx, unserialize fullStream (markedBytes 2) = .ok (tx, []) ∧
      unserialize fullStream (markedBytes 0) = .ok (tx, []) ∧
      tx.serialize fullStream = markedBytes 0 ∧ markedBytes 0 ≠ markedBytes 2 :=
  ⟨_, rfl, rfl, rfl, by decide⟩

/-- From a presence byte of 0 it is written as it was read. -/
theorem reencodes_iff_marked :
    ∃ tx, unserialize fullStream (markedBytes 0) = .ok (tx, []) ∧ tx.serialize fullStream = markedBytes 0 := by
  refine ⟨_, rfl, ?_⟩
  obtain ⟨_, presence, hbs, henc, hiff⟩ := reencodes_iff (markedBytes 0) [] _ rfl
  rw [List.append_nil] at hbs
  -- the presence byte stands behind the version, the flags and both vectors
  have hzero : 0 = presence := congrArg (fun bytes => bytes.getD 17 0) (hbs.trans henc)
  rw [hbs]
  apply hiff.mpr
  refine ⟨fun _ => ?_, fun t ht => ?_⟩
  · rw [← hzero]
    decide
  · cases ht

/-! ### The round trip -/

def kept (v : StreamFlags) (tx : CMutableTransaction) : CMutableTransaction where
  vin := if v.fAllowWitness then tx.vin else tx.vin.map strip
  vout := tx.vout
  nVersion := tx.nVersion
  nLockTime := tx.nLockTime
  mweb_tx := if v.fAllowMWEB then tx.mweb_tx else none
  m_hogEx := v.fAllowMWEB && tx.m_hogEx

/-- A transaction comes back from a stream, without what the stream leaves out, and with the
    identifiers that do not commit to that. -/
structure RoundTrips (H : Hashing) (v : StreamFlags) (tx : CMutableTransaction) : Prop where
  reads : Parses (unserialize v) (tx.serialize v) (tx.kept v)
  txid : (tx.isMWEBOnly = true → v.fAllowMWEB = true) → (tx.kept v).computeHash H = tx.computeHash H
  wtxid : (tx.isMWEBOnly = true → v.fAllowMWEB = true) → (tx.hasWitness = true → v.fAllowWitness = true) →
    (tx.kept v).computeWitnessHash H = tx.computeWitnessHash H

theorem hasWitness_kept : (tx.kept v).hasWitness = (v.fAllowWitness && tx.hasWitness) := by
  unfold kept hasWitness
  cases v.fAllowWitness with
  | true => rfl
  | false => simp [strip]

theorem writesWitness_kept : (tx.kept v).writesWitness v = tx.writesWitness v := by
  rw [writesWitness, writesWitness, hasWitness_kept, ← Bool.and_assoc, Bool.and_self]

theorem writesExtension_kept : (tx.kept v).writesExtension v = tx.writesExtension v := by
  unfold writesExtension hasMWEBTx kept
  cases v.fAllowMWEB with
  | true => rfl
  | false => rfl

theorem serialize_kept : (tx.kept v).serialize v = tx.serialize v := by
  have hflags : (tx.kept v).flags v = tx.flags v := by
    rw [flags_eq, flags_eq, writesWitness_kept, writesExtension_kept]
  have hvin : writeVector serTxIn (tx.kept v).vin = writeVector serTxIn tx.vin := by
    unfold kept
    cases v.fAllowWitness with
    | true => rfl
    | false => exact writeVector_strip tx.vin
  have hwitness : (if tx.writesWitness v then serWitnesses (tx.kept v).vin else []) =
      if tx.writesWitness v then serWitnesses tx.vin else [] := by
    unfold writesWitness kept
    cases v.fAllowWitness with
    | true => rfl
    | false => rfl
  have hextension : (if tx.writesExtension v then serOptionalPtr Transaction.serialize (tx.kept v).mweb_tx else []) =
      if tx.writesExtension v then serOptionalPtr Transaction.serialize tx.mweb_tx else [] := by
    unfold writesExtension kept
    cases v.fAllowMWEB with
    | true => rfl
    | false => rfl
  unfold serialize write
  simp only [tx.flags_and_one v, tx.flags_and_eight v,
    hflags, hvin, hwitness, hextension]
  rfl

section Identifiers
variable {H : Hashing}

theorem stripped_kept : (tx.kept v).stripped = tx.stripped := by
  unfold stripped kept
  cases v.fAllowWitness with
  | true => rfl
  | false => simp [strip]

section
variable (h : tx.isMWEBOnly = true → v.fAllowMWEB = true)
include h

theorem frontKernel_kept : (tx.kept v).frontKernel = tx.frontKernel := by
  have hempty : (tx.kept v).vin.isEmpty = tx.vin.isEmpty := by
    unfold kept
    cases v.fAllowWitness with
    | true => rfl
    | false => simp
  cases hallow : v.fAllowMWEB with
  | true =>
    have hmweb : (tx.kept v).mweb_tx = tx.mweb_tx := by
      unfold kept
      rw [hallow]
      rfl
    unfold frontKernel isMWEBOnly hasMWEBTx
    rw [hempty, hmweb]
    rfl
  | false =>
    have hnot : tx.isMWEBOnly = false := by
      cases honly : tx.isMWEBOnly with
      | false => rfl
      | true =>
        rw [h honly] at hallow
        cases hallow
    have hmweb : (tx.kept v).mweb_tx = none := by
      unfold kept
      rw [hallow]
      rfl
    have hnot' : (tx.kept v).isMWEBOnly = false := by
      rw [isMWEBOnly, hasMWEBTx, hmweb]
      rfl
    rw [frontKernel, frontKernel, hnot, hnot']
    rfl

theorem computeHash_kept : (tx.kept v).computeHash H = tx.computeHash H := by
  rw [computeHash, computeHash, frontKernel_kept h, stripped_kept]

theorem computeWitnessHash_kept (hwitness : tx.hasWitness = true → v.fAllowWitness = true) :
    (tx.kept v).computeWitnessHash H = tx.computeWitnessHash H := by
  rw [computeWitnessHash, computeWitnessHash, hasWitness_kept, computeHash_kept h]
  cases hhas : tx.hasWitness with
  | false =>
    rw [Bool.and_false]
    rfl
  | true =>
    have hallow := hwitness hhas
    have hvin : (tx.kept v).vin = tx.vin := by
      unfold kept
      rw [hallow]
      rfl
    rw [hallow, hvin]
    rfl

end

end Identifiers

/-! ### Which transactions come back -/

theorem wf_kept (h : tx.Wf) : (tx.kept v).Wf := by
  have hvin : (tx.kept v).vin.length ≤ maxSize ∧
      ∀ txin ∈ (tx.kept v).vin, TxInWf txin ∧ StackWf txin.scriptWitness := by
    unfold kept
    cases v.fAllowWitness with
    | true => exact ⟨h.vin_size, h.vin⟩
    | false =>
      obtain ⟨hsize, hall⟩ := strip_wf h
      refine ⟨hsize, fun txin hmem => ?_⟩
      obtain ⟨hwf, hnil⟩ := hall txin hmem
      rw [hnil]
      exact ⟨hwf, Nat.zero_le _, by simp⟩
  refine ⟨hvin.1, hvin.2, h.vout_size, h.vout, ?_⟩
  unfold kept
  cases v.fAllowMWEB with
  | true => exact h.mweb_tx
  | false => nofun

theorem readable_kept (hin : tx.vin ≠ [] ∨ tx.isMWEBOnly = true)
    (hhogEx : tx.m_hogEx = true → tx.vout ≠ [] ∧ tx.mweb_tx = none) (hwf : tx.Wf) : (tx.kept v).Readable v := by
  refine ⟨wf_kept hwf, fun hallow => ?_, fun hallow => ?_, fun hmark => ?_, fun _ hvin _ => ?_⟩
  · rw [hasWitness_kept, hallow, Bool.false_and]
  · unfold kept
    rw [hallow]
    exact ⟨rfl, rfl⟩
  · obtain ⟨hallow, hmark⟩ := Bool.and_eq_true_iff.mp hmark
    obtain ⟨hvout, hnone⟩ := hhogEx hmark
    refine ⟨hvout, ?_⟩
    unfold kept
    rw [hnone, if_pos hallow]
  · have hnil : tx.vin = [] := by
      unfold kept at hvin
      cases hallow : v.fAllowWitness with
      | true => simpa [hallow] using hvin
      | false => simpa [hallow] using hvin
    -- without inputs, the transaction has nothing outside the extension block
    have honly := hin.resolve_left (not_not.mpr hnil)
    unfold isMWEBOnly at honly
    rw [Bool.and_eq_true] at honly
    exact List.isEmpty_iff.mp honly.2

def presenceByte (tx : CMutableTransaction) : UInt8 := if tx.hasMWEBTx then 1 else 0

theorem presenceByte_eq_one : tx.presenceByte = 1 ↔ tx.hasMWEBTx = true := by
  unfold presenceByte
  cases tx.hasMWEBTx <;> decide

theorem presenceByte_le : tx.presenceByte ≤ 1 := by
  unfold presenceByte
  cases tx.hasMWEBTx <;> decide

theorem parses_kept (H : Hashing) (hv : v.Used) (hin : tx.vin ≠ [] ∨ tx.isMWEBOnly = true)
    (hhogEx : tx.m_hogEx = true → tx.vout ≠ [] ∧ tx.mweb_tx = none) (hwf : tx.Wf)
    (hpresent : ∀ t ∈ tx.mweb_tx, t.FieldsPresent) : tx.RoundTrips H v := by
  refine ⟨fun rest => ?_, computeHash_kept, computeWitnessHash_kept⟩
  have hread := readable_kept (v := v) hin hhogEx hwf
  have hpresent' : ∀ t ∈ (tx.kept v).mweb_tx, t.FieldsPresent := by
    unfold kept
    cases v.fAllowMWEB with
    | true => exact hpresent
    | false => nofun
  have heq := (serialize_eq_encoding_iff (v := v) presenceByte_eq_one hread.mweb_tx).mpr
    fun _ => ⟨presenceByte_le, hpresent'⟩
  rw [← serialize_kept]
  exact (unserialize_iff hv).mpr ⟨_, presenceByte_eq_one, by rw [heq], hread⟩

/-- **Round trip**: a transaction with inputs, or of the extension block alone, comes back from
    every kind of stream exactly if its parts can be read and no kernel has an announced field that
    is empty. -/
theorem roundTrips_iff (H : Hashing) (tx : CMutableTransaction) (hin : tx.vin ≠ [] ∨ tx.isMWEBOnly = true)
    (hhogEx : tx.m_hogEx = true → tx.vout ≠ [] ∧ tx.mweb_tx = none) :
    (∀ v : StreamFlags, v.Used → tx.RoundTrips H v) ↔ tx.Wf ∧ ∀ t ∈ tx.mweb_tx, t.FieldsPresent := by
  constructor
  · intro h
    have hfull := (h fullStream fun _ => rfl).reads.run
    obtain ⟨_, hpresence, heq, hread⟩ := (unserialize_iff fun _ => rfl).mp hfull
    rw [List.append_nil] at heq
    have hiff := (serialize_eq_encoding_iff hpresence hread.mweb_tx).mp heq
    refine ⟨hread.toWf, fun t ht => (hiff ?_).2 t ht⟩
    exact writesExtension_of_mweb ht
  · intro h v hv
    exact parses_kept H hv hin hhogEx h.1 h.2

/-- A transaction with an input, its witness and an output. -/
def plainTx : CMutableTransaction where
  vin := [{ prevout := ⟨7, 0⟩, scriptSig := [], nSequence := 0, scriptWitness := [[1]] }]
  vout := [{ nValue := 5, scriptPubKey := [] }]
  nVersion := 2
  nLockTime := 0
  mweb_tx := none
  m_hogEx := false

theorem roundTrips_iff_plainTx : plainTx.vin ≠ [] ∧
    ∀ v : StreamFlags, v.Used → plainTx.RoundTrips ⟨emptyBlockCrypto, fun _ => 0⟩ v := by
  refine ⟨by decide, (roundTrips_iff ⟨emptyBlockCrypto, fun _ => 0⟩ plainTx (by decide) (by decide)).mpr ?_⟩
  refine ⟨⟨by decide, ?_, by decide, ?_, nofun⟩, nofun⟩
  · intro txin hmem
    obtain rfl := List.mem_singleton.mp hmem
    exact ⟨⟨by decide, by decide⟩, by decide, by decide⟩
  · intro out hmem
    obtain rfl := List.mem_singleton.mp hmem
    exact ⟨by decide, by decide⟩

/-- A transaction of the extension block alone, with a kernel that announces peg-outs and has
    none. -/
def emptyPegoutBytes : Bytes :=
  [2, 0, 0, 0] ++ [0, 8] ++ [0] ++ [0] ++ [1] ++ List.replicate 64 0 ++ [0] ++ [0] ++
    ([1] ++ ([0x04, 0] ++ List.replicate 97 0)) ++ [0, 0, 0, 0]

set_option maxRecDepth 4000 in
/-- It is read, but what is written for it is not. -/
theorem emptyPegout_not_read_back :
    ∃ tx, unserialize fullStream emptyPegoutBytes = .ok (tx, []) ∧ tx.isMWEBOnly = true ∧ tx.m_hogEx = false ∧
      unserialize fullStream (tx.serialize fullStream) = .error "end of data" :=
  ⟨_, rfl, rfl, rfl, rfl⟩

end CMutableTransaction

end Defcoin.Relay
