import Defcoin.Mweb.Block

/-! # Reading kernels

  `Kernel::Unserialize` reads a field when its feature bit is set, while `Kernel::Serialize` writes
  a field when it is not empty. For the two fields that can be announced and empty, peg-outs and
  extra data, the two disagree.
-/

namespace Defcoin.Mweb

open ByteCodec List Kernel Option

/-! ### Reading -/

/-- `PegOutCoin` deserialisation. -/
def unserPegOutCoin : Reader PegOutCoin := do
  let amount ← readVarInt (2 ^ 63 - 1)
  let scriptPubKey ← unserByteVector
  ensure (scriptPubKey ≠ []) "Pegout scriptPubKey must not be empty"
  pure { amount, scriptPubKey }

def unserOptional {α : Type} (set : Bool) (r : Reader α) : Reader (Option α) :=
  unserIf set (r >>= fun a => pure (some a)) none

def serOptional {α : Type} (w : α → Bytes) : Option α → Bytes
  | some a => w a
  | none => []

namespace Kernel

def announces (features bit : UInt8) : Bool := features &&& bit != 0

/-- `Kernel::Unserialize` into a new kernel -/
def unserialize : Reader Kernel := do
  let features ← readByte
  let fee ← unserOptional (announces features 0x01) (readVarInt (2 ^ 63 - 1))
  let pegin ← unserOptional (announces features 0x02) (readVarInt (2 ^ 63 - 1))
  let pegouts ← unserIf (announces features 0x04) (readVector unserPegOutCoin) []
  let lockHeight ← unserOptional (announces features 0x08) (readVarInt (2 ^ 31 - 1))
  let stealthExcess ← unserOptional (announces features 0x10) (readBigInt 33)
  let extraData ← unserIf (announces features 0x20) unserByteVector []
  let excess ← readBigInt 33
  let signature ← readBigInt 64
  pure
    { features, fee := fee.map Int.ofNat, pegin := pegin.map Int.ofNat, pegouts
      lockHeight := lockHeight.map Int.ofNat, stealthExcess, extraData, excess, signature }

/-- What a kernel is read from: every announced field, empty or not. -/
def encoding (k : Kernel) : Bytes :=
  [k.features] ++
  serOptional (fun fee => writeVarInt 64 fee.toNat) k.fee ++
  serOptional (fun pegin => writeVarInt 64 pegin.toNat) k.pegin ++
  (if announces k.features 0x04 then writeVector serPegOutCoin k.pegouts else []) ++
  serOptional (fun height => writeVarInt 32 height.toNat) k.lockHeight ++
  serOptional BigInt.bytes k.stealthExcess ++
  (if announces k.features 0x20 then serByteVector k.extraData else []) ++
  k.excess.bytes ++ k.signature.bytes

def FieldsPresent (k : Kernel) : Prop :=
  (announces k.features 0x04 = true → k.pegouts ≠ []) ∧
    (announces k.features 0x20 = true → k.extraData ≠ [])

end Kernel

/-! ### Each part has one encoding -/

theorem exact_bigInt (n : Nat) : Exact (readBigInt n) BigInt.bytes fun _ => True := by
  apply Exact.of fun b _ => parses_bigInt b
  intro bs b rest h
  unfold readBigInt at h
  split at h
  · cases h
    exact ⟨(take_append_drop n bs).symm, trivial⟩
  · cases h

theorem exact_byteVector : Exact unserByteVector serByteVector fun v => v.length ≤ maxSize := by
  intro bs v rest
  simp only [unserByteVector, reader_bind_eq_ok, exact_compactSize.iff, (exact_bytes _).iff]
  constructor
  · intro h
    obtain ⟨_, _, ⟨rfl, hsize⟩, rfl, rfl⟩ := h
    exact ⟨by rw [serByteVector, append_assoc]; rfl, hsize⟩
  · intro h
    obtain ⟨rfl, hsize⟩ := h
    exact ⟨v.length, v ++ rest, ⟨by rw [serByteVector, append_assoc], hsize⟩, rfl, rfl⟩

section Optional
variable {α : Type} {r : Reader α} {w : α → Bytes} {P : α → Prop}

theorem exact_if (h : Exact r w P) (set : Bool) (default : α) :
    Exact (unserIf set r default) (fun a => if set then w a else [])
      fun a => (set = true → P a) ∧ (set = false → a = default) := by
  intro bs a rest
  cases set with
  | true =>
    show r bs = _ ↔ _
    rw [h.iff]
    simp
  | false =>
    show (pure default : Reader α) bs = _ ↔ _
    rw [reader_pure_eq_ok]
    simp only [Bool.false_eq_true, if_false, nil_append, false_implies, true_and, true_implies]
    rw [and_comm, eq_comm (a := default)]

theorem exact_optional (h : Exact r w P) (set : Bool) :
    Exact (unserOptional set r) (serOptional w) fun o => o.isSome = set ∧ ∀ a ∈ o, P a := by
  intro bs o rest
  cases set with
  | true =>
    show (r >>= fun a => pure (some a)) bs = _ ↔ _
    simp only [reader_bind_eq_ok, reader_pure_eq_ok, h.iff]
    constructor
    · intro hread
      obtain ⟨a, _, ⟨rfl, ha⟩, rfl, rfl⟩ := hread
      exact ⟨rfl, rfl, by simpa using ha⟩
    · intro ho
      obtain ⟨rfl, hsome, hall⟩ := ho
      obtain ⟨a, rfl⟩ := isSome_iff_exists.mp hsome
      exact ⟨a, rest, ⟨rfl, hall a rfl⟩, rfl, rfl⟩
  | false =>
    show (pure none : Reader (Option α)) bs = _ ↔ _
    rw [reader_pure_eq_ok]
    constructor
    · intro hread
      obtain ⟨rfl, rfl⟩ := hread
      exact ⟨rfl, rfl, by simp⟩
    · intro ho
      obtain ⟨rfl, hnone, -⟩ := ho
      rw [isSome_eq_false_iff, isNone_iff_eq_none] at hnone
      subst hnone
      exact ⟨rfl, rfl⟩

end Optional

/-! ### Kernels -/

theorem exact_amount : Exact (readVarInt (2 ^ 63 - 1)) (writeVarInt 64) (· ≤ 2 ^ 63 - 1) :=
  Exact.of (fun _ hn => parses_varInt 64 _ (by decide) (by omega) hn) fun bs n rest h =>
    ⟨readVarInt_eq_ok (by decide) (by decide) h, readVarInt_le h⟩

theorem exact_height : Exact (readVarInt (2 ^ 31 - 1)) (writeVarInt 32) (· ≤ 2 ^ 31 - 1) :=
  Exact.of (fun _ hn => parses_varInt 32 _ (by decide) (by omega) hn) fun bs n rest h =>
    ⟨readVarInt_eq_ok (by decide) (by decide) h, readVarInt_le h⟩

/-- An amount or a height as it stands in a stream. -/
def InStream (max n : Int) : Prop := 0 ≤ n ∧ n ≤ max

structure PegOutCoin.Wf (p : PegOutCoin) : Prop where
  amount : InStream (2 ^ 63 - 1) p.amount
  script : p.scriptPubKey ≠ []
  size : p.scriptPubKey.length ≤ maxSize

theorem exact_pegOutCoin : Exact unserPegOutCoin serPegOutCoin PegOutCoin.Wf := by
  intro bs p rest
  simp only [unserPegOutCoin, reader_bind_eq_ok, reader_pure_eq_ok, exact_amount.iff, exact_byteVector.iff,
    ensure_eq_ok]
  constructor
  · intro h
    obtain ⟨amount, _, ⟨rfl, hamount⟩, _, _, ⟨rfl, hsize⟩, _, _, ⟨hscript, rfl⟩, rfl, rfl⟩ := h
    exact ⟨by rw [serPegOutCoin, append_assoc]; rfl, ⟨by simp, by simp; omega⟩, hscript, hsize⟩
  · intro h
    obtain ⟨rfl, hwf⟩ := h
    obtain ⟨⟨hnonneg, hle⟩, hscript, hsize⟩ := hwf
    refine ⟨p.amount.toNat, _, ⟨by rw [serPegOutCoin, append_assoc], by omega⟩, p.scriptPubKey, _,
      ⟨rfl, hsize⟩, (), _, ⟨hscript, rfl⟩, ?_, rfl⟩
    rw [Int.toNat_of_nonneg hnonneg]

namespace Kernel

/-- A kernel that can be read: its fields are those its feature bits announce. -/
structure Wf (k : Kernel) : Prop where
  fee : k.fee.isSome = announces k.features 0x01
  fee_range : ∀ fee ∈ k.fee, InStream (2 ^ 63 - 1) fee
  pegin : k.pegin.isSome = announces k.features 0x02
  pegin_range : ∀ pegin ∈ k.pegin, InStream (2 ^ 63 - 1) pegin
  pegouts : announces k.features 0x04 = true →
    k.pegouts.length ≤ maxSize ∧ ∀ pegout ∈ k.pegouts, pegout.Wf
  no_pegouts : announces k.features 0x04 = false → k.pegouts = []
  lockHeight : k.lockHeight.isSome = announces k.features 0x08
  lockHeight_range : ∀ height ∈ k.lockHeight, InStream (2 ^ 31 - 1) height
  stealthExcess : k.stealthExcess.isSome = announces k.features 0x10
  extraData : announces k.features 0x20 = true → k.extraData.length ≤ maxSize
  no_extraData : announces k.features 0x20 = false → k.extraData = []

/-- What is not announced is not there. -/
structure Announced (k : Kernel) : Prop where
  pegouts : announces k.features 0x04 = false → k.pegouts = []
  extraData : announces k.features 0x20 = false → k.extraData = []

variable {max : Nat} (bits : Nat) {o : Option Int} {k : Kernel}

theorem Wf.announced (h : k.Wf) : k.Announced := ⟨h.no_pegouts, h.no_extraData⟩

theorem map_ofNat_toNat {max : Int} (h : ∀ n ∈ o, InStream max n) : (o.map Int.toNat).map Int.ofNat = o := by
  cases o with
  | none => rfl
  | some n => exact congrArg some (Int.toNat_of_nonneg (h n rfl).1)

theorem serOptional_toNat (o : Option Int) :
    serOptional (fun n : Int => writeVarInt bits n.toNat) o = serOptional (writeVarInt bits) (o.map Int.toNat) := by
  cases o with
  | none => rfl
  | some n => rfl

theorem serOptional_ofNat (o : Option Nat) :
    serOptional (fun n : Int => writeVarInt bits n.toNat) (o.map Int.ofNat) = serOptional (writeVarInt bits) o := by
  cases o with
  | none => rfl
  | some n => rfl

theorem inStream_of_map_ofNat {o : Option Nat} (h : ∀ n ∈ o, n ≤ max) :
    ∀ n ∈ o.map Int.ofNat, InStream max n := by
  intro n hn
  obtain ⟨m, hm, rfl⟩ := map_eq_some_iff.mp hn
  have hle := h m hm
  exact ⟨by simp, by simpa using hle⟩

theorem le_of_map_toNat (h : ∀ n ∈ o, InStream max n) : ∀ n ∈ o.map Int.toNat, n ≤ max := by
  intro n hn
  obtain ⟨m, hm, rfl⟩ := map_eq_some_iff.mp hn
  have hrange := h m hm
  unfold InStream at hrange
  omega

theorem exact_kernel : Exact unserialize encoding Wf := by
  intro bs k rest
  simp only [unserialize, reader_bind_eq_ok, reader_pure_eq_ok, exact_byte.iff, (exact_bigInt _).iff,
    (exact_optional exact_amount _).iff, (exact_optional exact_height _).iff,
    (exact_optional (exact_bigInt 33) _).iff, (exact_if exact_byteVector _ _).iff,
    (exact_if (exact_vector exact_pegOutCoin) _ _).iff]
  constructor
  · intro h
    obtain ⟨features, _, ⟨rfl, -⟩, fee, _, ⟨rfl, hfee, hfee'⟩, pegin, _, ⟨rfl, hpegin, hpegin'⟩, pegouts, _,
      ⟨rfl, hpegouts, hpegouts'⟩, lockHeight, _, ⟨rfl, hlock, hlock'⟩, stealthExcess, _, ⟨rfl, hstealth, -⟩,
      extraData, _, ⟨rfl, hextra, hextra'⟩, excess, _, ⟨rfl, -⟩, signature, _, ⟨rfl, -⟩, rfl, rfl⟩ := h
    refine ⟨by simp only [encoding, serOptional_ofNat, append_assoc], ?_⟩
    exact ⟨by rw [isSome_map, hfee], inStream_of_map_ofNat hfee', by rw [isSome_map, hpegin],
      inStream_of_map_ofNat hpegin', hpegouts, hpegouts', by rw [isSome_map, hlock],
      inStream_of_map_ofNat hlock', hstealth, hextra, hextra'⟩
  · intro h
    obtain ⟨rfl, hk⟩ := h
    refine ⟨k.features, _, ⟨?_, trivial⟩, k.fee.map Int.toNat, _,
      ⟨rfl, by rw [isSome_map, hk.fee], le_of_map_toNat hk.fee_range⟩, k.pegin.map Int.toNat, _,
      ⟨rfl, by rw [isSome_map, hk.pegin], le_of_map_toNat hk.pegin_range⟩, k.pegouts, _,
      ⟨rfl, hk.pegouts, hk.no_pegouts⟩, k.lockHeight.map Int.toNat, _,
      ⟨rfl, by rw [isSome_map, hk.lockHeight], le_of_map_toNat hk.lockHeight_range⟩, k.stealthExcess, _,
      ⟨rfl, hk.stealthExcess, fun _ _ => trivial⟩, k.extraData, _, ⟨rfl, hk.extraData, hk.no_extraData⟩,
      k.excess, _, ⟨rfl, trivial⟩, k.signature, _, ⟨rfl, trivial⟩, ?_, rfl⟩
    · simp only [encoding, serOptional_toNat, append_assoc]
    · rw [map_ofNat_toNat hk.fee_range, map_ofNat_toNat hk.pegin_range, map_ofNat_toNat hk.lockHeight_range]

theorem unserialize_eq_ok {bs rest : Bytes} (h : unserialize bs = .ok (k, rest)) :
    bs = k.encoding ++ rest ∧ k.Announced := by
  obtain ⟨hbs, hk⟩ := exact_kernel.iff.mp h
  exact ⟨hbs, hk.announced⟩

theorem serialize_eq (k : Kernel) : k.serialize = [k.features] ++
    (serOptional (fun fee => writeVarInt 64 fee.toNat) k.fee ++
      serOptional (fun pegin => writeVarInt 64 pegin.toNat) k.pegin ++
      (if k.pegouts.isEmpty then [] else writeVector serPegOutCoin k.pegouts) ++
      serOptional (fun height => writeVarInt 32 height.toNat) k.lockHeight ++
      serOptional BigInt.bytes k.stealthExcess ++
      (if k.extraData.isEmpty then [] else serByteVector k.extraData)) ++
    k.excess.bytes ++ k.signature.bytes := by
  unfold serialize serOptionalFields
  cases k.fee <;> cases k.pegin <;> cases k.lockHeight <;> cases k.stealthExcess <;> rfl

theorem length_encoding (k : Kernel) (hk : k.Announced) : k.encoding.length = k.serialize.length +
      (if announces k.features 0x04 ∧ k.pegouts = [] then 1 else 0) +
      (if announces k.features 0x20 ∧ k.extraData = [] then 1 else 0) := by
  have hpegouts : (if announces k.features 0x04 then writeVector serPegOutCoin k.pegouts else []).length =
      (if k.pegouts.isEmpty then [] else writeVector serPegOutCoin k.pegouts).length +
        if announces k.features 0x04 ∧ k.pegouts = [] then 1 else 0 := by
    cases hbit : announces k.features 0x04 with
    | false => simp [hk.pegouts hbit]
    | true =>
      by_cases hnil : k.pegouts = []
      · rw [hnil]
        rfl
      · simp [hnil]
  have hextra : (if announces k.features 0x20 then serByteVector k.extraData else []).length =
      (if k.extraData.isEmpty then [] else serByteVector k.extraData).length +
        if announces k.features 0x20 ∧ k.extraData = [] then 1 else 0 := by
    cases hbit : announces k.features 0x20 with
    | false => simp [hk.extraData hbit]
    | true =>
      by_cases hnil : k.extraData = []
      · rw [hnil]
        rfl
      · simp [hnil]
  rw [serialize_eq]
  simp only [encoding, length_append]
  omega

theorem length_serialize_le (hk : k.Announced) : k.serialize.length ≤ k.encoding.length := by
  rw [k.length_encoding hk]
  omega

theorem fieldsPresent_of_length (hk : k.Announced) (h : k.encoding.length ≤ k.serialize.length) :
    k.FieldsPresent := by
  rw [k.length_encoding hk] at h
  constructor
  · intro hbit hnil
    simp only [hbit, hnil, and_self, if_true] at h
    omega
  · intro hbit hnil
    simp only [hbit, hnil, and_self, if_true] at h
    omega

theorem serialize_eq_encoding (k : Kernel) (hk : k.Announced) (hpresent : k.FieldsPresent) :
    k.serialize = k.encoding := by
  have hpegouts : (if k.pegouts.isEmpty then [] else writeVector serPegOutCoin k.pegouts) =
      if announces k.features 0x04 then writeVector serPegOutCoin k.pegouts else [] := by
    cases hbit : announces k.features 0x04 with
    | false => simp [hk.pegouts hbit]
    | true => simp [hpresent.1 hbit]
  have hextra : (if k.extraData.isEmpty then [] else serByteVector k.extraData) =
      if announces k.features 0x20 then serByteVector k.extraData else [] := by
    cases hbit : announces k.features 0x20 with
    | false => simp [hk.extraData hbit]
    | true => simp [hpresent.2 hbit]
  rw [serialize_eq, hpegouts, hextra]
  simp only [encoding, append_assoc]

theorem serialize_eq_encoding_iff (k : Kernel) (hk : k.Announced) :
    k.serialize = k.encoding ↔ k.FieldsPresent := by
  constructor
  · intro heq
    exact fieldsPresent_of_length hk (by rw [heq])
  · exact k.serialize_eq_encoding hk

end Kernel

/-- **Kernel codec**: the bytes a kernel was read from are written again exactly when no announced
    field was empty; two such encodings of different kernels are written differently. -/
theorem kernel_reencodes_iff (bs rest : Bytes) (k : Kernel) (h : unserialize bs = .ok (k, rest)) :
    ∃ e, bs = e ++ rest ∧ (k.serialize = e ↔ k.FieldsPresent) ∧
      (k.FieldsPresent → ∀ cr, k.getKernelID cr = cr.hash e) ∧
      ∀ bs' rest' k' e', unserialize bs' = .ok (k', rest') → bs' = e' ++ rest' →
        k.FieldsPresent → k'.FieldsPresent → e ≠ e' → k.serialize ≠ k'.serialize := by
  obtain ⟨hbs, hk⟩ := unserialize_eq_ok h
  refine ⟨k.encoding, hbs, k.serialize_eq_encoding_iff hk, ?_, ?_⟩
  · intro hpresent cr
    rw [getKernelID, k.serialize_eq_encoding hk hpresent]
  · intro bs' rest' k' e' h' hbs' hpresent hpresent' hne heq
    obtain ⟨henc', hk'⟩ := unserialize_eq_ok h'
    have he' : e' = k'.encoding := by
      rw [hbs'] at henc'
      exact append_cancel_right henc'
    rw [k.serialize_eq_encoding hk hpresent, k'.serialize_eq_encoding hk' hpresent'] at heq
    exact hne (heq.trans he'.symm)

/-- Two different kernels with an announced field that is empty are written alike, so they have the
    same id. -/
theorem kernels_written_alike :
    ∃ k k', unserialize ([0x2c, 1, 3, 1, 0x51, 5, 0] ++ List.replicate 97 0) = .ok (k, []) ∧
      unserialize ([0x2c, 0, 1, 3, 1, 0x51, 5] ++ List.replicate 97 0) = .ok (k', []) ∧
      k.pegouts ≠ k'.pegouts ∧ k.serialize = k'.serialize ∧
      k.serialize = [0x2c, 1, 3, 1, 0x51, 5] ++ List.replicate 97 0 :=
  ⟨_, _, rfl, rfl, by decide, rfl, rfl⟩

/-- A kernel with a fee, which is read from one encoding only. -/
theorem kernel_reencodes_iff_fee :
    ∃ k, unserialize ([0x01, 7] ++ List.replicate 97 0) = .ok (k, []) ∧
      k.serialize = [0x01, 7] ++ List.replicate 97 0 := by
  refine ⟨_, rfl, ?_⟩
  obtain ⟨_, he, hiff, -⟩ := kernel_reencodes_iff ([0x01, 7] ++ List.replicate 97 0) [] _ rfl
  rw [append_nil] at he
  rw [he]
  exact hiff.mpr ⟨by decide, by decide⟩

end Defcoin.Mweb
