import Defcoin.Mweb.KernelCodec
import Defcoin.Mweb.Transaction

/-! # Reading transactions of the extension block

  `mw::Transaction` in a stream: offsets, inputs, outputs and kernels. Inputs and outputs have one
  encoding each. Kernels do not: what a transaction is read from is its encoding, and what is written
  is that exactly when no kernel has an announced field that is empty.
-/

namespace Defcoin.Mweb

open ByteCodec List Kernel

/-! ### Inputs -/

/-- `Input` serialisation. A key that is announced and missing is dereferenced all the same. -/
def serInput (i : Input) : Bytes :=
  [i.features] ++ i.outputID.bytes ++ i.commitment.bytes ++ i.outputPubKey.bytes ++
    (if Kernel.announces i.features 0x01 then serOptional BigInt.bytes i.inputPubKey else []) ++
    (if Kernel.announces i.features 0x02 then serByteVector i.extraData else []) ++ i.signature.bytes

/-- `Input` deserialisation. -/
def unserInput : Reader Input := do
  let features ← readByte
  let outputID ← readBigInt 32
  let commitment ← readBigInt 33
  let outputPubKey ← readBigInt 33
  let inputPubKey ← unserOptional (Kernel.announces features 0x01) (readBigInt 33)
  let extraData ← unserIf (Kernel.announces features 0x02) unserByteVector []
  let signature ← readBigInt 64
  pure { features, outputID, commitment, inputPubKey, outputPubKey, extraData, signature }

/-- The fields of an input are those its feature bits announce. -/
structure Input.Wf (i : Input) : Prop where
  inputPubKey : i.inputPubKey.isSome = Kernel.announces i.features 0x01
  size : Kernel.announces i.features 0x02 = true → i.extraData.length ≤ maxSize
  extra : Kernel.announces i.features 0x02 = false → i.extraData = []

theorem Input.Wf.serOptional_eq {i : Input} (h : i.Wf) :
    (if announces i.features 0x01 then serOptional BigInt.bytes i.inputPubKey else []) =
      serOptional BigInt.bytes i.inputPubKey := by
  rw [← h.inputPubKey]
  cases i.inputPubKey with
  | none => rfl
  | some key => rfl

theorem exact_input : Exact unserInput serInput Input.Wf := by
  intro bs i rest
  simp only [unserInput, reader_bind_eq_ok, reader_pure_eq_ok, exact_byte.iff, (exact_bigInt _).iff,
    (exact_optional (exact_bigInt 33) _).iff, (exact_if exact_byteVector _ _).iff]
  constructor
  · intro h
    obtain ⟨features, _, ⟨rfl, -⟩, outputID, _, ⟨rfl, -⟩, commitment, _, ⟨rfl, -⟩, outputPubKey, _, ⟨rfl, -⟩,
      inputPubKey, _, ⟨rfl, hkey, -⟩, extraData, _, ⟨rfl, hsize, hextra⟩, signature, _, ⟨rfl, -⟩, rfl, rfl⟩ := h
    have hwf : Input.Wf ⟨features, outputID, commitment, inputPubKey, outputPubKey, extraData, signature⟩ :=
      ⟨hkey, hsize, hextra⟩
    refine ⟨?_, hwf⟩
    rw [serInput, hwf.serOptional_eq]
    simp
  · intro h
    obtain ⟨rfl, hi⟩ := h
    refine ⟨_, _, ⟨?_, trivial⟩, i.outputID, _, ⟨rfl, trivial⟩, i.commitment, _, ⟨rfl, trivial⟩,
      i.outputPubKey, _, ⟨rfl, trivial⟩, i.inputPubKey, _, ⟨rfl, hi.inputPubKey, fun _ _ => trivial⟩,
      i.extraData, _, ⟨rfl, hi.size, hi.extra⟩, i.signature, _, ⟨rfl, trivial⟩, rfl, rfl⟩
    rw [serInput, hi.serOptional_eq]
    simp only [append_assoc]

/-! ### Outputs -/

theorem exact_standardFields : Exact unserStandardFields serStandardFields fun _ => True := by
  apply Exact.of fun f _ => parses_standardFields f
  intro bs f rest h
  simp only [unserStandardFields, reader_bind_eq_ok, exact_byte.iff, (exact_bigInt _).iff,
    (exact_le 8).iff] at h
  obtain ⟨_, _, ⟨rfl, -⟩, _, _, ⟨rfl, -⟩, _, _, ⟨rfl, hvalue⟩, _, _, ⟨rfl, -⟩, rfl, rfl⟩ := h
  refine ⟨?_, trivial⟩
  rw [serStandardFields, BitVec.toNat_ofNat, Nat.mod_eq_of_lt (by omega)]
  simp only [append_assoc]

theorem exact_outputMessage : Exact unserOutputMessage serOutputMessage OutputMessage.Wf := by
  apply Exact.of fun m hm => parses_outputMessage hm
  intro bs m rest h
  simp only [unserOutputMessage, reader_bind_eq_ok, exact_byte.iff,
    (exact_if exact_standardFields _ _).iff, (exact_if exact_byteVector _ _).iff] at h
  obtain ⟨features, _, ⟨rfl, -⟩, _, _, ⟨rfl, -, hstandard⟩, _, _, ⟨rfl, hsize, hextra⟩, rfl, rfl⟩ := h
  refine ⟨by simp only [serOutputMessage, append_assoc]; rfl, hstandard, hextra, ?_⟩
  cases hbit : features &&& 0x02 != 0 with
  | true => exact hsize hbit
  | false =>
    rw [hextra hbit]
    exact Nat.zero_le _

theorem exact_output : Exact unserOutput serOutput fun o => o.message.Wf := by
  apply Exact.of fun o ho => parses_output ho
  intro bs o rest h
  simp only [unserOutput, reader_bind_eq_ok, (exact_bigInt _).iff, exact_outputMessage.iff] at h
  obtain ⟨_, _, ⟨rfl, -⟩, _, _, ⟨rfl, -⟩, _, _, ⟨rfl, -⟩, message, _, ⟨rfl, hm⟩, _, _,
    ⟨rfl, -⟩, _, _, ⟨rfl, -⟩, rfl, rfl⟩ := h
  exact ⟨by simp only [serOutput, append_assoc], hm⟩

/-! ### Kernels -/

namespace Kernel

theorem writeEach_serialize_eq_iff {kernels : List Kernel} (hk : ∀ k ∈ kernels, k.Announced) :
    writeEach serialize kernels = writeEach encoding kernels ↔ ∀ k ∈ kernels, k.FieldsPresent := by
  have hlength : ∀ kernels : List Kernel, (∀ k ∈ kernels, k.Announced) →
      (writeEach serialize kernels).length ≤ (writeEach encoding kernels).length := by
    intro kernels
    induction kernels with
    | nil => exact fun _ => le_refl _
    | cons k kernels ih =>
      intro hk
      obtain ⟨hfirst, hrest⟩ := forall_mem_cons.mp hk
      replace hfirst := length_serialize_le hfirst
      replace hrest := ih hrest
      simp only [writeEach, flatMap_cons, length_append] at hrest ⊢
      omega
  constructor
  · intro heq
    have hle : (writeEach encoding kernels).length ≤ (writeEach serialize kernels).length := by rw [heq]
    clear heq
    induction kernels with
    | nil => simp
    | cons k kernels ih =>
      obtain ⟨hk₀, hk⟩ := forall_mem_cons.mp hk
      have hfirst := length_serialize_le hk₀
      have hrest := hlength kernels hk
      simp only [writeEach, flatMap_cons, length_append] at hle hrest ih
      exact forall_mem_cons.mpr ⟨fieldsPresent_of_length hk₀ (by omega), ih hk (by omega)⟩
  · intro hpresent
    apply flatMap_congr
    intro k hmem
    exact k.serialize_eq_encoding (hk k hmem) (hpresent k hmem)

end Kernel

/-! ### Bodies -/

/-- The vectors of a `TxBody`, with kernels written by `w`. -/
def writeTxBody (w : Kernel → Bytes) (b : TxBody) : Bytes :=
  writeVector serInput b.inputs ++ writeVector serOutput b.outputs ++ writeVector w b.kernels

/-- The vectors of a `TxBody` are read. -/
def unserTxVectors : Reader TxVectors := do
  let inputs ← readVector unserInput
  let outputs ← readVector unserOutput
  let kernels ← readVector Kernel.unserialize
  pure { inputs, outputs, kernels }

theorem unserTxVectors_eq_ok {bs rest : Bytes} {v : TxVectors} : unserTxVectors bs = .ok (v, rest) ↔
      bs = writeVector serInput v.inputs ++ (writeVector serOutput v.outputs ++
          (writeVector encoding v.kernels ++ rest)) ∧
        (v.inputs.length ≤ maxSize ∧ ∀ i ∈ v.inputs, i.Wf) ∧
        (v.outputs.length ≤ maxSize ∧ ∀ o ∈ v.outputs, o.message.Wf) ∧
        (v.kernels.length ≤ maxSize ∧ ∀ k ∈ v.kernels, k.Wf) := by
  simp only [unserTxVectors, reader_bind_eq_ok, reader_pure_eq_ok, (exact_vector exact_input).iff,
    (exact_vector exact_output).iff, (exact_vector exact_kernel).iff]
  constructor
  · intro h
    obtain ⟨inputs, _, ⟨rfl, hin⟩, outputs, _, ⟨rfl, hout⟩, kernels, _, ⟨rfl, hker⟩, rfl, rfl⟩ := h
    exact ⟨rfl, hin, hout, hker⟩
  · intro h
    obtain ⟨rfl, hin, hout, hker⟩ := h
    exact ⟨v.inputs, _, ⟨rfl, hin⟩, v.outputs, _, ⟨rfl, hout⟩, v.kernels, _, ⟨rfl, hker⟩, rfl, rfl⟩

/-- `TxBody` deserialisation. -/
def unserTxBody : Reader TxBody := fun bs =>
  match h : unserTxVectors bs with
  | .error msg => .error msg
  | .ok (v, rest) =>
    .ok (⟨v.inputs, v.outputs, v.kernels, (unserTxVectors_eq_ok.mp h).2.1.1,
      (unserTxVectors_eq_ok.mp h).2.2.1.1, (unserTxVectors_eq_ok.mp h).2.2.1.2⟩, rest)

structure TxBody.Wf (b : TxBody) : Prop where
  inputs : ∀ i ∈ b.inputs, i.Wf
  kernels_size : b.kernels.length ≤ maxSize
  kernels : ∀ k ∈ b.kernels, k.Wf

theorem exact_txBody : Exact unserTxBody (writeTxBody encoding) TxBody.Wf := by
  apply Exact.of
  · intro b hb rest
    have hread : unserTxVectors (writeTxBody encoding b ++ rest) = .ok (b.vectors, rest) := by
      apply unserTxVectors_eq_ok.mpr
      exact ⟨by simp only [writeTxBody, TxBody.vectors, append_assoc], ⟨b.inputs_size, hb.inputs⟩,
        ⟨b.outputs_size, b.outputs_wf⟩, hb.kernels_size, hb.kernels⟩
    unfold unserTxBody
    split
    · next msg h =>
      rw [hread] at h
      cases h
    · next v rest' h =>
      rw [hread] at h
      cases h
      rfl
  · intro bs b rest h
    unfold unserTxBody at h
    split at h
    · cases h
    · next v rest' hread =>
      cases h
      obtain ⟨rfl, hin, -, hker⟩ := unserTxVectors_eq_ok.mp hread
      exact ⟨by simp only [writeTxBody, append_assoc], hin.2, hker.1, hker.2⟩

/-! ### Transactions -/

/-- A `mw::Transaction`, with kernels written by `w`. -/
def writeTransaction (w : Kernel → Bytes) (t : Transaction) : Bytes :=
  t.kernelOffset.bytes ++ t.stealthOffset.bytes ++ writeTxBody w t.body

/-- `Transaction::Serialize` -/
def Transaction.serialize (t : Transaction) : Bytes := writeTransaction Kernel.serialize t

def Transaction.encoding (t : Transaction) : Bytes := writeTransaction Kernel.encoding t

/-- `Transaction::Unserialize` -/
def Transaction.unserialize : Reader Transaction := do
  let kernelOffset ← readBigInt 32
  let stealthOffset ← readBigInt 32
  let body ← unserTxBody
  ensure (body.kernels ≠ []) "Transaction requires at least one kernel"
  pure { kernelOffset, stealthOffset, body }

namespace Transaction

structure Wf (t : Transaction) : Prop where
  body : t.body.Wf
  kernels : t.body.kernels ≠ []

/-- No kernel has an announced field that is empty. -/
def FieldsPresent (t : Transaction) : Prop := ∀ k ∈ t.body.kernels, k.FieldsPresent

theorem exact_transaction : Exact unserialize encoding Wf := by
  intro bs t rest
  simp only [unserialize, reader_bind_eq_ok, reader_pure_eq_ok, (exact_bigInt _).iff, exact_txBody.iff,
    ensure_eq_ok]
  constructor
  · intro h
    obtain ⟨kernelOffset, _, ⟨rfl, -⟩, stealthOffset, _, ⟨rfl, -⟩, body, _, ⟨rfl, hbody⟩, _, _, ⟨hne, rfl⟩, rfl,
      rfl⟩ := h
    exact ⟨by simp only [encoding, writeTransaction, append_assoc], hbody, hne⟩
  · intro h
    obtain ⟨rfl, ht⟩ := h
    exact ⟨t.kernelOffset, _, ⟨by simp only [encoding, writeTransaction, append_assoc], trivial⟩,
      t.stealthOffset, _, ⟨rfl, trivial⟩, t.body, _, ⟨rfl, ht.body⟩, (), _, ⟨ht.kernels, rfl⟩, rfl, rfl⟩

theorem serialize_eq_encoding_iff {t : Transaction} (ht : t.Wf) : t.serialize = t.encoding ↔ t.FieldsPresent := by
  have hk : ∀ k ∈ t.body.kernels, k.Announced := fun k hmem => (ht.body.kernels k hmem).announced
  unfold serialize encoding FieldsPresent writeTransaction writeTxBody writeVector
  rw [append_cancel_left_eq, append_cancel_left_eq, append_cancel_left_eq]
  exact writeEach_serialize_eq_iff hk

end Transaction

end Defcoin.Mweb
