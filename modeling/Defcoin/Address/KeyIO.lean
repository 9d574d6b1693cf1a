import Defcoin.Address.Base58
import Defcoin.Address.Bech32
import Defcoin.Mweb.Models

/-! # Addresses

  `DecodeDestination` tries base58, then Bech32 for witness programs, then Bech32 for addresses of
  the extension block. The second asks for data after the separator, the third does not.
-/

namespace Defcoin.Address

open ByteCodec Requests Bech32 Safe List
open Mweb (BigInt PublicKey)

/-! ### Decoding -/

/-- The parameters of a chain that addresses depend on. -/
structure CChainParams where
  pubkey_address : Bytes
  script_address : Bytes
  script_address2 : Bytes
  bech32_hrp : Bytes
  mweb_hrp : Bytes

inductive Chain where
  | main | test | regtest
  deriving DecidableEq

/-- `CMainParams`, `CTestNetParams` and `CRegTestParams` -/
def Chain.params : Chain → CChainParams
  | .main =>
    { pubkey_address := [30], script_address := [5], script_address2 := [50],
      bech32_hrp := ['d', 'f', 'c'].map Char.toUInt8,
      mweb_hrp := ['d', 'f', 'c', 'm', 'w', 'e', 'b'].map Char.toUInt8 }
  | .test =>
    { pubkey_address := [111], script_address := [196], script_address2 := [58],
      bech32_hrp := ['t', 'd', 'f', 'c'].map Char.toUInt8,
      mweb_hrp := ['t', 'd', 'f', 'c', 'm', 'w', 'e', 'b'].map Char.toUInt8 }
  | .regtest =>
    { pubkey_address := [111], script_address := [196], script_address2 := [58],
      bech32_hrp := ['r', 'd', 'f', 'c'].map Char.toUInt8,
      mweb_hrp := ['r', 'd', 'f', 'c', 'm', 'w', 'e', 'b'].map Char.toUInt8 }

/-- `CTxDestination` -/
inductive CTxDestination where
  | noDestination
  | pkHash (hash : BigInt 20)
  | scriptHash (hash : BigInt 20)
  | witnessV0ScriptHash (hash : BigInt 32)
  | witnessV0KeyHash (hash : BigInt 20)
  | witnessUnknown (version : Nat) (program : Bytes) (length : 2 ≤ program.length ∧ program.length ≤ 40)
  | stealthAddress (scan spend : PublicKey)
  deriving DecidableEq

def hashAfter (pre data : Bytes) : Option (BigInt 20) :=
  if h : data.length = 20 + pre.length ∧ data.take pre.length = pre then
    some ⟨data.drop pre.length, by rw [List.length_drop]; omega⟩
  else none

/-- The base58 part of `DecodeDestination`. -/
def base58Destination (params : CChainParams) (data : Bytes) : Option CTxDestination :=
  match hashAfter params.pubkey_address data with
  | some hash => some (.pkHash hash)
  | none =>
    match hashAfter params.script_address data with
    | some hash => some (.scriptHash hash)
    | none => (hashAfter params.script_address2 data).map .scriptHash

/-- The inner loop of `ConvertBits`: what is written, and the bits left over. -/
def emitBits (tobits acc : Nat) : Nat → Nat → List UInt8 × Nat
  | 0, bits => ([], bits)
  | fuel + 1, bits =>
    if tobits ≤ bits then
      let r := emitBits tobits acc fuel (bits - tobits)
      (UInt8.ofNat ((acc >>> (bits - tobits)) &&& (2 ^ tobits - 1)) :: r.1, r.2)
    else ([], bits)

/-- `ConvertBits<frombits, tobits, false>`: what is written, and whether it succeeds. -/
def convertBits (frombits tobits : Nat) : List UInt8 → Nat → Nat → List UInt8 × Bool
  | [], acc, bits => ([], !(decide (frombits ≤ bits) || (acc <<< (tobits - bits)) &&& (2 ^ tobits - 1) != 0))
  | v :: values, acc, bits =>
    let acc := ((acc <<< frombits) ||| v.toNat) &&& (2 ^ (frombits + tobits - 1) - 1)
    -- each round of the inner loop takes away at least one bit
    let written := emitBits tobits acc (bits + frombits) (bits + frombits)
    let r := convertBits frombits tobits values acc written.2
    (written.1 ++ r.1, r.2)

/-- `((size - 1) * 5) / 8`, computed as a `size_t`. -/
def reservation (size : Nat) : Nat := (size + (2 ^ 64 - 1)) % 2 ^ 64 * 5 % 2 ^ 64 / 8

section
variable (available : Nat)

/-- The data after its first element, converted to bytes: reserve, and append what is written. -/
def convertData (data : List UInt8) : Alloc (Option Bytes) := do
  request available (reservation data.length)
  insist (1 ≤ data.length) (.outOfBounds "data.begin() + 1")
  let r := convertBits 5 8 data.tail 0 0
  -- beyond what is reserved, the capacity is doubled
  request available (if r.1.length ≤ reservation data.length then 0 else 2 * r.1.length)
  pure (if r.2 then some r.1 else none)

def witnessV0 (program : Bytes) : CTxDestination :=
  if h : program.length = 20 then .witnessV0KeyHash ⟨program, h⟩
  else if h : program.length = 32 then .witnessV0ScriptHash ⟨program, h⟩
  else .noDestination

def witnessOther (version : Nat) (program : Bytes) : CTxDestination :=
  if h : version > 16 ∨ program.length < 2 ∨ program.length > 40 then .noDestination
  else .witnessUnknown version program (by omega)

/-- What the Bech32 part of `DecodeDestination` returns for a program, if anything. -/
def witnessDestination (version : Nat) : Option Bytes → Option CTxDestination
  | none => none
  | some program => some (if version = 0 then witnessV0 program else witnessOther version program)

variable (params : CChainParams)

/-- The Bech32 part of `DecodeDestination`. -/
def decodeWitness (dec : Bech32.DecodeResult) :
    Alloc (Option CTxDestination) :=
  if dec.encoding ≠ .INVALID ∧ dec.data.length > 0 ∧ dec.hrp = params.bech32_hrp then
    let version := (dec.data.headD 0).toNat
    if version = 0 ∧ dec.encoding ≠ .BECH32 then pure (some .noDestination)
    else if version ≠ 0 ∧ dec.encoding ≠ .BECH32M then pure (some .noDestination)
    else do
      let program ← convertData available dec.data
      pure (witnessDestination version program)
  else pure none

def mwebDestination : Option Bytes → CTxDestination
  | none => .noDestination
  | some converted =>
    if h : converted.length = 66 then
      .stealthAddress ⟨converted.take 33, by rw [List.length_take, h]; rfl⟩
        ⟨converted.drop 33, by rw [List.length_drop, h]⟩
    else .noDestination

/-- The part of `DecodeDestination` for the extension block. -/
def decodeMweb (decoded : Bech32.DecodeResult) : Alloc CTxDestination :=
  if decoded.encoding = .BECH32 ∧ decoded.hrp = params.mweb_hrp then do
    let converted ← convertData available decoded.data
    pure (mwebDestination converted)
  else pure .noDestination

/-- `DecodeDestination` after base58. -/
def decodeBech32Destination (str : Bytes) : Alloc CTxDestination := do
  let dec ← Bech32.decode available str false
  let witness ← decodeWitness available params dec
  match witness with
  | some dest => pure dest
  | none => do
    let decoded ← Bech32.decode available str true
    decodeMweb available params decoded

/-- `DecodeDestination` -/
def decodeDestination (hash : Bytes → Bytes) (params : CChainParams) (str : Bytes) :
    Alloc CTxDestination := do
  let data ← decodeBase58Check available hash str 21
  match data.bind (base58Destination params) with
  | some dest => pure dest
  | none => decodeBech32Destination available params str

end

theorem emitBits_spec (tobits acc fuel bits : Nat) :
    tobits * (emitBits tobits acc fuel bits).1.length + (emitBits tobits acc fuel bits).2 = bits := by
  induction fuel generalizing bits with
  | zero => simp [emitBits]
  | succ fuel ih =>
    rw [emitBits]
    split
    · next hle =>
      have := ih (bits - tobits)
      dsimp only
      rw [length_cons, Nat.mul_add]
      omega
    · simp

theorem length_convertBits_le (frombits tobits : Nat) (values : List UInt8) (acc bits : Nat) :
    tobits * (convertBits frombits tobits values acc bits).1.length ≤ bits + frombits * values.length := by
  induction values generalizing acc bits with
  | nil => simp [convertBits]
  | cons v values ih =>
    rw [convertBits]
    generalize ((acc <<< frombits) ||| v.toNat) &&& (2 ^ (frombits + tobits - 1) - 1) = acc'
    have hemit := emitBits_spec tobits acc' (bits + frombits) (bits + frombits)
    have hrest := ih acc' (emitBits tobits acc' (bits + frombits) (bits + frombits)).2
    rw [length_append, Nat.mul_add, length_cons, Nat.mul_add frombits]
    omega

/-! ### Safety -/

section Safety
variable {available bound : Nat} {params : CChainParams} {str : Bytes}

/-- **Conversion**: the data after its first element is read and what was reserved is enough. -/
theorem safe_convertData (hbound : Servable available bound) {data : List UInt8} (hpos : 1 ≤ data.length)
    (hle : 16 * data.length ≤ bound) : Safe bound (convertData available data) fun _ => True := by
  have hmax : bound ≤ maxElements := le_trans hbound.le_available hbound.available_le
  have hreserve : reservation data.length = (data.length - 1) * 5 / 8 := by
    unfold maxElements at hmax
    unfold reservation
    omega
  have hlength := length_convertBits_le 5 8 data.tail 0 0
  rw [length_tail] at hlength
  apply (safe_request hbound (by omega)).bind
  intro _ _
  apply (safe_insist hpos).bind
  intro _ _
  dsimp only
  rw [if_pos (by omega)]
  apply (safe_request hbound (Nat.zero_le _)).bind
  intro _ _
  exact pure trivial

theorem fails_convertData_nil : Fails (convertData available []) := by
  apply fails_bind
  intro _ _ _ _
  apply Fails.bind
  apply fails_insist
  simp

section
variable (hbound : Servable available bound)
include hbound

theorem safe_decodeWitness {dec : DecodeResult} (hle : 16 * dec.data.length ≤ bound) :
    Safe bound (decodeWitness available params dec) fun r => dec.data = [] → r = none := by
  unfold decodeWitness
  split
  · next h =>
    have hne : dec.data ≠ [] := length_pos_iff.mp h.2.1
    dsimp only
    split
    · exact pure fun hnil => absurd hnil hne
    · split
      · exact pure fun hnil => absurd hnil hne
      · apply (safe_convertData hbound h.2.1 hle).bind
        intro _ _
        exact pure fun hnil => absurd hnil hne
  · exact pure fun _ => rfl

theorem safe_decodeMweb {decoded : DecodeResult} (hle : 16 * decoded.data.length ≤ bound)
    (hdata : decoded ≠ ⟨.BECH32, params.mweb_hrp, []⟩) :
    Safe bound (decodeMweb available params decoded) fun _ => True := by
  unfold decodeMweb
  split
  · next h =>
    have hpos : 1 ≤ decoded.data.length := by
      apply length_pos_iff.mpr
      intro hnil
      apply hdata
      rw [← h.1, ← h.2, ← hnil]
    apply (safe_convertData hbound hpos hle).bind
    intro _ _
    exact pure trivial
  · exact pure trivial

theorem safe_decodeBech32Destination (hle : 100 * (str.length + 1) ≤ bound)
    (hdata : ¬ EmptyData params.mweb_hrp str) :
    Safe bound (decodeBech32Destination available params str) fun _ => True := by
  apply (safe_decode hbound (by omega)).bind
  intro dec hdec
  apply (safe_decodeWitness hbound (by omega)).bind
  intro witness _
  split
  · exact pure trivial
  · apply (safe_decode hbound (by omega)).bind
    intro decoded hdecoded
    apply safe_decodeMweb hbound (by omega)
    intro heq
    exact hdata ((hdecoded.2 (Or.inr rfl) params.mweb_hrp).mp heq)

/-- An address of the extension block without data is not seen by the witness part and asks the last
    part for the impossible. -/
theorem fails_decodeBech32Destination (hle : 100 * (str.length + 1) ≤ bound)
    (hshort : params.mweb_hrp.length ≤ 83) (hdata : EmptyData params.mweb_hrp str) :
    FailsUpTo bound (decodeBech32Destination available params str) := by
  have hlength := hdata.length
  apply (safe_decode hbound (by omega)).bind_fails
  intro dec hdec
  obtain rfl := (hdec.2 (Or.inl (by omega)) params.mweb_hrp).mpr hdata
  apply (safe_decodeWitness hbound (by simp)).bind_fails
  intro witness hwitness
  rw [hwitness rfl]
  apply (safe_decode hbound (by omega)).bind_fails
  intro decoded hdecoded
  obtain rfl := (hdecoded.2 (Or.inr rfl) params.mweb_hrp).mpr hdata
  apply Fails.upTo
  unfold decodeMweb
  rw [if_pos ⟨rfl, rfl⟩]
  exact fails_convertData_nil.bind

end

variable (hash : Bytes → Bytes)

theorem safe_decodeBase58Check (hbound : Servable available bound) (hle : 100 * (str.length + 1) ≤ bound)
    (hfits : Base58Fits 25 str) : Safe bound (decodeBase58Check available hash str 21) fun r =>
      ∀ payload, r = some payload → payload.length ≤ str.length := by
  apply (safe_decodeBase58 hbound (by omega) (by omega) hfits).bind
  intro r hr
  split
  · exact Safe.pure nofun
  · next vchRet =>
    have hlength := hr vchRet rfl
    split
    · exact Safe.pure nofun
    · dsimp only
      split
      · exact Safe.pure nofun
      · apply Safe.pure
        intro payload hpayload
        cases hpayload
        rw [length_take]
        omega

theorem hashAfter_eq_none {pre data : Bytes} (h : data.length < 20) : hashAfter pre data = none := by
  unfold hashAfter
  rw [dif_neg (by omega)]

theorem base58Destination_eq_none {data : Bytes} (h : data.length < 20) : base58Destination params data = none := by
  unfold base58Destination
  rw [hashAfter_eq_none h, hashAfter_eq_none h, hashAfter_eq_none h]
  rfl

section
variable (hbound : Servable available bound) (hle : 100 * (str.length + 1) ≤ bound)
  (hfits : Base58Fits 25 str)
include hbound hle hfits

theorem safe_decodeDestination (hdata : ¬ EmptyData params.mweb_hrp str) :
    Safe bound (decodeDestination available hash params str) fun _ => True := by
  apply (safe_decodeBase58Check hash hbound hle hfits).bind
  intro data _
  split
  · exact pure trivial
  · exact safe_decodeBech32Destination hbound hle hdata

theorem fails_decodeDestination_of_emptyData (hshort : params.mweb_hrp.length ≤ 12)
    (hdata : EmptyData params.mweb_hrp str) :
    FailsUpTo bound (decodeDestination available hash params str) := by
  have hlength := hdata.length
  apply (safe_decodeBase58Check hash hbound hle hfits).bind_fails
  intro data hpayload
  have hnone : data.bind (base58Destination params) = none := by
    cases data with
    | none => rfl
    | some payload =>
      have := hpayload payload rfl
      exact base58Destination_eq_none (by omega)
  rw [hnone]
  exact fails_decodeBech32Destination hbound hle (by omega) hdata

end

theorem length_mweb_hrp_le (chain : Chain) : chain.params.mweb_hrp.length ≤ 12 := by
  cases chain <;> decide

/-- **Addresses**: decoding succeeds, with requests in proportion to the text, unless the text is
    too long for the size of the base58 buffer or is an address of the extension block without
    data. -/
theorem decodeDestination_safe_iff (chain : Chain) (hash : Bytes → Bytes) (str : Bytes) (available : Nat)
    (hbound : Servable available (100 * (str.length + 1))) :
    (∃ dest largest, decodeDestination available hash chain.params str 0 = .ok (dest, largest) ∧
        largest ≤ 100 * (str.length + 1)) ↔
      Base58Fits 25 str ∧ ¬ EmptyData chain.params.mweb_hrp str := by
  constructor
  · intro h
    obtain ⟨dest, largest, hok, -⟩ := h
    have hfits : Base58Fits 25 str := by
      by_contra hfits
      have hfails : Fails (decodeDestination available hash chain.params str) := (fails_decodeBase58 hfits).bind.bind
      obtain ⟨e, he⟩ := hfails 0
      rw [hok] at he
      cases he
    refine ⟨hfits, fun hdata => ?_⟩
    obtain ⟨e, he⟩ := fails_decodeDestination_of_emptyData hash hbound (le_refl _) hfits
      (length_mweb_hrp_le chain) hdata 0 (Nat.zero_le _)
    rw [hok] at he
    cases he
  · intro h
    obtain ⟨hfits, hdata⟩ := h
    obtain ⟨dest, largest, hok, hle, -⟩ := safe_decodeDestination hash hbound (le_refl _) hfits hdata 0
      (Nat.zero_le _)
    exact ⟨dest, largest, hok, hle⟩

/-- The address of the key hash 0, 1, .., 19. -/
def keyHashAddress : Bytes := "dfc1qqqqsyqcyq5rqwzqfpg9scrgwpugpzysn7xpvkj".toList.map Char.toUInt8

def CTxDestination.keyHash : CTxDestination → Option Bytes
  | .witnessV0KeyHash hash => some hash.bytes
  | _ => none

theorem decodeDestination_safe_keyHash : ∃ dest largest,
    decodeDestination 4400 (fun _ => []) Chain.main.params keyHashAddress 0 = .ok (dest, largest) ∧
      largest ≤ 4400 ∧ dest.keyHash = some ((range 20).map UInt8.ofNat) := by
  have hbound : Servable 4400 4400 := ⟨by decide, by decide⟩
  have hlength : keyHashAddress.length = 43 := by decide +kernel
  -- an address of the extension block without data is shorter
  have hdata : ¬ EmptyData Chain.main.params.mweb_hrp keyHashAddress := by
    intro h
    have hshort := h.length
    rw [hlength] at hshort
    cases hshort
  have hsafe := decodeDestination_safe_iff .main (fun _ => []) keyHashAddress 4400 (hlength ▸ hbound)
  obtain ⟨dest, largest, hok, hle⟩ := hsafe.mpr ⟨base58Fits_of_length (by rw [hlength]; decide), hdata⟩
  have hkey : (decodeDestination 4400 (fun _ => []) Chain.main.params keyHashAddress 0).map
      (fun r => r.1.keyHash) = .ok (some ((range 20).map UInt8.ofNat)) := by
    decide +kernel
  rw [hok] at hkey
  exact ⟨dest, largest, hok, by rwa [hlength] at hle, Except.ok.inj hkey⟩

/-- The text "dfcmweb1f2eang". -/
def emptyMwebAddress : Bytes :=
  ['d', 'f', 'c', 'm', 'w', 'e', 'b', '1', 'f', '2', 'e', 'a', 'n', 'g'].map Char.toUInt8

theorem emptyData_emptyMwebAddress : EmptyData Chain.main.params.mweb_hrp emptyMwebAddress where
  singleCase := by decide +kernel
  pos := by decide +kernel
  hrp_ne := by decide
  length := by decide
  hrp_eq := by decide +kernel
  checksum := ⟨[9, 10, 25, 29, 19, 8], by decide +kernel, by decide +kernel⟩

/-- With a terabyte to give, this text of fourteen characters is too much. -/
theorem decodeDestination_emptyMwebAddress :
    ∃ e, decodeDestination (2 ^ 40) (fun _ => []) Chain.main.params emptyMwebAddress 0 = .error e := by
  have hbound : Servable (2 ^ 40) (2 ^ 40) := ⟨by decide, by decide⟩
  exact fails_decodeDestination_of_emptyData _ hbound (by decide) (base58Fits_of_length (by decide))
    (length_mweb_hrp_le .main) emptyData_emptyMwebAddress 0 (Nat.zero_le _)

end Safety

end Defcoin.Address
