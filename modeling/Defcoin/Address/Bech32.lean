import Defcoin.Framework.ByteCodec
import Defcoin.Framework.Requests
import Mathlib.Data.List.GetD

/-! # Bech32

  `bech32::Decode` splits a text at its last '1' into a human-readable part and values of five bits,
  of which the last six are a checksum. A text may have nothing but the checksum after the '1'.
-/

namespace Defcoin.Address.Bech32

open ByteCodec Requests List

/-! ### Decoding -/

/-- `Encoding` -/
inductive Encoding where
  | INVALID | BECH32 | BECH32M
  deriving DecidableEq

/-- `DecodeResult` -/
structure DecodeResult where
  encoding : Encoding
  hrp : Bytes
  data : List UInt8
  deriving DecidableEq

/-- `DecodeResult()` -/
def DecodeResult.invalid : DecodeResult := ⟨.INVALID, [], []⟩

/-- `CHARSET_REV` -/
def charsetRev : List Int :=
  [-1, -1, -1, -1, -1, -1, -1, -1, -1, -1, -1, -1, -1, -1, -1, -1,
   -1, -1, -1, -1, -1, -1, -1, -1, -1, -1, -1, -1, -1, -1, -1, -1,
   -1, -1, -1, -1, -1, -1, -1, -1, -1, -1, -1, -1, -1, -1, -1, -1,
   15, -1, 10, 17, 21, 20, 26, 30, 7, 5, -1, -1, -1, -1, -1, -1,
   -1, 29, -1, 24, 13, 25, 9, 8, 23, -1, 18, 22, 31, 27, 19, -1,
   1, 0, 3, 16, 11, 28, 12, 14, 6, 4, 2, -1, -1, -1, -1, -1,
   -1, 29, -1, 24, 13, 25, 9, 8, 23, -1, 18, 22, 31, 27, 19, -1,
   1, 0, 3, 16, 11, 28, 12, 14, 6, 4, 2, -1, -1, -1, -1, -1]

def charsetValue (c : UInt8) : Option UInt8 :=
  let rev := charsetRev.getD c.toNat (-1)
  if rev = -1 then none else some (UInt8.ofNat rev.toNat)

/-- The loop over the characters that finds lower and upper case, and stops at a character that is
    not printable. -/
def checkCase : Bytes → Bool → Bool → Option (Bool × Bool)
  | [], lower, upper => some (lower, upper)
  | c :: str, lower, upper =>
    if 0x61 ≤ c ∧ c ≤ 0x7a then checkCase str true upper
    else if 0x41 ≤ c ∧ c ≤ 0x5a then checkCase str lower true
    else if c < 33 ∨ 126 < c then none
    else checkCase str lower upper

def singleCase (str : Bytes) : Bool :=
  match checkCase str false false with
  | none => false
  | some (lower, upper) => !(lower && upper)

/-- `std::string::rfind` -/
def rfind (c : UInt8) : Bytes → Option Nat
  | [] => none
  | x :: str =>
    match rfind c str with
    | some pos => some (pos + 1)
    | none => if x = c then some 0 else none

/-- `LowerCase` -/
def lowerCase (c : UInt8) : UInt8 := if 0x41 ≤ c ∧ c ≤ 0x5a then (c - 0x41) + 0x61 else c

/-- One round of `PolyMod`. -/
def polyRound (c : UInt32) (v_i : UInt8) : UInt32 :=
  let c0 := (c >>> 25).toUInt8
  let c := ((c &&& 0x1ffffff) <<< 5) ^^^ v_i.toUInt32
  let c := if c0 &&& 1 ≠ 0 then c ^^^ 0x3b6a57b2 else c
  let c := if c0 &&& 2 ≠ 0 then c ^^^ 0x26508e6d else c
  let c := if c0 &&& 4 ≠ 0 then c ^^^ 0x1ea119fa else c
  let c := if c0 &&& 8 ≠ 0 then c ^^^ 0x3d4233dd else c
  if c0 &&& 16 ≠ 0 then c ^^^ 0x2a1462b3 else c

/-- `PolyMod` -/
def polyMod (v : List UInt8) : UInt32 := v.foldl polyRound 1

/-- What `ExpandHRP` returns. -/
def expandedHRP (hrp : Bytes) : List UInt8 :=
  hrp.map (fun c => c >>> (5 : UInt8)) ++ 0 :: hrp.map (fun c => c &&& (0x1f : UInt8))

section
variable (available : Nat)

/-- `ExpandHRP` -/
def expandHRP (hrp : Bytes) : Alloc (List UInt8) := do
  request available (hrp.length + 90)
  request available (hrp.length * 2 + 1)
  pure (expandedHRP hrp)

/-- `Cat` -/
def cat (v1 v2 : List UInt8) : Alloc (List UInt8) := do
  request available (v1.length + v2.length)
  pure (v1 ++ v2)

def encodingOf (check : UInt32) : Encoding :=
  if check = 1 then .BECH32 else if check = 0x2bc830a3 then .BECH32M else .INVALID

/-- `VerifyChecksum` -/
def verifyChecksum (hrp : Bytes) (values : List UInt8) : Alloc Encoding := do
  let expanded ← expandHRP available hrp
  let v ← cat available expanded values
  pure (encodingOf (polyMod v))

/-- The loop that looks up the characters after the separator. -/
def decodeValues : Bytes → Alloc (Option (List UInt8))
  | [] => pure (some [])
  | c :: str => do
    insist (c.toNat < charsetRev.length) (.outOfBounds "CHARSET_REV")
    match charsetValue c with
    | none => pure none
    | some v => do
      let values ← decodeValues str
      pure (values.map (v :: ·))

/-- What `Decode` returns for a human-readable part and the values after it. -/
def finishDecode (hrp : Bytes) : Option (List UInt8) → Alloc DecodeResult
  | none => pure .invalid
  | some values => do
    -- `hrp` is appended to by the character, its capacity at most doubles
    request available (2 * hrp.length)
    let result ← verifyChecksum available hrp values
    if result = .INVALID then pure .invalid
    else do
      insist (6 ≤ values.length) (.outOfBounds "values.end() - 6")
      request available (values.length - 6)
      pure ⟨result, hrp, values.take (values.length - 6)⟩

/-- `Decode` -/
def decode (str : Bytes) (ext_length : Bool) : Alloc DecodeResult :=
  if singleCase str = false then pure .invalid
  else
    match rfind 0x31 str with
    | none => pure .invalid
    | some pos =>
      if (str.length > 90 ∧ ext_length = false) ∨ pos = 0 ∨ pos + 7 > str.length then pure .invalid
      else do
        request available (str.length - 1 - pos)
        let values ← decodeValues (str.drop (pos + 1))
        finishDecode available ((str.take pos).map lowerCase) values

end

/-! ### Safety -/

theorem length_charsetRev : charsetRev.length = 128 := by decide +kernel

theorem checkCase_le {str : Bytes} {lower upper : Bool} {r : Bool × Bool}
    (h : checkCase str lower upper = some r) : ∀ c ∈ str, c ≤ 126 := by
  induction str generalizing lower upper with
  | nil => simp
  | cons c str ih =>
    rw [checkCase] at h
    rw [forall_mem_cons]
    split_ifs at h with hlower hupper hprint
    · have hle : 0x7a ≤ 126 := by decide
      exact ⟨UInt8.le_trans hlower.2 hle, ih h⟩
    · have hle : 0x5a ≤ 126 := by decide
      exact ⟨UInt8.le_trans hupper.2 hle, ih h⟩
    · rw [not_or] at hprint
      exact ⟨UInt8.not_lt.mp hprint.2, ih h⟩

theorem le_of_singleCase {str : Bytes} (h : singleCase str = true) : ∀ c ∈ str, c ≤ 126 := by
  unfold singleCase at h
  split at h
  · cases h
  · next hcase => exact checkCase_le hcase

/-- The text has, in one case and with a valid BECH32 checksum, this human-readable part and no
    data. -/
structure EmptyData (hrp str : Bytes) : Prop where
  singleCase : singleCase str = true
  pos : rfind 0x31 str = some hrp.length
  hrp_ne : hrp ≠ []
  length : str.length = hrp.length + 7
  hrp_eq : (str.take hrp.length).map lowerCase = hrp
  checksum : ∃ values, (str.drop (hrp.length + 1)).mapM charsetValue = some values ∧
    polyMod (expandedHRP hrp ++ values) = 1

section Safety
variable {available bound : Nat} {hrp str : Bytes} {values : List UInt8} {ext_length : Bool}

theorem safe_decodeValues (h : ∀ c ∈ str, c ≤ 126) :
    Safe bound (decodeValues str) fun r => r = str.mapM charsetValue := by
  induction str with
  | nil => exact Safe.pure rfl
  | cons c str ih =>
    rw [forall_mem_cons] at h
    have hc : c.toNat ≤ 126 := UInt8.le_iff_toNat_le.mp h.1
    have hrange : c.toNat < charsetRev.length := by
      rw [length_charsetRev]
      omega
    apply (safe_insist hrange).bind
    intro _ _
    rw [mapM_cons]
    split
    · next hvalue => exact Safe.pure (by rw [hvalue]; rfl)
    · next v hvalue =>
      apply (ih h.2).bind
      intro values hvalues
      apply Safe.pure
      rw [hvalue, hvalues]
      cases str.mapM charsetValue with
      | none => rfl
      | some values => rfl

theorem length_of_mapM_charsetValue (h : str.mapM charsetValue = some values) : values.length = str.length := by
  induction str generalizing values with
  | nil =>
    cases h
    rfl
  | cons c str ih =>
    rw [mapM_cons] at h
    obtain ⟨_, -, h⟩ := Option.bind_eq_some_iff.mp h
    obtain ⟨_, hvs, h⟩ := Option.bind_eq_some_iff.mp h
    cases h
    rw [length_cons, length_cons, ih hvs]

theorem encodingOf_eq_bech32 {check : UInt32} : encodingOf check = .BECH32 ↔ check = 1 := by
  unfold encodingOf
  split_ifs with h h' <;> simp [h]

variable (hbound : Servable available bound)
include hbound

theorem safe_verifyChecksum (hle : 2 * hrp.length + values.length + 90 ≤ bound) :
    Safe bound (verifyChecksum available hrp values) fun r => r = encodingOf (polyMod (expandedHRP hrp ++ values)) := by
  have hlength : (expandedHRP hrp).length = hrp.length * 2 + 1 := by
    rw [expandedHRP, length_append, length_cons, length_map, length_map]
    omega
  have hexpand : Safe bound (expandHRP available hrp) fun r => r = expandedHRP hrp := by
    apply (safe_request hbound (by omega)).bind
    intro _ _
    apply (safe_request hbound (by omega)).bind
    intro _ _
    exact Safe.pure rfl
  have hcat : Safe bound (cat available (expandedHRP hrp) values) fun r => r = expandedHRP hrp ++ values := by
    apply (safe_request hbound (by omega)).bind
    intro _ _
    exact Safe.pure rfl
  apply hexpand.bind
  intro _ hexpanded
  rw [hexpanded]
  apply hcat.bind
  intro _ hv
  rw [hv]
  exact Safe.pure rfl

theorem safe_finishDecode (hsix : 6 ≤ values.length)
    (hle : 2 * hrp.length + values.length + 90 ≤ bound) :
    Safe bound (finishDecode available hrp (some values)) fun r => r.data.length ≤ values.length ∧
      ∀ hrp', r = ⟨.BECH32, hrp', []⟩ ↔
        hrp = hrp' ∧ values.length = 6 ∧ polyMod (expandedHRP hrp ++ values) = 1 := by
  apply (safe_request hbound (by omega)).bind
  intro _ _
  apply (safe_verifyChecksum hbound hle).bind
  intro result hresult
  split
  · next hinvalid =>
    apply Safe.pure
    refine ⟨Nat.zero_le _, fun hrp' => ⟨fun h => (by cases h), fun h => ?_⟩⟩
    rw [encodingOf_eq_bech32.mpr h.2.2] at hresult
    rw [hresult] at hinvalid
    cases hinvalid
  · apply (safe_insist hsix).bind
    intro _ _
    apply (safe_request hbound (by omega)).bind
    intro _ _
    apply Safe.pure
    refine ⟨by rw [length_take]; omega, fun hrp' => ?_⟩
    rw [DecodeResult.mk.injEq, hresult, encodingOf_eq_bech32, ← length_eq_zero_iff, length_take]
    constructor
    · intro h
      exact ⟨h.2.1, by omega, h.1⟩
    · intro h
      exact ⟨h.2.2, h.1, by omega⟩

/-- **Bech32**: decoding is safe, and the data is empty for the texts of `EmptyData` only. -/
theorem safe_decode (hle : 3 * str.length + 90 ≤ bound) :
    Safe bound (decode available str ext_length) fun r => r.data.length ≤ str.length ∧
      ((str.length ≤ 90 ∨ ext_length = true) → ∀ hrp, r = ⟨.BECH32, hrp, []⟩ ↔ EmptyData hrp str) := by
  unfold decode
  split
  · next hcase =>
    -- a text that fails a check is not one of those with empty data
    apply Safe.pure
    refine ⟨Nat.zero_le _, fun _ hrp => ⟨fun h => (by cases h), fun h => ?_⟩⟩
    rw [h.singleCase] at hcase
    cases hcase
  · next hcase =>
    have hcase : singleCase str = true := by simpa using hcase
    split
    · next hpos =>
      apply Safe.pure
      refine ⟨Nat.zero_le _, fun _ hrp => ⟨fun h => (by cases h), fun h => ?_⟩⟩
      rw [h.pos] at hpos
      cases hpos
    · next pos hpos =>
      split
      · next hbad =>
        apply Safe.pure
        refine ⟨Nat.zero_le _, fun hext hrp => ⟨fun h => (by cases h), fun h => ?_⟩⟩
        have hlength := h.length
        have hne := length_pos_iff.mpr h.hrp_ne
        rw [h.pos] at hpos
        cases hpos
        rcases hbad with ⟨hlong, hshort⟩ | hzero | hend
        · rcases hext with hext | hext
          · omega
          · rw [hext] at hshort
            cases hshort
        · omega
        · omega
      · next hgood =>
        apply (safe_request hbound (by omega)).bind
        intro _ _
        apply (safe_decodeValues fun c hc => le_of_singleCase hcase c (mem_of_mem_drop hc)).bind
        intro r hr
        cases hvalues : (str.drop (pos + 1)).mapM charsetValue with
        | none =>
          rw [hr, hvalues]
          apply Safe.pure
          refine ⟨Nat.zero_le _, fun _ hrp => ⟨fun h => (by cases h), fun h => ?_⟩⟩
          rw [h.pos] at hpos
          cases hpos
          obtain ⟨values, hsome, -⟩ := h.checksum
          rw [hvalues] at hsome
          cases hsome
        | some values =>
          rw [hr, hvalues]
          have hlength := length_of_mapM_charsetValue hvalues
          rw [length_drop] at hlength
          have hhrp : ((str.take pos).map lowerCase).length = pos := by
            rw [length_map, length_take]
            omega
          apply (safe_finishDecode hbound (by omega) (by omega)).mono
          rintro r ⟨hdata, hiff⟩
          refine ⟨by omega, fun _ hrp => ?_⟩
          rw [hiff]
          constructor
          · rintro ⟨rfl, hsix, hchecksum⟩
            refine ⟨hcase, by rw [hhrp]; exact hpos, ?_, by omega, by rw [hhrp], values, ?_, hchecksum⟩
            · rw [← length_pos_iff]
              omega
            · rw [hhrp]
              exact hvalues
          · intro h
            have hposEq := h.pos
            rw [hpos] at hposEq
            cases hposEq
            obtain ⟨_, hvalues', hchecksum⟩ := h.checksum
            rw [hvalues] at hvalues'
            cases hvalues'
            have := h.length
            rw [h.hrp_eq]
            exact ⟨rfl, by omega, hchecksum⟩

end Safety

end Defcoin.Address.Bech32
