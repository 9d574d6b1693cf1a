import Defcoin.Primitives
import Defcoin.Serialize

/-! # Compact serialisation of outputs

  `compressor.cpp`: amounts lose their trailing zeros, and the three common kinds of scripts are
  stored by their hash or key. An output whose amount is in range and whose script is not overlong
  is read back exactly as it was written.
-/

namespace Defcoin

open ByteCodec UInt8 Option

/-! ### Amounts -/

/-- The loop of `CompressAmount`: divide by ten while that is exact, at most `left` more times; the
    result is the quotient and the number of divisions. -/
def stripTens : (left : Nat) → Nat → Nat × Nat
  | 0, n => (n, 0)
  | left + 1, n =>
    if n % 10 = 0 then ((stripTens left (n / 10)).1, (stripTens left (n / 10)).2 + 1) else (n, 0)

/-- `CompressAmount` on `uint64_t`. -/
def compressAmount (nAmount : Nat) : Nat :=
  if nAmount = 0 then 0
  else
    let n := (stripTens 9 nAmount).1
    let e := (stripTens 9 nAmount).2
    if e < 9 then (1 + (n / 10 * 9 + n % 10 - 1) * 10 + e) % 2 ^ 64
    else (1 + (n - 1) * 10 + 9) % 2 ^ 64

/-- `DecompressAmount` on `uint64_t`. -/
def decompressAmount (x : Nat) : Nat :=
  if x = 0 then 0
  else
    let e := (x - 1) % 10
    let y := (x - 1) / 10
    let n := if e < 9 then y / 9 * 10 + (y % 9 + 1) else y + 1
    n * 10 ^ e % 2 ^ 64

theorem stripTens_spec (left n : Nat) :
    n = (stripTens left n).1 * 10 ^ (stripTens left n).2 ∧ (stripTens left n).2 ≤ left ∧
      ((stripTens left n).2 < left → (stripTens left n).1 % 10 ≠ 0) := by
  induction left generalizing n with
  | zero => simp [stripTens]
  | succ left ih =>
    unfold stripTens
    split
    · next h =>
      obtain ⟨heq, hle, hmod⟩ := ih (n / 10)
      refine ⟨?_, by simpa using hle, by simpa using hmod⟩
      have hn : n = n / 10 * 10 := by omega
      rw [pow_succ, ← mul_assoc, ← heq]
      exact hn
    · next h => simpa using h

theorem decompressAmount_compressAmount {n : Nat} (hn : (n : Int) ≤ maxMoney) :
    decompressAmount (compressAmount n) = n := by
  have hbound : n < 2 ^ 53 := by
    simp only [maxMoney, coinUnit] at hn
    omega
  obtain ⟨heq, hle, hmod⟩ := stripTens_spec 9 n
  unfold compressAmount
  split
  · next h => simp [decompressAmount, h]
  · next h =>
    generalize (stripTens 9 n).1 = m at *
    generalize (stripTens 9 n).2 = e at *
    have hm : m ≤ n := by
      rw [heq]
      exact Nat.le_mul_of_pos_right m (Nat.pow_pos (by decide))
    have hfin : m * 10 ^ e % 2 ^ 64 = n := by
      rw [← heq]
      exact Nat.mod_eq_of_lt (by omega)
    -- with fewer than nine zeros stripped, the last digit is not zero
    by_cases he : e < 9
    · simp only [he, if_true]
      rw [Nat.mod_eq_of_lt (by omega)]
      unfold decompressAmount
      rw [if_neg (by omega)]
      have he' : (1 + (m / 10 * 9 + m % 10 - 1) * 10 + e - 1) % 10 = e := by omega
      have hy : (1 + (m / 10 * 9 + m % 10 - 1) * 10 + e - 1) / 10 = m / 10 * 9 + m % 10 - 1 := by
        omega
      simp only [he', hy, he, if_true]
      have hm' : (m / 10 * 9 + m % 10 - 1) / 9 * 10 + ((m / 10 * 9 + m % 10 - 1) % 9 + 1) = m := by
        omega
      rw [hm', hfin]
    · obtain rfl : e = 9 := by omega
      simp only [he, if_false]
      rw [Nat.mod_eq_of_lt (by omega)]
      unfold decompressAmount
      rw [if_neg (by omega)]
      have he' : (1 + (m - 1) * 10 + 9 - 1) % 10 = 9 := by omega
      have hy : (1 + (m - 1) * 10 + 9 - 1) / 10 = m - 1 := by omega
      simp only [he', hy, lt_irrefl, if_false]
      have hm' : m - 1 + 1 = m := by omega
      rw [hm', hfin]

theorem compressAmount_lt (n : Nat) : compressAmount n < 2 ^ 64 := by
  unfold compressAmount
  split
  · decide
  · dsimp only
    split <;> exact Nat.mod_lt _ (by decide)

/-- `AmountCompression::Ser`: a `CAmount` is converted to `uint64_t` first. -/
def serAmount (val : Int) : Bytes := writeVarInt 64 (compressAmount (val % 2 ^ 64).toNat)

/-- The `int64_t` with the bits of a `uint64_t`. -/
def toInt64 (v : Nat) : Int := if v < 2 ^ 63 then v else (v : Int) - 2 ^ 64

/-- `AmountCompression::Unser` -/
def unserAmount : Reader Int := do
  let v ← readVarInt (2 ^ 64 - 1)
  pure (toInt64 (decompressAmount v))

theorem parses_amount {val : Int} (h : moneyRange val = true) :
    Parses unserAmount (serAmount val) val := by
  obtain ⟨h0, hmax⟩ := moneyRange_iff.mp h
  have hbound : val < 2 ^ 53 := by
    simp only [maxMoney, coinUnit] at hmax
    omega
  have hval : ((val % 2 ^ 64).toNat : Nat) = val := by omega
  have hlt := compressAmount_lt (val % 2 ^ 64).toNat
  have hread := parses_varInt 64 (2 ^ 64 - 1) (by decide) hlt (by omega)
  have hback : toInt64 (decompressAmount (compressAmount (val % 2 ^ 64).toNat)) = val := by
    rw [decompressAmount_compressAmount (by omega), toInt64, if_pos (by omega)]
    exact hval
  have := hread.map (fun v => toInt64 (decompressAmount v))
  rwa [hback] at this

/-! ### Scripts -/

/-- What the compressor needs of the elliptic curve library: the validity check of public keys, and the
    second coordinate of a key from its parity. -/
structure PubKeyCurve where
  /-- `CPubKey::IsFullyValid` -/
  isFullyValid : Bytes → Bool
  /-- `CPubKey::Decompress` of a 33-byte key. -/
  decompress : Bytes → Option Bytes
  /-- A valid uncompressed key is recovered from its first coordinate and parity. -/
  decompress_compressed : ∀ (y : UInt8) (key : Bytes), key.length = 65 → key.head? = some 0x04 →
    key.getLast? = some y → isFullyValid key = true →
    decompress ((0x02 ||| (y &&& 0x01)) :: (key.drop 1).take 32) = some key

/-- A curve library that knows no valid uncompressed key. -/
def PubKeyCurve.none : PubKeyCurve where
  isFullyValid _ := false
  decompress _ := Option.none
  decompress_compressed := by simp

/-- Opcodes of the special scripts. -/
def opDup : UInt8 := 0x76
def opHash160 : UInt8 := 0xa9
def opEqualVerify : UInt8 := 0x88
def opCheckSig : UInt8 := 0xac
def opEqual : UInt8 := 0x87

/-- A script of `size` bytes that begins with `front` and ends with `back`; the answer is what
    stands between. -/
def scriptBetween (front back : Bytes) (size : Nat) (script : CScript) : Option Bytes :=
  if script.length = front.length + size + back.length ∧ script.take front.length = front ∧
      script.drop (front.length + size) = back
  then some ((script.drop front.length).take size)
  else none

/-- `IsToKeyID` -/
def isToKeyID (script : CScript) : Option Bytes :=
  scriptBetween [opDup, opHash160, 20] [opEqualVerify, opCheckSig] 20 script

/-- `IsToScriptID` -/
def isToScriptID (script : CScript) : Option Bytes :=
  scriptBetween [opHash160, 20] [opEqual] 20 script

section
variable (curve : PubKeyCurve)

/-- `IsToPubKey` -/
def isToPubKey (script : CScript) : Option Bytes :=
  match scriptBetween [33] [opCheckSig] 33 script with
  | some pubkey =>
    if pubkey.head? = some 0x02 ∨ pubkey.head? = some 0x03 then some pubkey else none
  | none =>
    match scriptBetween [65] [opCheckSig] 65 script with
    | some pubkey =>
      if pubkey.head? = some 0x04 ∧ curve.isFullyValid pubkey then some pubkey else none
    | none => none

/-- The bytes `CompressScript` makes of a public key. -/
def compressPubKey (pubkey : Bytes) : Option Bytes :=
  if pubkey.head? = some 0x02 ∨ pubkey.head? = some 0x03 then
    some (pubkey.take 1 ++ (pubkey.drop 1).take 32)
  else if pubkey.head? = some 0x04 then
    some ((0x04 ||| (pubkey.getLast?.getD 0 &&& 0x01)) :: (pubkey.drop 1).take 32)
  else none

/-- `CompressScript` -/
def compressScript (script : CScript) : Option Bytes :=
  match isToKeyID script with
  | some keyID => some (0x00 :: keyID)
  | none =>
    match isToScriptID script with
    | some scriptID => some (0x01 :: scriptID)
    | none => (isToPubKey curve script).bind compressPubKey

/-- `GetSpecialScriptSize` -/
def getSpecialScriptSize (nSize : Nat) : Nat :=
  if nSize = 0 ∨ nSize = 1 then 20
  else if nSize = 2 ∨ nSize = 3 ∨ nSize = 4 ∨ nSize = 5 then 32
  else 0

/-- `DecompressScript`; a key that cannot be recovered leaves the script empty. -/
def decompressScript (nSize : Nat) (vch : Bytes) : CScript :=
  match nSize with
  | 0x00 => [opDup, opHash160, 20] ++ vch ++ [opEqualVerify, opCheckSig]
  | 0x01 => [opHash160, 20] ++ vch ++ [opEqual]
  | 0x02 => [33, 0x02] ++ vch ++ [opCheckSig]
  | 0x03 => [33, 0x03] ++ vch ++ [opCheckSig]
  | 0x04 | 0x05 =>
    match curve.decompress (UInt8.ofNat (nSize - 2) :: vch) with
    | some pubkey => [65] ++ pubkey ++ [opCheckSig]
    | none => []
  | _ => []

/-- `ScriptCompression::nSpecialScripts` -/
def nSpecialScripts : Nat := 6

/-- `ScriptCompression::Ser` -/
def serScript (script : CScript) : Bytes :=
  match compressScript curve script with
  | some compr => compr
  | none => writeVarInt 32 (script.length + nSpecialScripts) ++ script

/-- `ScriptCompression::Unser` -/
def unserScript : Reader CScript := do
  let nSize ← readVarInt (2 ^ 32 - 1)
  if nSize < nSpecialScripts then
    let vch ← readBytes (getSpecialScriptSize nSize)
    pure (decompressScript curve nSize vch)
  else if nSize - nSpecialScripts > maxScriptSize then
    -- an overlong script is replaced by a short invalid one
    let _ ← readBytes (nSize - nSpecialScripts)
    pure [opReturn]
  else readBytes (nSize - nSpecialScripts)

end

variable {compr pubkey : Bytes} {code : Nat} {script : CScript} (curve : PubKeyCurve)

theorem scriptBetween_eq_some {front back : Bytes} {size : Nat} {mid : Bytes}
    (h : scriptBetween front back size script = some mid) :
    script = front ++ mid ++ back ∧ mid.length = size := by
  unfold scriptBetween at h
  split at h
  · next hcond =>
    obtain ⟨hlen, hfront, hback⟩ := hcond
    obtain rfl := some.inj h
    refine ⟨?_, by simp; omega⟩
    conv_lhs => rw [← List.take_append_drop front.length script,
      ← List.take_append_drop size (script.drop front.length), List.drop_drop, hfront, hback]
    rw [List.append_assoc]
  · cases h

theorem parses_special {vch : Bytes} (hcode : code < nSpecialScripts)
    (hvch : vch.length = getSpecialScriptSize code) :
    Parses (unserScript curve) (ofNat code :: vch) (decompressScript curve code vch) := by
  have hspecial : nSpecialScripts = 6 := rfl
  have hbyte : writeVarInt 32 code = [ofNat code] := by
    have hmod : code % 128 = code := by omega
    have hsmall : code ≤ 0x7F := by omega
    simp [writeVarInt, varIntTmp, hmod, hsmall]
  have hread := parses_varInt 32 (2 ^ 32 - 1) (n := code) (by decide) (by omega) (by omega)
  rw [hbyte] at hread
  have htail : Parses (if code < nSpecialScripts then do
        let vch ← readBytes (getSpecialScriptSize code)
        pure (decompressScript curve code vch)
      else if code - nSpecialScripts > maxScriptSize then do
        let _ ← readBytes (code - nSpecialScripts)
        pure [opReturn]
      else readBytes (code - nSpecialScripts)) vch (decompressScript curve code vch) := by
    rw [if_pos hcode]
    exact (parses_bytes hvch).map (decompressScript curve code)
  exact hread.bind htail

theorem and_one_cases (y : UInt8) : y &&& 0x01 = 0 ∨ y &&& 0x01 = 1 := by
  have h : (y &&& 0x01).toNat = y.toNat % 2 := by
    exact Nat.and_one_is_mod y.toNat
  rcases Nat.mod_two_eq_zero_or_one y.toNat with h' | h'
  · exact .inl (UInt8.toNat_inj.mp (h.trans h'))
  · exact .inr (UInt8.toNat_inj.mp (h.trans h'))

/-- What the compressor stores of a script is enough to rebuild it. -/
def Rebuilds (curve : PubKeyCurve) (compr : Bytes) (script : CScript) : Prop :=
  ∃ code vch, compr = UInt8.ofNat code :: vch ∧ code < 6 ∧
    vch.length = getSpecialScriptSize code ∧ decompressScript curve code vch = script

theorem rebuilds_compressedKey {c : UInt8} (hcode : code = 2 ∨ code = 3) (hc : c = ofNat code)
    (hscript : script = [33] ++ pubkey ++ [opCheckSig]) (hlen : pubkey.length = 33)
    (hhead : pubkey.head? = some c) :
    Rebuilds curve (pubkey.take 1 ++ (pubkey.drop 1).take 32) script := by
  subst hc
  cases pubkey with
  | nil => cases hhead
  | cons c' vch =>
    obtain rfl := some.inj hhead
    have hvch : vch.length = 32 := by simpa using hlen
    have htake : vch.take 32 = vch := by rw [← hvch, List.take_length]
    refine ⟨code, vch, by simp [htake], by omega, ?_, ?_⟩
    · rcases hcode with rfl | rfl <;> simpa [getSpecialScriptSize] using hvch
    · rw [hscript]
      rcases hcode with rfl | rfl <;> simp [decompressScript]

theorem rebuilds_uncompressedKey (hscript : script = [65] ++ pubkey ++ [opCheckSig])
    (hlen : pubkey.length = 65) (hhead : pubkey.head? = some 0x04) (hvalid : curve.isFullyValid pubkey = true) :
    Rebuilds curve ((0x04 ||| (pubkey.getLast?.getD 0 &&& 0x01)) :: (pubkey.drop 1).take 32)
      script := by
  have hne : pubkey ≠ [] := by
    rintro rfl
    simp at hlen
  obtain ⟨y, hy⟩ : ∃ y, pubkey.getLast? = some y := ⟨_, List.getLast?_eq_some_getLast hne⟩
  have hdec := curve.decompress_compressed y pubkey hlen hhead hy hvalid
  have hvch : ((pubkey.drop 1).take 32).length = 32 := by simp [hlen]
  rw [hy, getD_some]
  -- the low bit of the second coordinate selects code 4 or 5
  rcases and_one_cases y with hbit | hbit
  · rw [hbit] at hdec ⊢
    exact ⟨4, _, rfl, by decide, by simpa [getSpecialScriptSize] using hvch, by
      rw [hscript]
      simp only [decompressScript]
      rw [show ofNat (4 - 2) = 0x02 ||| 0 from rfl, hdec]⟩
  · rw [hbit] at hdec ⊢
    exact ⟨5, _, rfl, by decide, by simpa [getSpecialScriptSize] using hvch, by
      rw [hscript]
      simp only [decompressScript]
      rw [show ofNat (5 - 2) = 0x02 ||| 1 from rfl, hdec]⟩

theorem rebuilds_pubKey (h : (isToPubKey curve script).bind compressPubKey = some compr) :
    Rebuilds curve compr script := by
  obtain ⟨_, hkey, hcompr⟩ := bind_eq_some_iff.mp h
  unfold isToPubKey at hkey
  split at hkey
  · next key hbetween =>
    obtain ⟨hscript, hlen⟩ := scriptBetween_eq_some hbetween
    split at hkey
    · next hhead =>
      obtain rfl := some.inj hkey
      rw [compressPubKey, if_pos hhead] at hcompr
      obtain rfl := some.inj hcompr
      rcases hhead with hhead | hhead
      · exact rebuilds_compressedKey curve (.inl rfl) rfl hscript hlen hhead
      · exact rebuilds_compressedKey curve (.inr rfl) rfl hscript hlen hhead
    · cases hkey
  · split at hkey
    · next key hbetween =>
      obtain ⟨hscript, hlen⟩ := scriptBetween_eq_some hbetween
      split at hkey
      · next hcond =>
        obtain rfl := some.inj hkey
        rw [compressPubKey, if_neg (by simp [hcond.1]), if_pos hcond.1] at hcompr
        obtain rfl := some.inj hcompr
        exact rebuilds_uncompressedKey curve hscript hlen hcond.1 hcond.2
      · cases hkey
    · cases hkey

theorem rebuilds_compressScript (h : compressScript curve script = some compr) :
    Rebuilds curve compr script := by
  unfold compressScript at h
  split at h
  · next keyID hid =>
    obtain rfl := some.inj h
    obtain ⟨hscript, hlen⟩ := scriptBetween_eq_some hid
    exact ⟨0, keyID, rfl, by decide, hlen, hscript.symm⟩
  · split at h
    · next scriptID hid =>
      obtain rfl := some.inj h
      obtain ⟨hscript, hlen⟩ := scriptBetween_eq_some hid
      exact ⟨1, scriptID, rfl, by decide, hlen, hscript.symm⟩
    · exact rebuilds_pubKey curve h

theorem parses_script (hlen : script.length ≤ maxScriptSize) :
    Parses (unserScript curve) (serScript curve script) script := by
  unfold serScript
  split
  · next compr hcompr =>
    obtain ⟨_, _, rfl, hcode, hvch, hdec⟩ := rebuilds_compressScript curve hcompr
    rw [← hdec]
    exact parses_special curve hcode hvch
  · have hmax : maxScriptSize = 10000 := rfl
    have hspecial : nSpecialScripts = 6 := rfl
    have hread := parses_varInt 32 (2 ^ 32 - 1) (n := script.length + nSpecialScripts)
      (by decide) (by omega) (by omega)
    refine hread.bind ?_
    rw [if_neg (by omega), if_neg (by omega)]
    exact parses_bytes rfl

/-- `TxOutCompression` -/
def serTxOut (curve : PubKeyCurve) (out : CTxOut) : Bytes :=
  serAmount out.nValue ++ serScript curve out.scriptPubKey

def unserTxOut (curve : PubKeyCurve) : Reader CTxOut := do
  let nValue ← unserAmount
  let scriptPubKey ← unserScript curve
  pure { nValue := nValue, scriptPubKey := scriptPubKey }

theorem parses_txOut {out : CTxOut} (hvalue : moneyRange out.nValue = true)
    (hlen : out.scriptPubKey.length ≤ maxScriptSize) :
    Parses (unserTxOut curve) (serTxOut curve out) out :=
  (parses_amount hvalue).bind ((parses_script curve hlen).map (CTxOut.mk out.nValue))

/-! ### Coins -/

/-- `Coin::Serialize`, which a spent coin aborts. -/
def Coin.serialize (curve : PubKeyCurve) (c : Coin) : Option Bytes :=
  let code := (c.nHeight.toNat * 2 + c.fCoinBase.toNat + if c.fPegout then 2 ^ 31 else 0) % 2 ^ 32
  if c.isSpent then none else some (writeVarInt 32 code ++ serTxOut curve c.out)

/-- `Coin::Unserialize` -/
def Coin.unserialize (curve : PubKeyCurve) : Reader Coin := do
  let code ← readVarInt (2 ^ 32 - 1)
  let out ← unserTxOut curve
  pure { out := out, fCoinBase := code % 2 == 1, nHeight := BitVec.ofNat 31 (code % 2 ^ 31 / 2)
         fPegout := code / 2 ^ 31 != 0 }

/-- **Coins round trip** below height 2^30, where the pegout flag has its bit alone. -/
theorem coin_roundtrip {c : Coin} (hunspent : c.isSpent = false) (hvalue : moneyRange c.out.nValue = true)
    (hlen : c.out.scriptPubKey.length ≤ maxScriptSize) (hheight : c.nHeight.toNat < 2 ^ 30) :
    ∃ bs, c.serialize curve = some bs ∧ Parses (Coin.unserialize curve) bs c := by
  obtain ⟨out, fCoinBase, nHeight, fPegout⟩ := c
  rw [Coin.serialize, hunspent]
  refine ⟨_, rfl, ?_⟩
  generalize hcode : _ % 2 ^ 32 = code
  have hflags : code % 2 ^ 31 / 2 = nHeight.toNat ∧ (code % 2 == 1) = fCoinBase ∧
      (code / 2 ^ 31 != 0) = fPegout := by
    cases fCoinBase <;> cases fPegout <;> simp at hcode hheight ⊢ <;> omega
  have hout := (parses_txOut curve hvalue hlen).map fun out =>
    Coin.mk out (code % 2 == 1) (BitVec.ofNat 31 (code % 2 ^ 31 / 2)) (code / 2 ^ 31 != 0)
  refine (parses_varInt 32 _ (by decide) (by omega) (by omega)).bind ?_
  rw [hflags.1, hflags.2.1, hflags.2.2, BitVec.ofNat_toNat, BitVec.setWidth_eq] at hout ⊢
  exact hout

theorem coin_roundtrip_pegout : ∃ bs, Coin.serialize .none ⟨⟨5, [opReturn]⟩, true, 7, true⟩ = some bs ∧
    Parses (Coin.unserialize .none) bs ⟨⟨5, [opReturn]⟩, true, 7, true⟩ :=
  coin_roundtrip .none rfl rfl (by decide) (by decide)

end Defcoin
