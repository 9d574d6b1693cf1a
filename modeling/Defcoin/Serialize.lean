import Defcoin.Framework.ByteCodec

/-! # The wire formats of `serialize.h`

  Variable-length integers (`VARINT`), compact sizes and vectors, each with the theorem that reading
  returns what was written.
-/

namespace Defcoin

open ByteCodec List UInt8

/-- `MAX_SIZE`: the largest size `ReadCompactSize` accepts. -/
def maxSize : Nat := 0x02000000

/-! ### VARINT -/

/-- The array `tmp` that `WriteVarInt` fills, least significant digit first; `slots` is its size. -/
def varIntTmp : (slots : Nat) → (n : Nat) → (len : Bool) → Bytes
  | 0, _, _ => []
  | slots + 1, n, len =>
    UInt8.ofNat (n % 128 + if len then 0x80 else 0x00) ::
      if n ≤ 0x7F then [] else varIntTmp slots (n / 128 - 1) true

/-- `WriteVarInt` of an integer type with `bits` bits. -/
def writeVarInt (bits n : Nat) : Bytes := (varIntTmp ((bits + 6) / 7) n false).reverse

/-- `GetSizeOfVarInt` -/
def getSizeOfVarInt (n : Nat) : Nat :=
  if n ≤ 0x7F then 1 else getSizeOfVarInt (n / 128 - 1) + 1

/-- The loop of `ReadVarInt` with the number read so far, for an integer type whose largest value is
    `max`. -/
def readVarIntLoop (max : Nat) : Nat → Reader Nat
  | _, [] => .error "end of data"
  | n, chData :: is =>
    if n > max / 128 then .error "ReadVarInt(): size too large"
    else if chData.toNat ≥ 0x80 then
      if n * 128 + chData.toNat % 128 = max then .error "ReadVarInt(): size too large"
      else readVarIntLoop max (n * 128 + chData.toNat % 128 + 1) is
    else .ok (n * 128 + chData.toNat % 128, is)

/-- `ReadVarInt` -/
def readVarInt (max : Nat) : Reader Nat := readVarIntLoop max 0

variable {bits d max n : Nat}

theorem readVarIntLoop_more (is : Bytes) (hd : d < 128) (hn : n ≤ max / 128) (hmax : n * 128 + d < max) :
    readVarIntLoop max n (ofNat (d + 0x80) :: is) =
      readVarIntLoop max (n * 128 + d + 1) is := by
  have hb : (ofNat (d + 0x80)).toNat = d + 128 := by
    rw [toNat_ofNat']
    omega
  have hmod : (d + 128) % 128 = d := by omega
  rw [readVarIntLoop, hb, hmod, if_neg (by omega), if_pos (by omega), if_neg (by omega)]

theorem readVarIntLoop_last (max : Nat) (is : Bytes) (hd : d < 128) (hn : n ≤ max / 128) :
    readVarIntLoop max n (ofNat d :: is) = .ok (n * 128 + d, is) := by
  have hb : (ofNat d).toNat = d := by
    rw [toNat_ofNat']
    omega
  rw [readVarIntLoop, hb, Nat.mod_eq_of_lt hd, if_neg (by omega), if_neg (by omega)]

theorem varIntTmp_slots {s t : Nat} (hs : 0 < s) (ht : 0 < t) (n : Nat) (len : Bool)
    (hns : n < 128 ^ s) (hnt : n < 128 ^ t) : varIntTmp s n len = varIntTmp t n len := by
  induction s generalizing t n len with
  | zero => omega
  | succ s ih =>
    obtain ⟨t, rfl⟩ : ∃ t', t = t' + 1 := ⟨t - 1, by omega⟩
    rw [varIntTmp, varIntTmp]
    by_cases hsmall : n ≤ 0x7F
    · rw [if_pos hsmall, if_pos hsmall]
    · have hslot : ∀ {k : Nat}, n < 128 ^ (k + 1) → 0 < k ∧ n / 128 - 1 < 128 ^ k := by
        intro k hk
        refine ⟨?_, by omega⟩
        rcases Nat.eq_zero_or_pos k with rfl | hpos
        · omega
        · exact hpos
      obtain ⟨hs', hns'⟩ := hslot hns
      obtain ⟨ht', hnt'⟩ := hslot hnt
      rw [if_neg hsmall, if_neg hsmall, ih hs' ht' _ _ hns' hnt']

def varIntDigits (n : Nat) (len : Bool) : Bytes := varIntTmp (n + 1) n len

theorem varIntDigits_eq (n : Nat) (len : Bool) :
    varIntDigits n len = ofNat (n % 128 + if len then 0x80 else 0x00) ::
      if n ≤ 0x7F then [] else varIntDigits (n / 128 - 1) true := by
  rw [varIntDigits, varIntTmp]
  by_cases hsmall : n ≤ 0x7F
  · rw [if_pos hsmall, if_pos hsmall]
  · have hn : n / 128 - 1 < 128 ^ n :=
      Nat.lt_of_le_of_lt (by omega) (Nat.lt_pow_self (by decide))
    have hdiv : n / 128 - 1 < 128 ^ (n / 128 - 1 + 1) :=
      Nat.lt_trans (Nat.lt_succ_self _) (Nat.lt_pow_self (by decide))
    rw [if_neg hsmall, if_neg hsmall, varIntDigits, varIntTmp_slots (by omega) (by omega) _ _ hn hdiv]

theorem writeVarInt_eq_digits (hbits : 0 < bits) (hn : n < 2 ^ bits) :
    writeVarInt bits n = (varIntDigits n false).reverse := by
  have hbound : n < 128 ^ ((bits + 6) / 7) := by
    calc n < 2 ^ bits := hn
      _ ≤ 2 ^ (7 * ((bits + 6) / 7)) := Nat.pow_le_pow_right (by decide) (by omega)
      _ = 128 ^ ((bits + 6) / 7) := by rw [Nat.pow_mul]
  have hself : n < 128 ^ (n + 1) := Nat.lt_trans (Nat.lt_succ_self _) (Nat.lt_pow_self (by decide))
  rw [writeVarInt, varIntDigits, varIntTmp_slots (by omega) (by omega) n false hbound hself]

/-- The digits behind the number read so far, which is one more than they encode. -/
def varIntSeen : Nat → Bytes
  | 0 => []
  | m + 1 => (varIntDigits m true).reverse

theorem varIntDigits_reverse (n : Nat) (len : Bool) : (varIntDigits n len).reverse =
    varIntSeen (n / 128) ++ [ofNat (n % 128 + if len then 0x80 else 0x00)] := by
  rw [varIntDigits_eq, reverse_cons]
  by_cases hsmall : n ≤ 0x7F
  · rw [if_pos hsmall, Nat.div_eq_of_lt (by omega)]
    rfl
  · obtain ⟨m, hm⟩ : ∃ m, n / 128 = m + 1 := ⟨n / 128 - 1, by omega⟩
    rw [if_neg hsmall, hm]
    rfl

/-- The digits of `m` bring the loop to `m`, since one is subtracted from each. -/
theorem readVarIntLoop_seen (m : Nat) (is : Bytes) (hmax : m ≤ max) :
    readVarIntLoop max 0 (varIntSeen m ++ is) = readVarIntLoop max m is := by
  induction m using Nat.strongRecOn generalizing is with
  | ind m ih =>
    cases m with
    | zero => rfl
    | succ m =>
      rw [varIntSeen, varIntDigits_reverse, append_assoc, ih (m / 128) (by omega) _ (by omega),
        if_pos rfl, singleton_append,
        readVarIntLoop_more is (Nat.mod_lt m (by decide)) (Nat.div_le_div_right (by omega)) (by omega)]
      congr 1
      omega

theorem parses_varInt (bits max : Nat) (hbits : 0 < bits) (hn : n < 2 ^ bits) (hmax : n ≤ max) :
    Parses (readVarInt max) (writeVarInt bits n) n := by
  intro is
  rw [writeVarInt_eq_digits hbits hn, varIntDigits_reverse, append_assoc, readVarInt,
    readVarIntLoop_seen _ _ (by omega), if_neg (by decide), Nat.add_zero, singleton_append,
    readVarIntLoop_last max is (Nat.mod_lt n (by decide)) (Nat.div_le_div_right hmax)]
  congr 2
  omega

/-! ### One encoding for each number -/

theorem varIntDigits_step (m : Nat) (b : UInt8) (len : Bool)
    (hb : b.toNat = b.toNat % 128 + if len then 0x80 else 0x00) :
    (varIntDigits (m * 128 + b.toNat % 128) len).reverse = varIntSeen m ++ [b] := by
  have hlow : (m * 128 + b.toNat % 128) % 128 = b.toNat % 128 := by omega
  have hdiv : (m * 128 + b.toNat % 128) / 128 = m := by omega
  rw [varIntDigits_reverse, hlow, hdiv, ← hb, UInt8.ofNat_toNat]

theorem readVarIntLoop_eq_ok :
    ∀ (bs : Bytes) (m n : Nat) (rest : Bytes), readVarIntLoop max m bs = .ok (n, rest) →
      varIntSeen m ++ bs = (varIntDigits n false).reverse ++ rest ∧ n ≤ max / 128 * 128 + 127 := by
  intro bs
  induction bs with
  | nil =>
    intro m n rest h
    cases h
  | cons b bs ih =>
    intro m n rest h
    have hbyte := toNat_lt b
    rw [readVarIntLoop] at h
    by_cases hbig : m > max / 128
    · rw [if_pos hbig] at h
      cases h
    · rw [if_neg hbig] at h
      by_cases hmore : b.toNat ≥ 0x80
      · rw [if_pos hmore] at h
        by_cases hmax : m * 128 + b.toNat % 128 = max
        · rw [if_pos hmax] at h
          cases h
        · rw [if_neg hmax] at h
          obtain ⟨hbytes, hle⟩ := ih _ n rest h
          refine ⟨?_, hle⟩
          rw [← hbytes, varIntSeen, varIntDigits_step m b true (by simp; omega), append_assoc]
          rfl
      · rw [if_neg hmore] at h
        cases h
        refine ⟨?_, by omega⟩
        rw [varIntDigits_step m b false (by simp; omega), append_assoc]
        rfl

theorem readVarInt_eq_ok {bs rest : Bytes} (hbits : 0 < bits) (hmax : max / 128 * 128 + 127 < 2 ^ bits)
    (h : readVarInt max bs = .ok (n, rest)) : bs = writeVarInt bits n ++ rest := by
  obtain ⟨hbytes, hle⟩ := readVarIntLoop_eq_ok bs 0 n rest h
  rw [writeVarInt_eq_digits hbits (Nat.lt_of_le_of_lt hle hmax)]
  exact hbytes

theorem readVarInt_le {bs rest : Bytes} (h : readVarInt max bs = .ok (n, rest)) :
    n ≤ max / 128 * 128 + 127 := (readVarIntLoop_eq_ok bs 0 n rest h).2

theorem exact_varInt (hbits : 7 ≤ bits) :
    Exact (readVarInt (2 ^ bits - 1)) (writeVarInt bits) (· < 2 ^ bits) := by
  -- every last digit of the largest value fits
  obtain ⟨k, rfl⟩ := Nat.exists_eq_add_of_le' hbits
  have hpow := Nat.pow_add 2 k 7
  have hpos : 0 < 2 ^ k := Nat.two_pow_pos k
  have hmax : (2 ^ (k + 7) - 1) / 128 * 128 + 127 < 2 ^ (k + 7) := by omega
  apply Exact.of fun n hn => parses_varInt _ _ (by omega) hn (by omega)
  intro bs n rest h
  exact ⟨readVarInt_eq_ok (by omega) hmax h, lt_of_le_of_lt (readVarInt_le h) hmax⟩

theorem length_varIntDigits (n : Nat) (len : Bool) : (varIntDigits n len).length = getSizeOfVarInt n := by
  fun_induction getSizeOfVarInt n generalizing len with
  | case1 n hsmall => rw [varIntDigits_eq, if_pos hsmall]; rfl
  | case2 n hsmall ih => rw [varIntDigits_eq, if_neg hsmall, length_cons, ih]

/-! ### Compact sizes and vectors -/

/-- `WriteCompactSize` -/
def writeCompactSize (nSize : Nat) : Bytes :=
  if nSize < 253 then writeLE 1 nSize
  else if nSize ≤ 0xFFFF then writeLE 1 253 ++ writeLE 2 nSize
  else if nSize ≤ 0xFFFFFFFF then writeLE 1 254 ++ writeLE 4 nSize
  else writeLE 1 255 ++ writeLE 8 nSize

/-- A size of `k` bytes that must not have a shorter form. -/
def readCanonical (k least : Nat) : Reader Nat := do
  let nSizeRet ← readLE k
  ensure (least ≤ nSizeRet) "non-canonical ReadCompactSize()"
  pure nSizeRet

/-- `ReadCompactSize` before its range check. -/
def readCompactSizeUnchecked : Reader Nat := do
  let chSize ← readLE 1
  if chSize < 253 then pure chSize
  else if chSize = 253 then readCanonical 2 253
  else if chSize = 254 then readCanonical 4 0x10000
  else readCanonical 8 0x100000000

/-- `ReadCompactSize` with its range check. -/
def readCompactSize : Reader Nat := do
  let nSizeRet ← readCompactSizeUnchecked
  ensure (nSizeRet ≤ maxSize) "ReadCompactSize(): size too large"
  pure nSizeRet

theorem parses_compactSizeUnchecked (hn : n < 2 ^ 64) :
    Parses readCompactSizeUnchecked (writeCompactSize n) n := by
  unfold writeCompactSize
  -- after the size byte, each width reads its own form back
  have hcanon : ∀ {k least : Nat}, n < 256 ^ k → least ≤ n →
      Parses (readCanonical k least) (writeLE k n) n :=
    fun hk hl => (parses_le hk).checked hl _
  split
  · next h1 =>
    have htail : Parses (if n < 253 then pure n
        else if n = 253 then readCanonical 2 253
        else if n = 254 then readCanonical 4 0x10000
        else readCanonical 8 0x100000000) [] n := by
      rw [if_pos h1]
      exact Parses.pure n
    simpa [readCompactSizeUnchecked] using
      (parses_le (by omega)).bind (f := fun chSize =>
        if chSize < 253 then pure chSize
        else if chSize = 253 then readCanonical 2 253
        else if chSize = 254 then readCanonical 4 0x10000
        else readCanonical 8 0x100000000) htail
  · split
    · exact (parses_le (by decide)).bind (hcanon (by omega) (by omega))
    · split
      · exact (parses_le (by decide)).bind (hcanon (by omega) (by omega))
      · exact (parses_le (by decide)).bind (hcanon (by omega) (by omega))

theorem parses_compactSize (hn : n ≤ maxSize) : Parses readCompactSize (writeCompactSize n) n :=
  (parses_compactSizeUnchecked (lt_of_le_of_lt hn (by decide))).checked
    (p := fun m => m ≤ maxSize) hn _

/-- `VectorFormatter::Ser`: the size, then every element. -/
def writeVector {α : Type} (ser : α → Bytes) (v : List α) : Bytes :=
  writeCompactSize v.length ++ writeEach ser v

/-- `VectorFormatter::Unser` -/
def readVector {α : Type} (unser : Reader α) : Reader (List α) := do
  let size ← readCompactSize
  readTimes unser size

theorem parses_vector {α β : Type} {ser : α → Bytes} {unser : Reader β} (f : α → β) {v : List α}
    (hsize : v.length ≤ maxSize) (h : ∀ a ∈ v, Parses unser (ser a) (f a)) :
    Parses (readVector unser) (writeVector ser v) (v.map f) :=
  (parses_compactSize hsize).bind (parses_times f h)

theorem parses_vector_self {α : Type} {ser : α → Bytes} {unser : Reader α} {v : List α}
    (hsize : v.length ≤ maxSize) (h : ∀ a ∈ v, Parses unser (ser a) a) :
    Parses (readVector unser) (writeVector ser v) v :=
  (parses_compactSize hsize).bind (parses_times_self h)

/-! ### One encoding for each size -/

theorem exact_canonical (k least : Nat) :
    Exact (readCanonical k least) (writeLE k) fun n => n < 256 ^ k ∧ least ≤ n :=
  (exact_le k).checked (p := (least ≤ ·)) _

theorem exact_compactSizeUnchecked : Exact readCompactSizeUnchecked writeCompactSize (· < 2 ^ 64) := by
  apply Exact.of fun n hn => parses_compactSizeUnchecked hn
  intro bs n rest h
  obtain ⟨chSize, _, hch, h⟩ := reader_bind_eq_ok.mp h
  obtain ⟨hbs, hlt⟩ := readLE_eq_ok hch
  rw [hbs]
  by_cases h1 : chSize < 253
  · rw [if_pos h1] at h
    obtain ⟨rfl, rfl⟩ := reader_pure_eq_ok.mp h
    rw [writeCompactSize, if_pos h1]
    exact ⟨rfl, by omega⟩
  · rw [if_neg h1] at h
    by_cases h2 : chSize = 253
    · rw [if_pos h2] at h
      obtain ⟨rfl, hub, hlb⟩ := (exact_canonical 2 253).iff.mp h
      rw [writeCompactSize, if_neg (by omega), if_pos (by omega), h2]
      exact ⟨rfl, by omega⟩
    · rw [if_neg h2] at h
      by_cases h3 : chSize = 254
      · rw [if_pos h3] at h
        obtain ⟨rfl, hub, hlb⟩ := (exact_canonical 4 0x10000).iff.mp h
        rw [writeCompactSize, if_neg (by omega), if_neg (by omega), if_pos (by omega), h3]
        exact ⟨rfl, by omega⟩
      · rw [if_neg h3] at h
        obtain ⟨rfl, hub, hlb⟩ := (exact_canonical 8 0x100000000).iff.mp h
        have h4 : chSize = 255 := by omega
        rw [writeCompactSize, if_neg (by omega), if_neg (by omega), if_neg (by omega), h4]
        exact ⟨rfl, by omega⟩

theorem exact_compactSize : Exact readCompactSize writeCompactSize (· ≤ maxSize) := by
  apply Exact.of fun n hn => parses_compactSize hn
  intro bs n rest h
  obtain ⟨hbs, -, hle⟩ := (exact_compactSizeUnchecked.checked _).iff.mp h
  exact ⟨hbs, hle⟩

/-- **Variable-length integers are a bijection.** A number of the type is read from its own encoding
    and from no other bytes, and the encoding of a number too large for the type is refused. -/
theorem variableLength_bijective (hbits : 7 ≤ bits) :
    Exact (readVarInt (2 ^ bits - 1)) (writeVarInt bits) (· < 2 ^ bits) ∧
      (∀ n < 2 ^ bits, (writeVarInt bits n).length = getSizeOfVarInt n) ∧
      (∀ wide n rest, 2 ^ bits ≤ n → n < 2 ^ wide →
        ∃ e, readVarInt (2 ^ bits - 1) (writeVarInt wide n ++ rest) = .error e) ∧
      Exact readCompactSizeUnchecked writeCompactSize (· < 2 ^ 64) ∧
      Exact readCompactSize writeCompactSize (· ≤ maxSize) := by
  refine ⟨exact_varInt hbits, ?_, ?_, exact_compactSizeUnchecked, exact_compactSize⟩
  · intro n hn
    rw [writeVarInt_eq_digits (by omega) hn, length_reverse, length_varIntDigits]
  · intro wide n rest hbig hwide
    have hlt : bits < wide := (Nat.pow_lt_pow_iff_right Nat.one_lt_two).mp (by omega)
    cases hread : readVarInt (2 ^ bits - 1) (writeVarInt wide n ++ rest) with
    | error e => exact ⟨e, rfl⟩
    | ok r =>
      -- the wider reader would take the same bytes for `n` and for what was returned
      obtain ⟨hbytes, hr⟩ := (exact_varInt hbits).iff.mp hread
      have hr' : r.1 < 2 ^ wide := by omega
      rw [writeVarInt_eq_digits (by omega) hr, ← writeVarInt_eq_digits (by omega) hr'] at hbytes
      have hn := parses_varInt wide _ (by omega) hwide (Nat.le_sub_one_of_lt hwide) rest
      rw [hbytes, parses_varInt wide _ (by omega) hr' (Nat.le_sub_one_of_lt hr')] at hn
      cases hn
      omega

theorem variableLength_bijective_byte :
    Exact (readVarInt (2 ^ 8 - 1)) (writeVarInt 8) (· < 2 ^ 8) :=
  (variableLength_bijective (by decide)).1

theorem exact_vector {α : Type} {ser : α → Bytes} {unser : Reader α} {P : α → Prop}
    (h : Exact unser ser P) :
    Exact (readVector unser) (writeVector ser) fun v => v.length ≤ maxSize ∧ ∀ a ∈ v, P a := by
  apply Exact.of
  · intro v hv
    exact parses_vector_self hv.1 fun a ha => h.parses (hv.2 a ha)
  · intro bs v rest hread
    obtain ⟨size, _, hsize, htimes⟩ := reader_bind_eq_ok.mp hread
    obtain ⟨rfl, hle⟩ := exact_compactSize.iff.mp hsize
    obtain ⟨rfl, rfl, hall⟩ := (h.times size).iff.mp htimes
    exact ⟨by rw [writeVector, append_assoc], hle, hall⟩

end Defcoin
