import Defcoin.Framework.ByteCodec
import Defcoin.Framework.Requests
import Mathlib.Data.List.GetD
import Mathlib.Data.Nat.Digits.Defs

/-! # Base58

  `DecodeBase58` reads a number to the base 58 into a buffer of bytes whose size it computes from
  the length of the text, and asserts after each character that the number still fits.
-/

namespace Defcoin.Address

open ByteCodec Requests List Safe Nat

/-! ### Decoding -/

/-- `mapBase58` -/
def mapBase58 : List Int :=
  [-1, -1, -1, -1, -1, -1, -1, -1, -1, -1, -1, -1, -1, -1, -1, -1,
   -1, -1, -1, -1, -1, -1, -1, -1, -1, -1, -1, -1, -1, -1, -1, -1,
   -1, -1, -1, -1, -1, -1, -1, -1, -1, -1, -1, -1, -1, -1, -1, -1,
   -1, 0, 1, 2, 3, 4, 5, 6, 7, 8, -1, -1, -1, -1, -1, -1,
   -1, 9, 10, 11, 12, 13, 14, 15, 16, -1, 17, 18, 19, 20, 21, -1,
   22, 23, 24, 25, 26, 27, 28, 29, 30, 31, 32, -1, -1, -1, -1, -1,
   -1, 33, 34, 35, 36, 37, 38, 39, 40, 41, 42, 43, -1, 44, 45, 46,
   47, 48, 49, 50, 51, 52, 53, 54, 55, 56, 57, -1, -1, -1, -1, -1]
  ++ List.replicate 128 (-1)

def base58Digit (c : UInt8) : Option Nat :=
  let carry := mapBase58.getD c.toNat (-1)
  if carry = -1 then none else some carry.toNat

/-- `IsSpace` -/
def isSpace (c : UInt8) : Bool := c == 0x20 || c == 0x0c || c == 0x0a || c == 0x0d || c == 0x09 || c == 0x0b

/-- Skip and count leading '1's, at most `max_ret_len` of them. -/
def skipOnes (max_ret_len : Nat) : Nat → Bytes → Option (Nat × Bytes)
  | zeroes, [] => some (zeroes, [])
  | zeroes, c :: psz =>
    if c = 0x31 then
      if zeroes + 1 > max_ret_len then none else skipOnes max_ret_len (zeroes + 1) psz
    else some (zeroes, c :: psz)

/-- The size of the buffer: computed as a `size_t`, kept as an `int`. -/
def base58Size (strlen : Nat) : Int := (BitVec.ofNat 32 (strlen * 733 % 2 ^ 64 / 1000 + 1)).toInt

/-- The elements that `std::vector(size)` asks for. -/
def elementsOf (size : Int) : Nat := (size % 2 ^ 64).toNat

/-- The inner loop, over the bytes from the last one on. -/
def carryLoop (length : Nat) : List Nat → Nat → Nat → List Nat × Nat × Nat
  | [], carry, i => ([], carry, i)
  | b :: b256, carry, i =>
    if carry ≠ 0 ∨ i < length then
      let carry := carry + 58 * b
      let r := carryLoop length b256 (carry / 256) (i + 1)
      (carry % 256 :: r.1, r.2)
    else (b :: b256, carry, i)

/-- The loop over the characters: what is left of the text, the buffer and the bytes of it that are
    used, or nothing for a bad text. -/
def decodeChars (max_ret_len zeroes : Nat) : Bytes → List Nat → Nat → Alloc (Option (Bytes × List Nat × Nat))
  | [], b256, length => pure (some ([], b256, length))
  | c :: psz, b256, length =>
    if isSpace c then pure (some (c :: psz, b256, length))
    else
      match base58Digit c with
      | none => pure none
      | some digit => do
        let r := carryLoop length b256 digit 0
        insist (r.2.1 = 0) (.assertion "carry == 0")
        if r.2.2 + zeroes > max_ret_len then pure none else decodeChars max_ret_len zeroes psz r.1 r.2.2

/-- What `DecodeBase58` returns after the characters. -/
def finishBase58 (available zeroes : Nat) : Option (Bytes × List Nat × Nat) → Alloc (Option Bytes)
  | none => pure none
  | some (psz, b256, length) =>
    if psz.dropWhile isSpace ≠ [] then pure none
    else do
      request available (zeroes + length)
      pure (some (List.replicate zeroes 0 ++ ((b256.take length).map UInt8.ofNat).reverse))

/-- `DecodeBase58` -/
def decodeBase58 (available : Nat) (str : Bytes) (max_ret_len : Nat) : Alloc (Option Bytes) :=
  -- `ValidAsCString`
  if 0 ∈ str then pure none
  else
    match skipOnes max_ret_len 0 (str.dropWhile isSpace) with
    | none => pure none
    | some (zeroes, psz) => do
      let size := base58Size psz.length
      request available (elementsOf size)
      let r ← decodeChars max_ret_len zeroes psz (List.replicate (elementsOf size) 0) 0
      finishBase58 available zeroes r

/-- `DecodeBase58Check`, with `hash` for the double SHA-256. -/
def decodeBase58Check (available : Nat) (hash : Bytes → Bytes) (str : Bytes) (max_ret_len : Nat) :
    Alloc (Option Bytes) := do
  let r ← decodeBase58 available str (max_ret_len + 4)
  match r with
  | none => pure none
  | some vchRet =>
    if vchRet.length < 4 then pure none
    else
      let payload := vchRet.take (vchRet.length - 4)
      if (hash payload).take 4 ≠ vchRet.drop (vchRet.length - 4) then pure none else pure (some payload)

/-! ### Digits -/

section CarryLoop
variable {length b i carry : Nat} {b256 : List Nat}

theorem carryLoop_go (h : carry ≠ 0 ∨ i < length) : carryLoop length (b :: b256) carry i =
      ((carry + 58 * b) % 256 :: (carryLoop length b256 ((carry + 58 * b) / 256) (i + 1)).1,
        (carryLoop length b256 ((carry + 58 * b) / 256) (i + 1)).2) := by
  rw [carryLoop, if_pos h]

theorem carryLoop_stop (h : ¬ (carry ≠ 0 ∨ i < length)) :
    carryLoop length (b :: b256) carry i = (b :: b256, carry, i) := by
  rw [carryLoop, if_neg h]

theorem length_carryLoop (length : Nat) (b256 : List Nat) (carry i : Nat) :
    (carryLoop length b256 carry i).1.length = b256.length := by
  induction b256 generalizing carry i with
  | nil => rfl
  | cons b b256 ih =>
    by_cases hgo : carry ≠ 0 ∨ i < length
    · rw [carryLoop_go hgo, length_cons, length_cons, ih]
    · rw [carryLoop_stop hgo]

theorem carryLoop_bytes (h : ∀ b ∈ b256, b < 256) (carry i : Nat) :
    ∀ b ∈ (carryLoop length b256 carry i).1, b < 256 := by
  induction b256 generalizing carry i with
  | nil => exact h
  | cons b b256 ih =>
    by_cases hgo : carry ≠ 0 ∨ i < length
    · rw [carryLoop_go hgo]
      exact forall_mem_cons.mpr ⟨mod_lt _ (by decide), ih (fun y hy => h y (mem_cons_of_mem _ hy)) _ _⟩
    · rw [carryLoop_stop hgo]
      exact h

def ZeroBeyond (used : Nat) (b256 : List Nat) : Prop := ∀ b ∈ b256.drop used, b = 0

theorem ZeroBeyond.ofDigits_eq_zero (h : ZeroBeyond 0 b256) : ofDigits 256 b256 = 0 := by
  induction b256 with
  | nil => rfl
  | cons b b256 ih =>
    rw [ofDigits_cons, h b mem_cons_self, ih fun x hx => h x (mem_cons_of_mem _ hx)]

theorem ZeroBeyond.next (h : ZeroBeyond (length - i) (b :: b256)) : ZeroBeyond (length - (i + 1)) b256 := by
  rw [sub_add_eq]
  cases hused : length - i with
  | zero =>
    rw [hused] at h
    exact fun x hx => h x (mem_cons_of_mem _ hx)
  | succ used =>
    rw [hused] at h
    exact h

section
variable (h : ZeroBeyond (length - i) b256)
include h

theorem ZeroBeyond.stop (hstop : ¬ (carry ≠ 0 ∨ i < length)) :
    carry = 0 ∧ length ≤ i ∧ ZeroBeyond 0 b256 := by
  have hzero : length - i = 0 := by omega
  rw [hzero] at h
  exact ⟨by omega, by omega, h⟩

/-- The inner loop multiplies by 58 and adds, with what does not fit as the carry. -/
theorem ofDigits_carryLoop (carry : Nat) : ofDigits 256 (carryLoop length b256 carry i).1 +
      256 ^ b256.length * (carryLoop length b256 carry i).2.1 = 58 * ofDigits 256 b256 + carry := by
  induction b256 generalizing carry i with
  | nil => simp [carryLoop]
  | cons b b256 ih =>
    by_cases hgo : carry ≠ 0 ∨ i < length
    · have hrest := ih h.next ((carry + 58 * b) / 256)
      have hscaled : 256 ^ b256.length * 256 * (carryLoop length b256 ((carry + 58 * b) / 256) (i + 1)).2.1 =
          256 * (256 ^ b256.length * (carryLoop length b256 ((carry + 58 * b) / 256) (i + 1)).2.1) := by ring
      rw [carryLoop_go hgo]
      simp only [ofDigits_cons, length_cons, pow_succ]
      omega
    · obtain ⟨rfl, -, hzero⟩ := h.stop hgo
      rw [carryLoop_stop hgo, hzero.ofDigits_eq_zero]
      simp

theorem zeroBeyond_carryLoop (carry : Nat) :
    i ≤ (carryLoop length b256 carry i).2.2 ∧ (carryLoop length b256 carry i).2.2 ≤ i + b256.length ∧
      ZeroBeyond ((carryLoop length b256 carry i).2.2 - i) (carryLoop length b256 carry i).1 := by
  induction b256 generalizing carry i with
  | nil =>
    refine ⟨le_refl _, le_refl _, fun x hx => ?_⟩
    simp [carryLoop] at hx
  | cons b b256 ih =>
    by_cases hgo : carry ≠ 0 ∨ i < length
    · obtain ⟨hlow, hhigh, hzero⟩ := ih h.next ((carry + 58 * b) / 256)
      rw [carryLoop_go hgo]
      dsimp only
      refine ⟨by omega, by rw [length_cons]; omega, ?_⟩
      have hused : (carryLoop length b256 ((carry + 58 * b) / 256) (i + 1)).2.2 - i =
          ((carryLoop length b256 ((carry + 58 * b) / 256) (i + 1)).2.2 - (i + 1)) + 1 := by omega
      rw [hused]
      exact hzero
    · obtain ⟨-, -, hzero⟩ := h.stop hgo
      rw [carryLoop_stop hgo]
      refine ⟨le_refl _, Nat.le_add_right _ _, ?_⟩
      rw [Nat.sub_self]
      exact hzero

theorem top_carryLoop (hfits : length ≤ i + b256.length) (hcarry : (carryLoop length b256 carry i).2.1 = 0) :
    (carryLoop length b256 carry i).2.2 = max length i ∨ (i < (carryLoop length b256 carry i).2.2 ∧
        256 ^ ((carryLoop length b256 carry i).2.2 - i - 1) ≤ ofDigits 256 (carryLoop length b256 carry i).1) := by
  induction b256 generalizing carry i with
  | nil =>
    left
    exact (max_eq_right hfits).symm
  | cons b b256 ih =>
    by_cases hgo : carry ≠ 0 ∨ i < length
    · have hvalue := ofDigits_carryLoop h carry
      rw [hcarry] at hvalue
      rw [length_cons] at hfits
      rw [carryLoop_go hgo] at hcarry hvalue ⊢
      dsimp only at hcarry hvalue ⊢
      rcases ih h.next (by omega) hcarry with hlast | ⟨hlow, htop⟩
      · rw [hlast]
        by_cases hlt : i < length
        · omega
        · have hexp : max length (i + 1) - i - 1 = 0 := by omega
          rw [hexp]
          omega
      · right
        have hexp : (carryLoop length b256 ((carry + 58 * b) / 256) (i + 1)).2.2 - i - 1 =
            (carryLoop length b256 ((carry + 58 * b) / 256) (i + 1)).2.2 - (i + 1) - 1 + 1 := by omega
        refine ⟨by omega, ?_⟩
        rw [hexp, pow_succ, mul_comm]
        exact le_trans (mul_le_mul_left 256 htop) (le_add_left _ _)
    · obtain ⟨-, hle, -⟩ := h.stop hgo
      rw [carryLoop_stop hgo]
      exact Or.inl (max_eq_right hle).symm

end

end CarryLoop

/-! ### The buffer -/

/-- The buffer of `size` bytes holds the number `value`, which takes `length` of them. -/
structure Holds (size length value : Nat) (b256 : List Nat) : Prop where
  size_eq : b256.length = size
  bytes : ∀ b ∈ b256, b < 256
  value_eq : Nat.ofDigits 256 b256 = value
  zero : ZeroBeyond length b256
  used : length ≤ size
  top : length ≠ 0 → 256 ^ (length - 1) ≤ value

section Buffer
variable {size length value digit : Nat} {b256 : List Nat}

theorem holds_zero (size : Nat) : Holds size 0 0 (List.replicate size 0) where
  size_eq := length_replicate
  bytes := fun b hb => by rw [eq_of_mem_replicate hb]; decide
  value_eq := ZeroBeyond.ofDigits_eq_zero fun _ hb => eq_of_mem_replicate hb
  zero := fun _ hb => eq_of_mem_replicate hb
  used := zero_le _
  top := fun h => absurd rfl h

variable (h : Holds size length value b256)
include h

theorem Holds.lt : value < 256 ^ length := by
  have hzero := ZeroBeyond.ofDigits_eq_zero h.zero
  have hsplit := @ofDigits_append 256 (b256.take length) (b256.drop length)
  rw [take_append_drop, h.value_eq, hzero, mul_zero, add_zero] at hsplit
  have hlength : (b256.take length).length = length := by
    rw [length_take, h.size_eq]
    exact min_eq_left h.used
  have hlt : ofDigits 256 (b256.take length) < 256 ^ (b256.take length).length :=
    ofDigits_lt_base_pow_length (by decide) fun b hb => h.bytes b (mem_of_mem_take hb)
  rwa [← hsplit, hlength] at hlt

theorem Holds.carry_eq_zero_iff :
    (carryLoop length b256 digit 0).2.1 = 0 ↔ 58 * value + digit < 256 ^ size := by
  have hvalue := ofDigits_carryLoop (i := 0) h.zero digit
  have hlt : Nat.ofDigits 256 (carryLoop length b256 digit 0).1 <
      256 ^ (carryLoop length b256 digit 0).1.length :=
    Nat.ofDigits_lt_base_pow_length (by decide) (carryLoop_bytes h.bytes digit 0)
  rw [length_carryLoop, h.size_eq] at hlt
  rw [h.value_eq, h.size_eq] at hvalue
  constructor
  · intro hcarry
    rw [hcarry] at hvalue
    omega
  · intro hfits
    by_contra hne
    have hge : 256 ^ size ≤ 256 ^ size * (carryLoop length b256 digit 0).2.1 :=
      Nat.le_mul_of_pos_right _ (Nat.pos_of_ne_zero hne)
    omega

theorem Holds.step (hfits : 58 * value + digit < 256 ^ size) :
    Holds size (carryLoop length b256 digit 0).2.2 (58 * value + digit) (carryLoop length b256 digit 0).1 := by
  have hcarry := h.carry_eq_zero_iff.mpr hfits
  have hvalue := ofDigits_carryLoop (i := 0) h.zero digit
  rw [hcarry, mul_zero, add_zero, h.value_eq] at hvalue
  obtain ⟨-, hused, hzero⟩ := zeroBeyond_carryLoop (i := 0) h.zero digit
  rw [zero_add, h.size_eq] at hused
  refine ⟨by rw [length_carryLoop, h.size_eq], carryLoop_bytes h.bytes digit 0, hvalue, hzero, hused, fun hne => ?_⟩
  have hfits' : length ≤ 0 + b256.length := by
    rw [h.size_eq, zero_add]
    exact h.used
  rcases top_carryLoop (i := 0) h.zero hfits' hcarry with hlast | ⟨-, htop⟩
  · rw [max_zero] at hlast
    rw [hlast] at hne ⊢
    have hbefore := h.top hne
    omega
  · rw [hvalue] at htop
    exact htop

end Buffer

/-! ### Safety -/

theorem base58Digit_lt {c : UInt8} {digit : Nat} (h : base58Digit c = some digit) : digit < 58 := by
  have hall : ∀ n ∈ mapBase58, n < 58 := by decide +kernel
  have hentry : mapBase58.getD c.toNat (-1) < 58 := by
    rcases lt_or_ge c.toNat mapBase58.length with hlt | hge
    · rw [getD_eq_getElem _ _ hlt]
      exact hall _ (getElem_mem hlt)
    · rw [getD_eq_default _ _ hge]
      decide
  unfold base58Digit at h
  dsimp only at h
  split at h
  · cases h
  · cases h
    omega

/-- The number that the characters up to the first one that is not base58 stand for. -/
def textValue : Nat → Bytes → Nat
  | value, [] => value
  | value, c :: psz =>
    if isSpace c then value
    else
      match base58Digit c with
      | none => value
      | some digit => textValue (58 * value + digit) psz

theorem le_textValue (value : Nat) (psz : Bytes) : value ≤ textValue value psz := by
  induction psz generalizing value with
  | nil => exact le_refl _
  | cons c psz ih =>
    unfold textValue
    split
    · exact le_refl _
    · split
      · exact le_refl _
      · next digit _ =>
        have hnext := ih (58 * value + digit)
        omega

theorem textValue_lt (value : Nat) (psz : Bytes) : textValue value psz < (value + 1) * 58 ^ psz.length := by
  induction psz generalizing value with
  | nil => simp [textValue]
  | cons c psz ih =>
    have hpos : 0 < 58 ^ (c :: psz).length := Nat.pow_pos (by decide)
    have hself := lt_of_lt_of_le (Nat.lt_succ_self value) (Nat.le_mul_of_pos_right _ hpos)
    unfold textValue
    split
    · exact hself
    · split
      · exact hself
      · next digit hdigit =>
        have hlt := base58Digit_lt hdigit
        have hnext := ih (58 * value + digit)
        have hle : (58 * value + digit + 1) * 58 ^ psz.length ≤ (value + 1) * 58 * 58 ^ psz.length :=
          Nat.mul_le_mul_right _ (by omega)
        have hpow : (value + 1) * 58 ^ (c :: psz).length = (value + 1) * 58 * 58 ^ psz.length := by
          rw [length_cons]
          ring
        omega

/-- What the loop over the characters leaves. -/
def Decoded (size max_ret_len zeroes : Nat) (r : Option (Bytes × List Nat × Nat)) : Prop :=
  ∀ psz b256 length, r = some (psz, b256, length) →
    b256.length = size ∧ length ≤ size ∧ length + zeroes ≤ max_ret_len

section Chars
variable {max_ret_len zeroes size length value bound : Nat} {b256 : List Nat}

theorem safe_decodeChars (psz : Bytes) (h : Holds size length value b256) (hlen : length + zeroes ≤ max_ret_len)
    (hfits : max_ret_len - zeroes < size ∨ textValue value psz < 256 ^ size) :
    Safe bound (decodeChars max_ret_len zeroes psz b256 length) (Decoded size max_ret_len zeroes) := by
  have hresult : ∀ psz, Decoded size max_ret_len zeroes (some (psz, b256, length)) := by
    intro psz psz' b' length' heq
    cases heq
    exact ⟨h.size_eq, h.used, hlen⟩
  induction psz generalizing length value b256 with
  | nil => exact pure (hresult [])
  | cons c psz ih =>
    unfold decodeChars
    unfold textValue at hfits
    split
    · exact pure (hresult _)
    · next hspace =>
      rw [if_neg hspace] at hfits
      split
      · exact pure nofun
      · next digit hdigit =>
        rw [hdigit] at hfits
        have hlt := base58Digit_lt hdigit
        -- either way the number fits with this character
        have hnext : 58 * value + digit < 256 ^ size := by
          rcases hfits with hsize | htext
          · have hvalue := h.lt
            have hpow : 256 ^ (length + 1) ≤ 256 ^ size := Nat.pow_le_pow_right (by decide) (by omega)
            omega
          · exact lt_of_le_of_lt (le_textValue _ psz) htext
        have hstep := h.step hnext
        apply (safe_insist (h.carry_eq_zero_iff.mpr hnext)).bind
        intro _ _
        split
        · exact pure nofun
        · next hmax =>
          apply ih hstep (by omega) hfits
          intro psz psz' b' length' heq
          cases heq
          exact ⟨hstep.size_eq, hstep.used, by omega⟩

theorem fails_decodeChars (psz : Bytes) (h : Holds size length value b256)
    (hlen : length + zeroes ≤ max_ret_len) (hsize : size ≤ max_ret_len - zeroes) (hvalue : value < 256 ^ size)
    (htext : 256 ^ size ≤ textValue value psz) :
    Fails (decodeChars max_ret_len zeroes psz b256 length) := by
  induction psz generalizing length value b256 with
  | nil =>
    unfold textValue at htext
    omega
  | cons c psz ih =>
    unfold textValue at htext
    unfold decodeChars
    split
    · next hspace =>
      rw [if_pos hspace] at htext
      omega
    · next hspace =>
      rw [if_neg hspace] at htext
      split
      · next hdigit =>
        rw [hdigit] at htext
        dsimp only at htext
        omega
      · next digit hdigit =>
        rw [hdigit] at htext
        by_cases hnext : 58 * value + digit < 256 ^ size
        · apply fails_bind
          intro _ _ _ _
          have hstep := h.step hnext
          have hused := hstep.used
          rw [if_neg (by omega)]
          exact ih hstep (by omega) hnext htext
        · exact (fails_insist (by rw [h.carry_eq_zero_iff]; exact hnext)).bind

end Chars

/-- The buffer is large enough for the text. -/
def Base58Fits (max_ret_len : Nat) (str : Bytes) : Prop :=
  0 ∈ str ∨
    match skipOnes max_ret_len 0 (str.dropWhile isSpace) with
    | none => True
    | some (zeroes, psz) =>
      0 ≤ base58Size psz.length ∧
        (max_ret_len - zeroes < (base58Size psz.length).toNat ∨
          textValue 0 psz < 256 ^ (base58Size psz.length).toNat)

instance (max_ret_len : Nat) (str : Bytes) : Decidable (Base58Fits max_ret_len str) := by
  unfold Base58Fits
  cases skipOnes max_ret_len 0 (str.dropWhile isSpace) with
  | none => infer_instance
  | some r => infer_instance

theorem skipOnes_le {max_ret_len zeroes zeroes' : Nat} {psz rest : Bytes} (hle : zeroes ≤ max_ret_len)
    (h : skipOnes max_ret_len zeroes psz = some (zeroes', rest)) :
    zeroes' ≤ max_ret_len ∧ zeroes' + rest.length = zeroes + psz.length := by
  induction psz generalizing zeroes with
  | nil =>
    cases h
    exact ⟨hle, rfl⟩
  | cons c psz ih =>
    unfold skipOnes at h
    split at h
    · split at h
      · cases h
      · next hmax =>
        obtain ⟨hle', hlen⟩ := ih (by omega) h
        rw [length_cons]
        omega
    · cases h
      exact ⟨hle, rfl⟩

theorem elementsOf_of_nonneg {size : Int} (h : 0 ≤ size) (hlt : size < 2 ^ 31) : elementsOf size = size.toNat := by
  unfold elementsOf
  rw [Int.emod_eq_of_lt h (by omega)]

theorem base58Size_lt (n : Nat) : base58Size n < 2 ^ 31 := BitVec.toInt_lt

theorem base58Size_le (n : Nat) : base58Size n ≤ (n + 1 : Nat) := by
  unfold base58Size
  have hle : (BitVec.ofNat 32 (n * 733 % 2 ^ 64 / 1000 + 1)).toInt ≤
      ((BitVec.ofNat 32 (n * 733 % 2 ^ 64 / 1000 + 1)).toNat : Int) := by
    rw [BitVec.toInt_eq_toNat_cond]
    split <;> omega
  have hmod : (BitVec.ofNat 32 (n * 733 % 2 ^ 64 / 1000 + 1)).toNat ≤ n * 733 % 2 ^ 64 / 1000 + 1 := by
    exact mod_le _ _
  have hdiv : n * 733 % 2 ^ 64 / 1000 ≤ n := by
    have hmod' : n * 733 % 2 ^ 64 ≤ n * 733 := mod_le _ _
    omega
  omega

theorem fails_request_of_neg {available n : Nat} (h : base58Size n < 0) :
    Fails (request available (elementsOf (base58Size n))) := by
  intro largest
  have hlow : -(2 ^ 31) ≤ base58Size n := BitVec.le_toInt _
  have hmax : elementsOf (base58Size n) > maxElements := by
    unfold elementsOf maxElements
    omega
  exact ⟨.lengthError, if_pos hmax⟩

section Decode
variable {available bound max_ret_len : Nat} {str : Bytes}

/-- **Base58**: with a buffer that is large enough, the text is read, and what is asked for is in
    proportion to it. -/
theorem safe_decodeBase58 (hbound : Servable available bound) (hstr : str.length + 1 ≤ bound)
    (hmax : max_ret_len ≤ bound) (hfits : Base58Fits max_ret_len str) :
    Safe bound (decodeBase58 available str max_ret_len) fun r =>
      ∀ vch, r = some vch → vch.length ≤ str.length + 1 := by
  unfold decodeBase58
  split
  · exact Safe.pure nofun
  · next hnul =>
    have hfits := hfits.resolve_left hnul
    split
    · exact Safe.pure nofun
    · next zeroes psz hones =>
      rw [hones] at hfits
      obtain ⟨hsize, hfits⟩ := hfits
      obtain ⟨hzeroes, hlen⟩ := skipOnes_le (zero_le _) hones
      have hdrop := (dropWhile_suffix (l := str) isSpace).length_le
      have hupper := base58Size_le psz.length
      have helements := elementsOf_of_nonneg hsize (base58Size_lt _)
      dsimp only
      rw [helements]
      apply (safe_request hbound (by omega)).bind
      intro _ _
      apply (safe_decodeChars psz (holds_zero _) (by omega) hfits).bind
      intro r hr
      unfold finishBase58
      split
      · exact Safe.pure nofun
      · next rest b256 length =>
        obtain ⟨hb256, hlength, hret⟩ := hr rest b256 length rfl
        split
        · exact Safe.pure nofun
        · apply (safe_request hbound (by omega)).bind
          intro _ _
          apply Safe.pure
          intro vch hvch
          cases hvch
          rw [length_append, length_replicate, length_reverse, length_map, length_take]
          omega

theorem fails_decodeBase58 (hfits : ¬ Base58Fits max_ret_len str) :
    Fails (decodeBase58 available str max_ret_len) := by
  unfold Base58Fits at hfits
  rw [not_or] at hfits
  obtain ⟨hnul, hfits⟩ := hfits
  unfold decodeBase58
  rw [if_neg hnul]
  split
  · next hones =>
    rw [hones] at hfits
    exact absurd trivial hfits
  · next zeroes psz hones =>
    rw [hones] at hfits
    obtain ⟨hzeroes, -⟩ := skipOnes_le (Nat.zero_le _) hones
    by_cases hneg : base58Size psz.length < 0
    · exact (fails_request_of_neg hneg).bind
    · have hsize : 0 ≤ base58Size psz.length := by omega
      dsimp only
      rw [elementsOf_of_nonneg hsize (base58Size_lt _)]
      apply fails_bind
      intro _ _ _ _
      exact (fails_decodeChars psz (holds_zero _) (by omega) (by omega) (Nat.pow_pos (by decide))
        (by omega)).bind

end Decode

/-! ### Texts of any length there are -/

/-- If `q` digits to the base `a` fit into `p` to the base `b`, then `n` fit in proportion. -/
theorem pow_lt_of_rate {a b p q : Nat} (hq : 0 < q) (hb : 1 < b) (h : a ^ q ≤ b ^ p) (n : Nat) :
    a ^ n < b ^ (n * p / q + 1) := by
  have hexp : p * n < (n * p / q + 1) * q := by
    rw [Nat.mul_comm p n]
    exact Nat.lt_mul_of_div_lt (Nat.lt_succ_self _) hq
  apply lt_of_pow_lt_pow_left₀ q (Nat.zero_le _)
  calc (a ^ n) ^ q = (a ^ q) ^ n := by rw [← pow_mul, ← pow_mul, Nat.mul_comm]
    _ ≤ (b ^ p) ^ n := Nat.pow_le_pow_left h n
    _ = b ^ (p * n) := by rw [← pow_mul]
    _ < b ^ ((n * p / q + 1) * q) := Nat.pow_lt_pow_right hb hexp
    _ = (b ^ (n * p / q + 1)) ^ q := by rw [pow_mul]

theorem base58Size_eq {n : Nat} (h : n * 733 / 1000 + 1 < 2 ^ 31) : base58Size n = (n * 733 / 1000 + 1 : Nat) := by
  unfold base58Size
  rw [mod_eq_of_lt (by omega), BitVec.toInt_eq_toNat_cond, BitVec.toNat_ofNat, mod_eq_of_lt (by omega),
    if_pos (by omega)]

/-- **Size**: the buffer is large enough for every text of less than 2.9 billion characters. -/
theorem base58Fits_of_length {max_ret_len : Nat} {str : Bytes} (h : str.length * 733 / 1000 + 1 < 2 ^ 31) :
    Base58Fits max_ret_len str := by
  right
  split
  · trivial
  · next zeroes psz hones =>
    obtain ⟨-, hlen⟩ := skipOnes_le (Nat.zero_le _) hones
    have hdrop := (dropWhile_suffix (l := str) isSpace).length_le
    have hle : psz.length * 733 / 1000 + 1 ≤ str.length * 733 / 1000 + 1 := by omega
    have hsize := base58Size_eq (lt_of_le_of_lt hle h)
    rw [hsize]
    refine ⟨by omega, Or.inr ?_⟩
    have htext := textValue_lt 0 psz
    rw [Nat.one_mul] at htext
    exact lt_trans htext (pow_lt_of_rate (by decide) (by decide) (by decide +kernel) psz.length)

end Defcoin.Address
