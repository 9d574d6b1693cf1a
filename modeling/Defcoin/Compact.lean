import Defcoin.ArithUint256

/-! # The compact form of a target (arith_uint256.cpp)

  `nBits` stands for a target with an exponent of base 256 and a mantissa of 23 bits. `Compact` says
  on numbers what the form of a number is and which number it gives back; `GetCompact` and
  `SetCompact` are modelled on words and compute just that.
-/

namespace Defcoin

open BitVec Nat

/-! ### The form, on numbers -/

namespace Compact

variable (n : Nat)

def exponent : Nat := if n = 0 then 0 else Nat.size n / 8 + 1

def mantissa : Nat :=
  if exponent n ≤ 3 then n * 256 ^ (3 - exponent n) else n / 256 ^ (exponent n - 3)

def encode : Nat := exponent n * 2 ^ 24 + mantissa n

/-- What a number is cut to: a multiple of the last byte of its mantissa. -/
def floor : Nat := n / 256 ^ (exponent n - 3) * 256 ^ (exponent n - 3)

theorem floor_le : floor n ≤ n := div_mul_le_self _ _

theorem pow_256 (k : Nat) : 256 ^ k = 2 ^ (8 * k) := by rw [Nat.pow_mul]

theorem lt_pow_size : n < 2 ^ size n := size_le.mp (le_refl _)

theorem pow_le_of_pos {n : Nat} (hn : 0 < n) : 2 ^ (size n - 1) ≤ n := by
  have := size_pos.mpr hn
  exact lt_size.mp (by omega)

theorem mul_pow_lt {m k a b : Nat} (hm : m < 2 ^ k) (hle : k + a ≤ b) : m * 2 ^ a < 2 ^ b :=
  calc m * 2 ^ a < 2 ^ k * 2 ^ a := Nat.mul_lt_mul_of_pos_right hm (Nat.two_pow_pos _)
    _ = 2 ^ (k + a) := (Nat.pow_add ..).symm
    _ ≤ 2 ^ b := Nat.pow_le_pow_right (by decide) hle

theorem div_pow_lt {n k a b : Nat} (hn : n < 2 ^ k) (hle : k ≤ b + a) : n / 2 ^ a < 2 ^ b := by
  rw [Nat.div_lt_iff_lt_mul (Nat.two_pow_pos _), ← Nat.pow_add]
  exact hn.trans_le (Nat.pow_le_pow_right (by decide) hle)

theorem mul_pow_div {e : Nat} (m : Nat) (he : 3 ≤ e) : m * 256 ^ e / 256 ^ 3 = m * 256 ^ (e - 3) := by
  rw [← Nat.pow_sub_mul_pow 256 he, ← Nat.mul_assoc, Nat.mul_div_cancel _ (Nat.pow_pos (by decide))]

theorem mantissa_lt : mantissa n < 2 ^ 23 := by
  rw [mantissa]
  by_cases hn : n = 0
  · subst hn
    simp [exponent]
  have hlt := lt_pow_size n
  have hexp : exponent n = size n / 8 + 1 := if_neg hn
  split_ifs with hsmall
  · rw [pow_256]
    exact mul_pow_lt hlt (by omega)
  · rw [pow_256]
    exact div_pow_lt hlt (by omega)

theorem exponent_le {n : Nat} (hn : n < 2 ^ 256) : exponent n ≤ 33 := by
  have hsize : size n ≤ 256 := size_le.mpr hn
  unfold exponent
  split_ifs <;> omega

theorem pow_le_floor {n : Nat} (hn : 0 < n) : 2 ^ (Nat.size n - 1) ≤ floor n := by
  have hexp : exponent n = Nat.size n / 8 + 1 := if_neg (by omega)
  have hsplit : 2 ^ (Nat.size n - 1) =
      2 ^ (Nat.size n - 1 - 8 * (exponent n - 3)) * 2 ^ (8 * (exponent n - 3)) := by
    rw [← Nat.pow_add]
    congr 1
    omega
  rw [hsplit, floor, pow_256]
  apply Nat.mul_le_mul_right
  rw [Nat.le_div_iff_mul_le (Nat.two_pow_pos _), ← hsplit]
  exact pow_le_of_pos hn

theorem floor_mono {m n : Nat} (h : m ≤ n) : floor m ≤ floor n := by
  by_cases hm : m = 0
  · subst hm
    simp [floor]
  have hsize := Nat.size_le_size h
  have hem : exponent m = Nat.size m / 8 + 1 := if_neg hm
  have hen : exponent n = Nat.size n / 8 + 1 := if_neg (by omega)
  by_cases heq : exponent m - 3 = exponent n - 3
  · rw [floor, heq]
    exact Nat.mul_le_mul_right _ (Nat.div_le_div_right h)
  · calc floor m ≤ m := floor_le m
      _ ≤ 2 ^ Nat.size m := Nat.le_of_lt (lt_pow_size m)
      _ ≤ 2 ^ (Nat.size n - 1) := Nat.pow_le_pow_right (by decide) (by omega)
      _ ≤ floor n := pow_le_floor (by omega)

theorem encode_floor : encode (floor n) = encode n := by
  by_cases hn : n = 0
  · subst hn
    rfl
  have hlow := pow_le_floor (Nat.pos_of_ne_zero hn)
  have hpos : floor n ≠ 0 := Nat.ne_of_gt (Nat.lt_of_lt_of_le (Nat.two_pow_pos _) hlow)
  have hsize : Nat.size (floor n) = Nat.size n := by
    have hle := Nat.size_le_size (floor_le n)
    have hlt := Nat.lt_size.mpr hlow
    omega
  have hexponent : exponent (floor n) = exponent n := by
    rw [exponent, exponent, if_neg hpos, if_neg hn, hsize]
  rw [encode, encode, mantissa, mantissa, hexponent]
  split_ifs with hsmall
  · have hzero : exponent n - 3 = 0 := by omega
    rw [floor, hzero, Nat.pow_zero, Nat.div_one, Nat.mul_one]
  · rw [floor, Nat.mul_div_cancel _ (Nat.pow_pos (by decide))]

theorem floor_eq_self {m e : Nat} (hm : m < 2 ^ 23) :
    floor (m * 256 ^ e / 256 ^ 3) = m * 256 ^ e / 256 ^ 3 := by
  apply Nat.div_mul_cancel
  have hsize : Nat.size (m * 256 ^ e / 256 ^ 3) ≤ 23 + 8 * e - 24 := by
    rw [Nat.size_le, pow_256, pow_256]
    exact div_pow_lt (mul_pow_lt hm (le_refl _)) (by omega)
  by_cases he : e ≤ 3
  · have hzero : exponent (m * 256 ^ e / 256 ^ 3) - 3 = 0 := by
      unfold exponent
      split_ifs <;> omega
    rw [hzero]
    exact one_dvd _
  · have hle : exponent (m * 256 ^ e / 256 ^ 3) - 3 ≤ e - 3 := by
      unfold exponent
      split_ifs <;> omega
    rw [mul_pow_div m (by omega)] at hle ⊢
    exact (pow_dvd_pow 256 hle).trans (Nat.dvd_mul_left _ _)

def topThree : Nat :=
  if (Nat.size n + 7) / 8 ≤ 3 then n * 2 ^ (8 * (3 - (Nat.size n + 7) / 8))
  else n / 2 ^ (8 * ((Nat.size n + 7) / 8 - 3))

theorem topThree_of_clear {n : Nat} (hn : n = 0 ∨ size n % 8 ≠ 0) :
    exponent n = (size n + 7) / 8 ∧ mantissa n = topThree n := by
  have hexponent : exponent n = (size n + 7) / 8 := by
    by_cases hzero : n = 0
    · subst hzero
      rfl
    · rw [exponent, if_neg hzero]
      omega
  refine ⟨hexponent, ?_⟩
  rw [mantissa, topThree, hexponent, pow_256, pow_256]

theorem topThree_of_set {n : Nat} (hn : 0 < n) (hset : Nat.size n % 8 = 0) :
    exponent n = (Nat.size n + 7) / 8 + 1 ∧ mantissa n = topThree n / 256 ∧
      2 ^ 23 ≤ topThree n ∧ topThree n < 2 ^ 24 := by
  have hpos := Nat.size_pos.mpr hn
  have hlow := pow_le_of_pos hn
  have hhigh := lt_pow_size n
  have hexponent : exponent n = (Nat.size n + 7) / 8 + 1 := by
    rw [exponent, if_neg (by omega)]
    omega
  refine ⟨hexponent, ?_⟩
  rw [mantissa, topThree, hexponent, pow_256, pow_256]
  split_ifs with hsmall htop htop
  · have hbyte : 8 * (3 - (Nat.size n + 7) / 8) = 8 * (3 - ((Nat.size n + 7) / 8 + 1)) + 8 := by
      omega
    have hpow : 2 ^ 23 = 2 ^ (Nat.size n - 1) * 2 ^ (8 * (3 - (Nat.size n + 7) / 8)) := by
      rw [← Nat.pow_add]
      congr 1
      omega
    refine ⟨?_, ?_, ?_⟩
    · rw [hbyte, Nat.pow_add, ← Nat.mul_assoc]
      exact (Nat.mul_div_cancel _ (by decide)).symm
    · rw [hpow]
      exact Nat.mul_le_mul_right _ hlow
    · exact mul_pow_lt hhigh (by omega)
  · omega
  · have hsize : Nat.size n = 24 := by omega
    rw [hsize] at hlow hhigh ⊢
    omega
  · have hbyte : 8 * ((Nat.size n + 7) / 8 + 1 - 3) = 8 * ((Nat.size n + 7) / 8 - 3) + 8 := by
      omega
    refine ⟨?_, ?_, ?_⟩
    · rw [hbyte, Nat.pow_add, Nat.div_div_eq_div_mul]
    · rw [Nat.le_div_iff_mul_le (Nat.two_pow_pos _), ← Nat.pow_add]
      exact (Nat.pow_le_pow_right (by decide) (by omega)).trans hlow
    · exact div_pow_lt hhigh (by omega)

end Compact

/-! ### SetCompact -/

open BaseUint

/-- `SetCompact`: the number, `*pfNegative` and `*pfOverflow`. -/
def setCompact (nCompact : BitVec 32) : ArithUint256 × Bool × Bool :=
  let nSize := (nCompact >>> 24).toNat
  let nWord := nCompact &&& 0x007fffff#32
  let nWord := if nSize ≤ 3 then nWord >>> (8 * (3 - nSize)) else nWord
  let number : ArithUint256 := ofUInt64 (nWord.setWidth 64)
  (if nSize ≤ 3 then number else number.shiftLeft (8 * (nSize - 3)),
    decide (nWord ≠ 0#32) && decide (nCompact &&& 0x00800000#32 ≠ 0#32),
    decide (nWord ≠ 0#32) &&
      (decide (nSize > 34) || (decide (nWord > 0xff#32) && decide (nSize > 33)) ||
        (decide (nWord > 0xffff#32) && decide (nSize > 32))))

theorem value_ofUInt64 (b : BitVec 64) : (ofUInt64 b : ArithUint256).value = b.toNat := by
  have hpn : (ofUInt64 b : ArithUint256).pn =
      [b.setWidth 32, (b >>> 32).setWidth 32, 0#32, 0#32, 0#32, 0#32, 0#32, 0#32] := rfl
  rw [value, hpn]
  simp only [Limbs.value_cons, Limbs.value_nil, toNat_setWidth, toNat_ushiftRight,
    toNat_ofNat]
  omega

section Word
variable (nCompact : BitVec 32)

theorem toNat_exponent : (nCompact >>> 24).toNat = nCompact.toNat / 2 ^ 24 := by
  rw [toNat_ushiftRight, shiftRight_eq_div_pow]

theorem toNat_mantissa : (nCompact &&& 0x007fffff#32).toNat = nCompact.toNat % 2 ^ 23 := by
  have hmask : (0x007fffff#32).toNat = 2 ^ 23 - 1 := rfl
  rw [toNat_and, hmask, and_two_pow_sub_one_eq_mod]

theorem sign_ne_zero : nCompact &&& 0x00800000#32 ≠ 0#32 ↔ nCompact.toNat / 2 ^ 23 % 2 = 1 := by
  have hsign : (0x00800000#32) = 1#32 <<< 23 := by decide
  rw [hsign, and_bit_ne_zero _ (by decide), testBit_eq_decide_div_mod_eq, decide_eq_true_iff]

theorem value_setCompact : (setCompact nCompact).1.value =
      if nCompact.toNat / 2 ^ 24 ≤ 3 then
        nCompact.toNat % 2 ^ 23 / 256 ^ (3 - nCompact.toNat / 2 ^ 24)
      else nCompact.toNat % 2 ^ 23 * 256 ^ (nCompact.toNat / 2 ^ 24 - 3) % 2 ^ 256 := by
  have hwide : ∀ x : BitVec 32, (x.setWidth 64).toNat = x.toNat := by
    intro x
    rw [toNat_setWidth]
    omega
  simp only [setCompact, toNat_exponent]
  split_ifs with hsmall
  · rw [value_ofUInt64, hwide, toNat_ushiftRight, shiftRight_eq_div_pow, toNat_mantissa,
      Compact.pow_256]
  · rw [value_shiftLeft, value_ofUInt64, hwide, toNat_mantissa, Compact.pow_256]

theorem setCompact_negative (h : ¬ nCompact.toNat / 2 ^ 23 % 2 = 1) : (setCompact nCompact).2.1 = false := by
  rw [← sign_ne_zero] at h
  simp only [setCompact, decide_eq_false h, Bool.and_false]

theorem setCompact_overflow : (setCompact nCompact).2.2 = false ↔ nCompact.toNat % 2 ^ 23 = 0 ∨
      nCompact.toNat / 2 ^ 24 ≤ 34 ∧ (nCompact.toNat % 2 ^ 23 ≤ 0xff ∨ nCompact.toNat / 2 ^ 24 ≤ 33) ∧
        (nCompact.toNat % 2 ^ 23 ≤ 0xffff ∨ nCompact.toNat / 2 ^ 24 ≤ 32) := by
  simp only [setCompact, toNat_exponent, lt_def, ne_eq, ← toNat_inj]
  split_ifs with hsmall
  · have h33 : ¬ 33 < nCompact.toNat / 2 ^ 24 := by omega
    have h34 : ¬ 34 < nCompact.toNat / 2 ^ 24 := by omega
    have h32 : ¬ 32 < nCompact.toNat / 2 ^ 24 := by omega
    simp only [h34, h33, h32, decide_false, Bool.and_false, Bool.or_false, true_iff]
    omega
  · rw [toNat_mantissa]
    simp only [toNat_ofNat, Bool.and_eq_false_iff, Bool.or_eq_false_iff, decide_eq_false_iff_not]
    omega

theorem value_setCompact_of_fits (h : (setCompact nCompact).2.2 = false) : (setCompact nCompact).1.value =
    nCompact.toNat % 2 ^ 23 * 256 ^ (nCompact.toNat / 2 ^ 24) / 256 ^ 3 := by
  rw [setCompact_overflow] at h
  have hm : nCompact.toNat % 2 ^ 23 < 2 ^ 23 := Nat.mod_lt _ (by decide)
  rw [value_setCompact]
  generalize nCompact.toNat % 2 ^ 23 = m at h hm ⊢
  generalize nCompact.toNat / 2 ^ 24 = e at h ⊢
  split_ifs with hsmall
  · rw [← Nat.pow_sub_mul_pow 256 hsmall, Nat.mul_div_mul_right _ _ (Nat.pow_pos (by decide))]
  · rw [Compact.mul_pow_div m (by omega)]
    apply Nat.mod_eq_of_lt
    -- the bits of the mantissa are those that the exponent leaves room for
    obtain rfl | ⟨k, hk, hroom⟩ : m = 0 ∨ ∃ k, m < 2 ^ k ∧ k + 8 * (e - 3) ≤ 256 := by
      rcases h with h | ⟨h34, h33, h32⟩
      · exact Or.inl h
      · right
        by_cases he : e ≤ 32
        · exact ⟨23, hm, by omega⟩
        · by_cases he' : e ≤ 33
          · exact ⟨16, by omega, by omega⟩
          · exact ⟨8, by omega, by omega⟩
    · rw [Nat.zero_mul]
      decide
    · rw [Compact.pow_256]
      exact Compact.mul_pow_lt hk hroom

end Word

theorem toNat_encode {n : Nat} (hn : n < 2 ^ 256) : (BitVec.ofNat 32 (Compact.encode n)).toNat =
    Compact.exponent n * 2 ^ 24 + Compact.mantissa n := by
  have hmantissa := Compact.mantissa_lt n
  have hexponent := Compact.exponent_le hn
  rw [BitVec.toNat_ofNat, Compact.encode]
  omega

theorem flags_setCompact_encode {n : Nat} (hn : n < 2 ^ 256) :
    (setCompact (BitVec.ofNat 32 (Compact.encode n))).2 = (false, false) := by
  have hmantissa := Compact.mantissa_lt n
  have hexponent := Compact.exponent_le hn
  refine Prod.ext (setCompact_negative _ ?_) ((setCompact_overflow _).mpr (Or.inr ?_))
  · rw [toNat_encode hn]
    omega
  · have htop : Compact.exponent n = 33 → Compact.mantissa n < 2 ^ 16 := by
      intro h
      rw [Compact.mantissa, h, if_neg (by decide), div_lt_iff_lt_mul (by decide)]
      exact hn
    rw [toNat_encode hn]
    omega

theorem value_setCompact_encode {n : Nat} (hn : n < 2 ^ 256) :
    (setCompact (BitVec.ofNat 32 (Compact.encode n))).1.value = Compact.floor n := by
  have hmantissa := Compact.mantissa_lt n
  have hdiv : (Compact.exponent n * 2 ^ 24 + Compact.mantissa n) / 2 ^ 24 =
      Compact.exponent n := by omega
  have hmod : (Compact.exponent n * 2 ^ 24 + Compact.mantissa n) % 2 ^ 23 =
      Compact.mantissa n := by omega
  rw [value_setCompact, toNat_encode hn, hdiv, hmod]
  unfold Compact.mantissa Compact.floor
  split_ifs with hsmall
  · have hzero : Compact.exponent n - 3 = 0 := by omega
    rw [Nat.mul_div_cancel _ (Nat.pow_pos (by decide)), hzero, Nat.pow_zero, Nat.div_one,
      Nat.mul_one]
  · rw [Nat.mod_eq_of_lt]
    exact (Nat.div_mul_le_self _ _).trans_lt hn

/-! ### GetCompact -/

/-- `GetLow64`. -/
def BaseUint.getLow64 {W : Nat} (a : BaseUint W) : BitVec 64 :=
  (a.pn.getD 0 0#32).setWidth 64 ||| ((a.pn.getD 1 0#32).setWidth 64 <<< 32)

section
variable (a : ArithUint256)

/-- The first part of `GetCompact`: the bytes of the number, and the three most significant of
    them. -/
def topBytes : Nat × BitVec 32 :=
  let nSize := (a.bits + 7) / 8
  (nSize, if nSize ≤ 3 then (a.getLow64 <<< (8 * (3 - nSize))).setWidth 32
    else (a.shiftRight (8 * (nSize - 3))).getLow64.setWidth 32)

/-- `GetCompact`, with its two asserts. -/
def getCompact (fNegative : Bool) : Except String (BitVec 32) :=
  let top := topBytes a
  -- a mantissa with the sign bit set is moved down by one byte
  let (nSize, nCompact) :=
    if top.2 &&& 0x00800000#32 ≠ 0#32 then (top.1 + 1, top.2 >>> 8) else top
  if nCompact &&& ~~~0x007fffff#32 ≠ 0#32 then .error "(nCompact & ~0x007fffff) == 0"
  else if ¬nSize < 256 then .error "nSize < 256"
  else
    let nCompact := nCompact ||| (BitVec.ofNat 32 nSize <<< 24)
    .ok (nCompact ||| if fNegative && decide (nCompact &&& 0x007fffff#32 ≠ 0#32) then 0x00800000#32
      else 0#32)

theorem toNat_getLow64 : a.getLow64.toNat = a.value % 2 ^ 64 := by
  rcases a with ⟨pn, hwidth⟩
  match pn, hwidth with
  | p :: q :: rest, _ =>
    have hp := p.isLt
    have hlow : (p.setWidth 64).toNat = p.toNat := by
      rw [toNat_setWidth]
      omega
    have hhigh : (q.setWidth 64 <<< 32).toNat = 2 ^ 32 * q.toNat := by
      rw [toNat_shiftLeft, toNat_setWidth]
      omega
    show (p.setWidth 64 ||| (q.setWidth 64 <<< 32)).toNat = _
    rw [toNat_or, hlow, hhigh, Nat.or_comm, ← Nat.two_pow_add_eq_or_of_lt hp,
      value, Limbs.value_cons, Limbs.value_cons]
    omega

theorem toNat_getLow64_of_lt {a : ArithUint256} (h : a.value < 2 ^ 24) :
    (a.getLow64.setWidth 32).toNat = a.value := by
  rw [toNat_setWidth, toNat_getLow64]
  omega

theorem topBytes_eq : (topBytes a).1 = (Nat.size a.value + 7) / 8 ∧
      (topBytes a).2.toNat = Compact.topThree a.value := by
  have hlt := Compact.lt_pow_size a.value
  refine ⟨by rw [topBytes, bits_eq], ?_⟩
  simp only [topBytes, bits_eq, Compact.topThree]
  split_ifs with hsmall
  · have hfit : a.value * 2 ^ (8 * (3 - (Nat.size a.value + 7) / 8)) < 2 ^ 32 :=
      Compact.mul_pow_lt hlt (by omega)
    have hnumber : a.value < 2 ^ 24 :=
      hlt.trans_le (Nat.pow_le_pow_right (by decide) (by omega))
    have hmod : a.value % 2 ^ 64 = a.value := Nat.mod_eq_of_lt (by omega)
    rw [toNat_setWidth, toNat_shiftLeft, toNat_getLow64, hmod]
    omega
  · have hvalue := value_shiftRight a (8 * ((Nat.size a.value + 7) / 8 - 3))
    have hfit : a.value / 2 ^ (8 * ((Nat.size a.value + 7) / 8 - 3)) < 2 ^ 24 :=
      Compact.div_pow_lt hlt (by omega)
    rw [toNat_getLow64_of_lt (by rwa [hvalue]), hvalue]

theorem and_mask_eq_zero {x : BitVec 32} (hx : x.toNat < 2 ^ 23) :
    x &&& ~~~0x007fffff#32 = 0#32 := by
  have hmask : ∀ i < 23, (0x007fffff#32).getLsbD i = true := by decide
  apply eq_of_getLsbD_eq
  intro i hi
  rw [getLsbD_and, getLsbD_not]
  by_cases hlow : i < 23
  · simp [hmask i hlow]
  · have hpow : 2 ^ 23 ≤ 2 ^ i := Nat.pow_le_pow_right (by decide) (by omega)
    have hclear : x.getLsbD i = false := by
      exact Nat.testBit_lt_two_pow (by omega)
    simp [hclear]

theorem or_exponent {x : BitVec 32} {nSize : Nat} (hx : x.toNat < 2 ^ 23) (hsize : nSize < 256) :
    x ||| (BitVec.ofNat 32 nSize <<< 24) = BitVec.ofNat 32 (nSize * 2 ^ 24 + x.toNat) := by
  apply BitVec.eq_of_toNat_eq
  have hhigh : (BitVec.ofNat 32 nSize <<< 24).toNat = 2 ^ 24 * nSize := by
    rw [BitVec.toNat_shiftLeft, BitVec.toNat_ofNat]
    omega
  have hlow : x.toNat < 2 ^ 24 := by omega
  rw [BitVec.toNat_or, hhigh, Nat.or_comm, ← Nat.two_pow_add_eq_or_of_lt hlow, BitVec.toNat_ofNat]
  omega

/-- **GetCompact.** The asserts hold, and the bits are the compact form of the number. -/
theorem getCompact_eq :
    getCompact a false = .ok (BitVec.ofNat 32 (Compact.encode a.value)) := by
  obtain ⟨hsize, htop⟩ := topBytes_eq a
  have hmantissa := Compact.mantissa_lt a.value
  have hexponent : Compact.exponent a.value < 256 := by
    have := Compact.exponent_le a.value_lt
    omega
  -- whichever bytes are taken, they are the mantissa and its exponent
  have hfinish : ∀ x : BitVec 32, x.toNat = Compact.mantissa a.value →
      x &&& ~~~0x007fffff#32 = 0#32 ∧
        x ||| (BitVec.ofNat 32 (Compact.exponent a.value) <<< 24) =
          BitVec.ofNat 32 (Compact.encode a.value) := by
    intro x hx
    refine ⟨and_mask_eq_zero (by omega), ?_⟩
    rw [or_exponent (by omega) hexponent, hx, Compact.encode]
  simp only [getCompact, Bool.false_and, Bool.false_eq_true, if_false, BitVec.or_zero]
  by_cases hset : 0 < a.value ∧ size a.value % 8 = 0
  · obtain ⟨hexp, hman, hge, hlt⟩ := Compact.topThree_of_set hset.1 hset.2
    have hbit : (topBytes a).2 &&& 0x00800000#32 ≠ 0#32 := by
      rw [sign_ne_zero]
      omega
    have hshift : ((topBytes a).2 >>> 8).toNat = Compact.mantissa a.value := by
      rw [BitVec.toNat_ushiftRight, shiftRight_eq_div_pow, htop, hman]
    obtain ⟨hmask, hor⟩ := hfinish _ hshift
    rw [if_pos hbit]
    simp only [hmask, hsize, ← hexp, hor, hexponent, ne_eq, not_true_eq_false, if_false]
  · have hclear : a.value = 0 ∨ size a.value % 8 ≠ 0 := by omega
    obtain ⟨hexp, hman⟩ := Compact.topThree_of_clear hclear
    have hbit : ¬(topBytes a).2 &&& 0x00800000#32 ≠ 0#32 := by
      rw [sign_ne_zero]
      omega
    obtain ⟨hmask, hor⟩ := hfinish _ (htop.trans hman.symm)
    rw [if_neg hbit]
    simp only [hmask, hsize, ← hexp, hor, hexponent, ne_eq, not_true_eq_false, if_false]

end

/-- **Compact targets.** The form of a number stands for the largest number not above it that a word
    stands for. A word that fits and has no sign stands for its mantissa with its exponent. -/
theorem compact_form_exact (v : ArithUint256) :
    (∃ nBits, getCompact v false = .ok nBits ∧ (setCompact nBits).2 = (false, false) ∧
      (setCompact nBits).1.value ≤ v.value ∧
      (∀ w, (setCompact w).2 = (false, false) → (setCompact w).1.value ≤ v.value →
        (setCompact w).1.value ≤ (setCompact nBits).1.value) ∧
      getCompact (setCompact nBits).1 false = .ok nBits ∧
      ∀ v' : ArithUint256, v.value ≤ v'.value → ∃ nBits', getCompact v' false = .ok nBits' ∧
        (setCompact nBits).1.value ≤ (setCompact nBits').1.value) ∧
    ∀ w : BitVec 32, (setCompact w).2 = (false, false) → (setCompact w).1.value ≠ 0 →
      (setCompact w).1.value = w.toNat % 2 ^ 23 * 256 ^ (w.toNat / 2 ^ 24) / 256 ^ 3 := by
  have hfits : ∀ {w}, (setCompact w).2 = (false, false) → (setCompact w).1.value =
      w.toNat % 2 ^ 23 * 256 ^ (w.toNat / 2 ^ 24) / 256 ^ 3 :=
    fun h => value_setCompact_of_fits _ (congrArg Prod.snd h)
  have hvalue : ∀ a : ArithUint256, (setCompact (BitVec.ofNat 32 (Compact.encode a.value))).1.value =
      Compact.floor a.value := fun a => value_setCompact_encode a.value_lt
  refine ⟨⟨_, getCompact_eq v, flags_setCompact_encode v.value_lt, ?_, ?_, ?_, ?_⟩, fun w hw _ => hfits hw⟩
  · rw [hvalue]
    exact Compact.floor_le _
  · intro w hw hle
    have hself : Compact.floor (setCompact w).1.value = (setCompact w).1.value := by
      rw [hfits hw]
      exact Compact.floor_eq_self (mod_lt _ (by decide))
    rw [hvalue, ← hself]
    exact Compact.floor_mono hle
  · rw [getCompact_eq, hvalue, Compact.encode_floor]
  · intro v' hle
    refine ⟨_, getCompact_eq v', ?_⟩
    rw [hvalue, hvalue]
    exact Compact.floor_mono hle

/-! ### Work -/

namespace BaseUint

variable {W : Nat}

/-- `operator~`. -/
def complement (a : BaseUint W) : BaseUint W where
  pn := a.pn.map fun p => ~~~p
  width := by rw [List.length_map, a.width]

/-- `EqualTo`. -/
def equalTo (a : BaseUint W) (b : BitVec 64) : Bool :=
  (a.pn.drop 2).all (fun p => decide (p = 0#32)) && decide ((a.pn.getD 1 0#32).toNat = (b >>> 32).toNat) &&
    decide ((a.pn.getD 0 0#32).toNat = (b &&& 0xffffffff#64).toNat)

theorem value_complement_add (a : BaseUint W) : a.complement.value + a.value + 1 = 2 ^ (32 * W) := by
  have h := value_complement a.pn
  rw [a.width] at h
  exact h

theorem equalTo_zero (a : ArithUint256) : a.equalTo 0 = true ↔ a.value = 0 := by
  rcases a with ⟨pn, hwidth⟩
  match pn, hwidth with
  | [p₀, p₁, p₂, p₃, p₄, p₅, p₆, p₇], _ =>
    simp [equalTo, value, ← toNat_inj]
    omega

end BaseUint

/-- `GetBlockProof`, with the exception of the division. -/
def getBlockProof (nBits : BitVec 32) : Except String ArithUint256 :=
  let (bnTarget, fNegative, fOverflow) := setCompact nBits
  if fNegative || fOverflow || bnTarget.equalTo 0 then .ok (ofUInt64 0)
  else do
    let quotient ← bnTarget.complement.divide (bnTarget.add (ofUInt64 1))
    .ok (quotient.add (ofUInt64 1))

theorem value_setCompact_lt (nCompact : BitVec 32) : (setCompact nCompact).1.value < 2 ^ 256 - 1 := by
  rw [value_setCompact]
  split_ifs with hsmall
  · have hle := div_le_self (nCompact.toNat % 2 ^ 23) (256 ^ (3 - nCompact.toNat / 2 ^ 24))
    omega
  · have hdvd : 256 ∣ nCompact.toNat % 2 ^ 23 * 256 ^ (nCompact.toNat / 2 ^ 24 - 3) % 2 ^ 256 := by
      rw [dvd_mod_iff (by decide)]
      exact dvd_mul_of_dvd_right (dvd_pow_self 256 (by omega)) _
    omega

/-- **Work**: the number of hashes that a target stands for, which fits. -/
theorem getBlockProof_eq (nBits : BitVec 32) : ∃ p, getBlockProof nBits = .ok p ∧ p.value =
    if (setCompact nBits).2 = (false, false) ∧ (setCompact nBits).1.value ≠ 0 then
      2 ^ 256 / ((setCompact nBits).1.value + 1) else 0 := by
  have hlt := value_setCompact_lt nBits
  unfold getBlockProof
  generalize setCompact nBits = decoded at hlt ⊢
  obtain ⟨bnTarget, fNegative, fOverflow⟩ := decoded
  dsimp only at hlt ⊢
  by_cases hvalid : (fNegative, fOverflow) = (false, false) ∧ bnTarget.value ≠ 0
  · obtain ⟨hflags, hpos⟩ := hvalid
    obtain ⟨rfl, rfl⟩ := Prod.mk.inj hflags
    have hzero : ¬ bnTarget.equalTo 0 = true := fun h => hpos ((equalTo_zero _).mp h)
    have hcomplement : bnTarget.complement.value + (bnTarget.value + 1) = 2 ^ 256 :=
      value_complement_add bnTarget
    have hnext : (bnTarget.add (ofUInt64 1)).value = bnTarget.value + 1 := by
      rw [value_add, value_ofUInt64]
      exact mod_eq_of_lt (by simp; omega)
    obtain ⟨q, hdivide, hq⟩ := divide_eq (a := bnTarget.complement) (b := bnTarget.add (ofUInt64 1)) (by omega)
    -- adding the divisor once makes the complement the whole range
    have hquotient : 2 ^ 256 / (bnTarget.value + 1) = q.value + 1 := by
      rw [hq, hnext, ← hcomplement, add_div_right _ (succ_pos _)]
    have hfits : 2 ^ 256 / (bnTarget.value + 1) < 2 ^ 256 := div_lt_self (by decide) (by omega)
    refine ⟨q.add (ofUInt64 1), ?_, ?_⟩
    · rw [Bool.false_or, Bool.false_or, if_neg hzero, hdivide]
      rfl
    · rw [if_pos ⟨rfl, hpos⟩, value_add, value_ofUInt64, hquotient]
      exact mod_eq_of_lt (by simp; omega)
  · refine ⟨ofUInt64 0, if_pos ?_, by rw [if_neg hvalid, value_ofUInt64_zero]⟩
    rw [Bool.or_eq_true, equalTo_zero]
    cases fNegative <;> cases fOverflow <;> simp_all

/-- The operations on words are those on numbers, and the work of a target is exact. -/
theorem arithUint256_exact (a b : ArithUint256) (b32 : BitVec 32) (shift : Nat) (nBits : BitVec 32) :
    (a.add b).value = (a.value + b.value) % 2 ^ 256 ∧
    (a.sub b).value = (a.value + (2 ^ 256 - b.value)) % 2 ^ 256 ∧
    (a.mul32 b32).value = a.value * b32.toNat % 2 ^ 256 ∧
    (a.mul b).value = a.value * b.value % 2 ^ 256 ∧
    (a.shiftLeft shift).value = a.value * 2 ^ shift % 2 ^ 256 ∧
    (a.shiftRight shift).value = a.value / 2 ^ shift ∧
    (a.compareTo b = if a.value < b.value then -1 else if a.value > b.value then 1 else 0) ∧
    a.bits = size a.value ∧
    (b.value ≠ 0 → ∃ q, a.divide b = .ok q ∧ q.value = a.value / b.value) ∧
    ∃ p, getBlockProof nBits = .ok p ∧ p.value =
      if (setCompact nBits).2 = (false, false) ∧ (setCompact nBits).1.value ≠ 0 then
        2 ^ 256 / ((setCompact nBits).1.value + 1) else 0 :=
  ⟨value_add a b, value_sub_mod a b, value_mul32 a b32, value_mul a b, value_shiftLeft a shift,
    value_shiftRight a shift, compareTo_eq a b, bits_eq a, fun hb => divide_eq (pos_of_ne_zero hb),
    getBlockProof_eq nBits⟩

end Defcoin
