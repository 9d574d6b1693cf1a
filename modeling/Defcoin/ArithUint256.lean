import Defcoin.Framework.Limbs
import Mathlib.Data.Nat.Bitwise
import Mathlib.Data.Nat.Size

/-! # Multi-word unsigned integers (arith_uint256.h, arith_uint256.cpp)

  `base_uint<BITS>` keeps a number in `WIDTH` words of 32 bits. Every operation is modelled on the
  words as the source computes it, and then described by one lemma on the number the words stand
  for.
-/

namespace Defcoin

open Limbs List Nat

/-- `base_uint<BITS>` with `WIDTH = BITS / 32`. -/
structure BaseUint (WIDTH : Nat) where
  pn : List (BitVec 32)
  width : pn.length = WIDTH
  deriving DecidableEq

/-- `arith_uint256`. -/
abbrev ArithUint256 := BaseUint 8

namespace BaseUint

variable {W : Nat}

def value (a : BaseUint W) : Nat := Limbs.value a.pn

variable (n : BitVec 64) (pn : List (BitVec 32)) (a b : BaseUint W) (p : BitVec 32) (shift : Nat)

theorem value_lt : a.value < 2 ^ (32 * W) := by
  have h := Limbs.value_lt a.pn
  rwa [a.width] at h

/-- `base_uint(uint64_t b)`. -/
def ofUInt64 (b : BitVec 64) : BaseUint W where
  pn := (range W).map fun i =>
    if i = 0 then b.setWidth 32 else if i = 1 then (b >>> 32).setWidth 32 else 0
  width := by simp

/-! ### Shifts -/

section
variable (a : List (BitVec 32)) (shift : Nat) (pn : List (BitVec 32))

/-- One round of the loop of `operator<<=`. -/
def shiftLeftRound (i : Nat) :
    List (BitVec 32) :=
  let k := shift / 32
  let s := shift % 32
  let pn :=
    if i + k + 1 < a.length ∧ s ≠ 0 then
      pn.modify (i + k + 1) fun x => x ||| (a.getD i 0#32 >>> (32 - s))
    else pn
  if i + k < a.length then pn.modify (i + k) fun x => x ||| (a.getD i 0#32 <<< s) else pn

/-- One round of the loop of `operator>>=`. -/
def shiftRightRound (i : Nat) :
    List (BitVec 32) :=
  let k := shift / 32
  let s := shift % 32
  let pn :=
    if k + 1 ≤ i ∧ s ≠ 0 then
      pn.modify (i - k - 1) fun x => x ||| (a.getD i 0#32 <<< (32 - s))
    else pn
  if k ≤ i then pn.modify (i - k) fun x => x ||| (a.getD i 0#32 >>> s) else pn

theorem shiftLeftRound_length (i : Nat) : (shiftLeftRound a shift pn i).length = pn.length := by
  simp only [shiftLeftRound]
  split_ifs <;> simp

theorem shiftRightRound_length (i : Nat) : (shiftRightRound a shift pn i).length = pn.length := by
  simp only [shiftRightRound]
  split_ifs <;> simp

end

/-- Bit `n` of a number shifted left comes from bit `n - shift`. -/
def fromBelow (shift n : Nat) : Option Nat := if shift ≤ n then some (n - shift) else none

theorem bitAt_shiftLeftRound (a : List (BitVec 32)) (shift : Nat) (pn : List (BitVec 32))
    (i n : Nat) (hlen : pn.length = a.length) (_hi : i < a.length) (hn : n < 32 * a.length) :
    bitAt (shiftLeftRound a shift pn i) n = true ↔
      bitAt pn n = true ∨ ∃ m ∈ fromBelow shift n, m / 32 = i ∧ bitAt a m = true := by
  have hbound : ∀ m, (a.getD i 0#32).getLsbD m = true → m < 32 := fun _ => BitVec.lt_of_getLsbD
  have hmove : (∃ m ∈ fromBelow shift n, m / 32 = i ∧ bitAt a m = true) ↔
      shift ≤ n ∧ (n - shift) / 32 = i ∧ (a.getD i 0#32).getLsbD ((n - shift) % 32) = true := by
    unfold fromBelow bitAt
    split_ifs with hle
    · simp only [Option.mem_some_iff, exists_eq_left', hle, true_and]
      constructor <;> rintro ⟨rfl, hbit⟩ <;> exact ⟨rfl, hbit⟩
    · simp [hle]
  simp only [shiftLeftRound]
  rw [hmove, bitAt_modify_or_if (by split_ifs <;> simp [hlen]), bitAt_modify_or_if (by omega),
    BitVec.getLsbD_ushiftRight, BitVec.getLsbD_shiftLeft, or_assoc]
  apply or_congr_right
  constructor
  · rintro (⟨⟨-, hs⟩, hword, hbit⟩ | ⟨-, hword, hbit⟩)
    · have hlt := hbound _ hbit
      have hmod : (n - shift) % 32 = 32 - shift % 32 + n % 32 := by omega
      exact ⟨by omega, by omega, by rw [hmod]; exact hbit⟩
    · simp only [Bool.and_eq_true, Bool.not_eq_true', decide_eq_false_iff_not] at hbit
      have hmod : (n - shift) % 32 = n % 32 - shift % 32 := by omega
      exact ⟨by omega, by omega, by rw [hmod]; exact hbit.2⟩
  · rintro ⟨hle, hword, hbit⟩
    -- the low bits of a word come from the top of the word below
    by_cases hs : n % 32 < shift % 32
    · have hmod : (n - shift) % 32 = 32 - shift % 32 + n % 32 := by omega
      rw [hmod] at hbit
      exact Or.inl ⟨by omega, by omega, hbit⟩
    · have hmod : (n - shift) % 32 = n % 32 - shift % 32 := by omega
      rw [hmod] at hbit
      exact Or.inr ⟨by omega, by omega, by
        rw [hbit]
        simp [Nat.mod_lt, Nat.le_of_not_lt hs]⟩

theorem bitAt_shiftRightRound (a : List (BitVec 32)) (shift : Nat) (pn : List (BitVec 32))
    (i n : Nat) (hlen : pn.length = a.length) (hi : i < a.length) (_hn : n < 32 * a.length) :
    bitAt (shiftRightRound a shift pn i) n = true ↔
      bitAt pn n = true ∨ ∃ m ∈ some (n + shift), m / 32 = i ∧ bitAt a m = true := by
  have hbound : ∀ m, (a.getD i 0#32).getLsbD m = true → m < 32 := fun _ => BitVec.lt_of_getLsbD
  have hmove : (∃ m ∈ some (n + shift), m / 32 = i ∧ bitAt a m = true) ↔
      (n + shift) / 32 = i ∧ (a.getD i 0#32).getLsbD ((n + shift) % 32) = true := by
    simp only [Option.mem_some_iff, exists_eq_left']
    constructor <;> rintro ⟨rfl, hbit⟩ <;> exact ⟨rfl, hbit⟩
  simp only [shiftRightRound]
  rw [hmove, bitAt_modify_or_if (by split_ifs <;> simp [hlen] <;> omega),
    bitAt_modify_or_if (by omega), BitVec.getLsbD_ushiftRight, BitVec.getLsbD_shiftLeft, or_assoc]
  apply or_congr_right
  constructor
  · rintro (⟨⟨hk, hs⟩, hword, hbit⟩ | ⟨hk, hword, hbit⟩)
    · simp only [Bool.and_eq_true, Bool.not_eq_true', decide_eq_false_iff_not] at hbit
      have hmod : (n + shift) % 32 = n % 32 - (32 - shift % 32) := by omega
      exact ⟨by omega, by rw [hmod]; exact hbit.2⟩
    · have hlt := hbound _ hbit
      have hmod : (n + shift) % 32 = shift % 32 + n % 32 := by omega
      exact ⟨by omega, by rw [hmod]; exact hbit⟩
  · rintro ⟨hword, hbit⟩
    by_cases hs : n % 32 + shift % 32 < 32
    · have hmod : (n + shift) % 32 = shift % 32 + n % 32 := by omega
      rw [hmod] at hbit
      exact Or.inr ⟨by omega, by omega, hbit⟩
    · have hmod : (n + shift) % 32 = n % 32 - (32 - shift % 32) := by omega
      rw [hmod] at hbit
      have hge : 32 - shift % 32 ≤ n % 32 := by omega
      exact Or.inl ⟨by omega, by omega, by
        rw [hbit]
        simp [mod_lt, hge]⟩

/-- `operator<<=`. -/
def shiftLeft (a : BaseUint W) (shift : Nat) : BaseUint W where
  pn := (range a.pn.length).foldl (shiftLeftRound a.pn shift)
    (replicate a.pn.length 0#32)
  width := (bitAt_gather (by decide) a.pn (fromBelow shift) _ (shiftLeftRound_length a.pn shift)
    (bitAt_shiftLeftRound a.pn shift)).1.trans a.width

/-- `operator>>=`. -/
def shiftRight (a : BaseUint W) (shift : Nat) : BaseUint W where
  pn := (range a.pn.length).foldl (shiftRightRound a.pn shift)
    (replicate a.pn.length 0#32)
  width := (bitAt_gather (by decide) a.pn (fun n => some (n + shift)) _
    (shiftRightRound_length a.pn shift) (bitAt_shiftRightRound a.pn shift)).1.trans a.width

theorem value_shiftLeft : (a.shiftLeft shift).value = a.value * 2 ^ shift % 2 ^ (32 * W) := by
  have hgather := bitAt_gather (by decide) a.pn (fromBelow shift) _
    (shiftLeftRound_length a.pn shift) (bitAt_shiftLeftRound a.pn shift)
  obtain ⟨hlen, hbits⟩ := hgather
  apply value_eq_of_bits (by decide)
  · rw [(a.shiftLeft shift).width]
    exact Nat.mod_lt _ (Nat.two_pow_pos _)
  · intro n hn
    rw [(a.shiftLeft shift).width] at hn
    have hbit := hbits n (by rwa [a.width])
    rw [Bool.eq_iff_iff]
    refine hbit.trans ?_
    rw [Nat.testBit_mod_two_pow, Nat.testBit_mul_two_pow, value, testBit_value (by decide)]
    unfold fromBelow
    split_ifs with hle
    · simp [hn, hle]
    · simp [hle]

theorem value_shiftRight : (a.shiftRight shift).value = a.value / 2 ^ shift := by
  have hgather := bitAt_gather (by decide) a.pn (fun n => some (n + shift)) _
    (shiftRightRound_length a.pn shift) (bitAt_shiftRightRound a.pn shift)
  obtain ⟨hlen, hbits⟩ := hgather
  apply value_eq_of_bits (by decide)
  · rw [(a.shiftRight shift).width]
    exact (div_le_self _ _).trans_lt a.value_lt
  · intro n hn
    rw [(a.shiftRight shift).width] at hn
    have hbit := hbits n (by rwa [a.width])
    rw [Bool.eq_iff_iff]
    refine hbit.trans ?_
    rw [testBit_div_two_pow, value, testBit_value (by decide)]
    simp

/-! ### Addition, subtraction and multiplication -/

/-- The loop of `operator+=`. -/
def addLoop : BitVec 64 → List (BitVec 32) → List (BitVec 32) → List (BitVec 32)
  | carry, p :: pn, q :: qn =>
    let n := carry + p.setWidth 64 + q.setWidth 64
    (n &&& 0xffffffff#64).setWidth 32 :: addLoop (n >>> 32) pn qn
  | _, _, _ => []

/-- The loop of `operator*=(uint32_t b32)`. -/
def mulLoop (b32 : BitVec 32) : BitVec 64 → List (BitVec 32) → List (BitVec 32)
  | _, [] => []
  | carry, p :: pn =>
    let n := carry + b32.setWidth 64 * p.setWidth 64
    (n &&& 0xffffffff#64).setWidth 32 :: mulLoop b32 (n >>> 32) pn

/-- The loop of `operator++`: it stops at the first word that does not wrap to zero. -/
def incrementLoop : List (BitVec 32) → List (BitVec 32)
  | [] => []
  | p :: pn =>
    if p + 1#32 = 0#32 then (p + 1#32) :: incrementLoop pn else (p + 1#32) :: pn

/-- The inner loop of `operator*=(const base_uint& b)`. -/
def mulAddLoop (x : BitVec 32) : BitVec 64 → List (BitVec 32) → List (BitVec 32) → List (BitVec 32)
  | carry, p :: pn, q :: qn =>
    let n := carry + p.setWidth 64 + x.setWidth 64 * q.setWidth 64
    (n &&& 0xffffffff#64).setWidth 32 :: mulAddLoop x (n >>> 32) pn qn
  | _, _, _ => []

theorem setWidth_low_word : (n &&& 0xffffffff#64).setWidth 32 = BitVec.ofNat 32 n.toNat := by
  apply BitVec.eq_of_toNat_eq
  have hmask : (0xffffffff#64).toNat = 2 ^ 32 - 1 := rfl
  rw [BitVec.toNat_setWidth, BitVec.toNat_and, hmask, and_two_pow_sub_one_eq_mod,
    BitVec.toNat_ofNat, mod_mod]

theorem toNat_high_word : (n >>> 32).toNat = n.toNat / 2 ^ 32 := by
  rw [BitVec.toNat_ushiftRight, shiftRight_eq_div_pow]

theorem mulAddLoop_eq (x : BitVec 32) : ∀ (carry : BitVec 64) (pn qn : List (BitVec 32)),
    carry.toNat < 2 ^ 32 → mulAddLoop x carry pn qn =
      carryThrough 32 carry.toNat (zipWith (fun p q => p.toNat + x.toNat * q.toNat) pn qn)
  | _, [], _, _ => by simp [mulAddLoop, carryThrough]
  | _, _ :: _, [], _ => by simp [mulAddLoop, carryThrough]
  | carry, p :: pn, q :: qn, hcarry => by
    -- the largest column sum is the largest number of 64 bits
    have hprod : x.toNat * q.toNat ≤ (2 ^ 32 - 1) * (2 ^ 32 - 1) :=
      Nat.mul_le_mul (Nat.le_pred_of_lt x.isLt) (Nat.le_pred_of_lt q.isLt)
    have hx : x.toNat % 2 ^ 64 = x.toNat := Nat.mod_eq_of_lt (by omega)
    have hq : q.toNat % 2 ^ 64 = q.toNat := Nat.mod_eq_of_lt (by omega)
    have hsum : (carry + p.setWidth 64 + x.setWidth 64 * q.setWidth 64).toNat =
        carry.toNat + (p.toNat + x.toNat * q.toNat) := by
      simp only [BitVec.toNat_add, BitVec.toNat_mul, BitVec.toNat_setWidth, hx, hq]
      omega
    have hnext : ((carry + p.setWidth 64 + x.setWidth 64 * q.setWidth 64) >>> 32).toNat < 2 ^ 32 := by
      rw [toNat_high_word]
      omega
    rw [mulAddLoop, mulAddLoop_eq x _ pn qn hnext, setWidth_low_word, toNat_high_word, hsum,
      zipWith_cons_cons, carryThrough]

theorem addLoop_eq (carry : BitVec 64) (pn qn : List (BitVec 32)) :
    addLoop carry pn qn = mulAddLoop 1#32 carry pn qn := by
  induction pn generalizing carry qn with
  | nil => rfl
  | cons p pn ih =>
    cases qn with
    | nil => rfl
    | cons q qn =>
      have hone : (1#32).setWidth 64 * q.setWidth 64 = q.setWidth 64 := by simp
      rw [addLoop, mulAddLoop, hone, ih]

theorem mulLoop_eq (b32 : BitVec 32) (carry : BitVec 64) (pn : List (BitVec 32)) :
    mulLoop b32 carry pn = mulAddLoop b32 carry (replicate pn.length 0#32) pn := by
  induction pn generalizing carry with
  | nil => rfl
  | cons p pn ih =>
    have hzero : carry + (0#32).setWidth 64 = carry := by simp
    rw [mulLoop, length_cons, replicate_succ, mulAddLoop, hzero, ih]

theorem incrementLoop_length : (incrementLoop pn).length = pn.length := by
  induction pn with
  | nil => rfl
  | cons p pn ih =>
    rw [incrementLoop]
    split_ifs <;> simp [ih]

theorem value_incrementLoop :
    Limbs.value (incrementLoop pn) = (Limbs.value pn + 1) % 2 ^ (32 * pn.length) := by
  induction pn with
  | nil => simp [incrementLoop]
  | cons p pn ih =>
    have hlt := Limbs.value_lt pn
    have hpow : 2 ^ (32 * (p :: pn).length) = 2 ^ 32 * 2 ^ (32 * pn.length) := by
      rw [length_cons, mul_add, pow_add, mul_comm]
    have hzero : p + 1#32 = 0#32 ↔ p.toNat + 1 = 2 ^ 32 := by
      rw [← BitVec.toNat_inj]
      simp only [BitVec.toNat_add, BitVec.toNat_ofNat]
      omega
    rw [incrementLoop, value_cons, hpow]
    split_ifs with hwrap
    · have hp' : p.toNat = 2 ^ 32 - 1 := by have := hzero.mp hwrap; omega
      have hsum : p.toNat + 2 ^ 32 * Limbs.value pn + 1 = 2 ^ 32 * (Limbs.value pn + 1) := by
        omega
      rw [value_cons, hwrap, ih, hsum, mul_mod_mul_left]
      simp
    · have hne : ¬p.toNat + 1 = 2 ^ 32 := fun h => hwrap (hzero.mpr h)
      have hword : (p + 1#32).toNat = p.toNat + 1 := by
        simp only [BitVec.toNat_add, BitVec.toNat_ofNat]
        omega
      have hfit : p.toNat + 2 ^ 32 * Limbs.value pn + 1 < 2 ^ 32 * 2 ^ (32 * pn.length) := by
        calc p.toNat + 2 ^ 32 * Limbs.value pn + 1 < 2 ^ 32 * (Limbs.value pn + 1) := by
              omega
          _ ≤ 2 ^ 32 * 2 ^ (32 * pn.length) := mul_le_mul_left _ hlt
      rw [value_cons, mod_eq_of_lt hfit]
      omega

/-- `operator+=`. -/
def add (a b : BaseUint W) : BaseUint W where
  pn := addLoop 0 a.pn b.pn
  width := by
    rw [addLoop_eq, mulAddLoop_eq _ _ _ _ (by decide), carryThrough_length, length_zipWith, a.width,
      b.width, Nat.min_self]

/-- `operator-()`: every word is inverted and one is added. -/
def neg (a : BaseUint W) : BaseUint W where
  pn := incrementLoop (a.pn.map fun p => ~~~p)
  width := by rw [incrementLoop_length, length_map, a.width]

/-- `operator-=`. -/
def sub (a b : BaseUint W) : BaseUint W := a.add b.neg

/-- `operator*=(uint32_t b32)`. -/
def mul32 (a : BaseUint W) (b32 : BitVec 32) : BaseUint W where
  pn := mulLoop b32 0 a.pn
  width := by
    rw [mulLoop_eq, mulAddLoop_eq _ _ _ _ (by decide), carryThrough_length, length_zipWith,
      length_replicate, Nat.min_self, a.width]

theorem ofDigits_columns (x : Nat) : ∀ pn qn : List (BitVec 32), pn.length ≤ qn.length →
    ofDigits (2 ^ 32) (zipWith (fun p q => p.toNat + x * q.toNat) pn qn) =
      Limbs.value pn + x * Limbs.value (qn.take pn.length)
  | [], _, _ => by simp
  | p :: pn, q :: qn, hlen => by
    have ih := ofDigits_columns x pn qn (by simpa using hlen)
    rw [zipWith_cons_cons, ofDigits_cons, ih, length_cons, take_succ_cons, value_cons, value_cons]
    ring

theorem value_mulAddLoop (x : BitVec 32) {pn qn : List (BitVec 32)} (hlen : pn.length ≤ qn.length) :
    Limbs.value (mulAddLoop x 0 pn qn) =
      (Limbs.value pn + x.toNat * Limbs.value qn) % 2 ^ (32 * pn.length) := by
  rw [mulAddLoop_eq _ _ _ _ (by decide), value_carryThrough, ofDigits_columns _ _ _ hlen,
    value_take qn hlen, length_zipWith, min_eq_left hlen]
  show (0 + _) % _ = _
  rw [zero_add, add_mod, mul_mod_mod, ← add_mod]

theorem value_add : (a.add b).value = (a.value + b.value) % 2 ^ (32 * W) := by
  show Limbs.value (addLoop 0 a.pn b.pn) = _
  rw [addLoop_eq, value_mulAddLoop _ (a.width.trans b.width.symm).le, a.width]
  exact congrArg (fun n => (a.value + n) % _) (one_mul _)

theorem value_complement :
    Limbs.value (pn.map fun p => ~~~p) + Limbs.value pn + 1 = 2 ^ (32 * pn.length) := by
  induction pn with
  | nil => rfl
  | cons p pn ih =>
    have hnot : (~~~p).toNat + p.toNat + 1 = 2 ^ 32 := by
      rw [BitVec.toNat_not]
      omega
    have hpow : 2 ^ (32 * (p :: pn).length) = 2 ^ 32 * 2 ^ (32 * pn.length) := by
      rw [length_cons, mul_add, pow_add, mul_comm]
    rw [hpow, ← ih]
    calc (~~~p).toNat + 2 ^ 32 * Limbs.value (pn.map fun p => ~~~p) +
          (p.toNat + 2 ^ 32 * Limbs.value pn) + 1
        = ((~~~p).toNat + p.toNat + 1) +
          2 ^ 32 * (Limbs.value (pn.map fun p => ~~~p) + Limbs.value pn) := by ring
      _ = 2 ^ 32 * (Limbs.value (pn.map fun p => ~~~p) + Limbs.value pn + 1) := by
          rw [hnot]
          ring

theorem value_neg : a.neg.value = (2 ^ (32 * W) - a.value) % 2 ^ (32 * W) := by
  have hcomplement := value_complement a.pn
  rw [a.width] at hcomplement
  have hrest : Limbs.value (a.pn.map fun p => ~~~p) + 1 = 2 ^ (32 * W) - a.value := by
    rw [value]
    omega
  show Limbs.value (incrementLoop (a.pn.map fun p => ~~~p)) = _
  rw [value_incrementLoop, length_map, a.width, hrest]

theorem value_sub_mod : (a.sub b).value = (a.value + (2 ^ (32 * W) - b.value)) % 2 ^ (32 * W) := by
  rw [sub, value_add, value_neg, add_mod_mod]

theorem value_sub {a b : BaseUint W} (hle : b.value ≤ a.value) :
    (a.sub b).value = a.value - b.value := by
  have ha := a.value_lt
  have hsum : a.value + (2 ^ (32 * W) - b.value) = a.value - b.value + 2 ^ (32 * W) := by omega
  rw [value_sub_mod, hsum, add_mod_right, mod_eq_of_lt (by omega)]

theorem value_mul32 (b32 : BitVec 32) : (a.mul32 b32).value = a.value * b32.toNat % 2 ^ (32 * W) := by
  show Limbs.value (mulLoop b32 0 a.pn) = _
  rw [mulLoop_eq, value_mulAddLoop _ length_replicate.le, value_replicate_zero, length_replicate, a.width,
    zero_add, mul_comm]
  rfl

/-- One round of the outer loop: the words from `j` on are changed. -/
def mulRound (pn qn a : List (BitVec 32)) (j : Nat) : List (BitVec 32) :=
  a.take j ++ mulAddLoop (pn.getD j 0#32) 0 (a.drop j) qn

theorem mulRound_spec {qn a : List (BitVec 32)} {j : Nat} (ha : a.length = W) (hqn : qn.length = W)
    (hj : j < W) : (mulRound pn qn a j).length = W ∧ Limbs.value (mulRound pn qn a j) =
      (Limbs.value a + 2 ^ (32 * j) * (pn.getD j 0#32).toNat * Limbs.value qn) % 2 ^ (32 * W) := by
  have htake : (a.take j).length = j := by rw [length_take, ha, Nat.min_eq_left hj.le]
  have hdrop : (a.drop j).length = W - j := by rw [length_drop, ha]
  have hpow : 2 ^ (32 * W) = 2 ^ (32 * j) * 2 ^ (32 * (W - j)) := by
    rw [← Nat.pow_add]
    congr 1
    omega
  have hlow := value_take_lt a (i := j) (by omega)
  have hsplit := value_append (a.take j) (a.drop j)
  rw [take_append_drop, htake] at hsplit
  constructor
  · rw [mulRound, length_append, mulAddLoop_eq _ _ _ _ (by decide), carryThrough_length, length_zipWith]
    omega
  · have hsum : Limbs.value a + 2 ^ (32 * j) * (pn.getD j 0#32).toNat * Limbs.value qn = Limbs.value (a.take j) +
        2 ^ (32 * j) * (Limbs.value (a.drop j) + (pn.getD j 0#32).toNat * Limbs.value qn) := by
      rw [hsplit]
      ring
    rw [hsum, hpow, Nat.mod_mul, Nat.add_mul_mod_self_left, Nat.mod_eq_of_lt hlow,
      Nat.add_mul_div_left _ _ (Nat.two_pow_pos _), Nat.div_eq_of_lt hlow, Nat.zero_add]
    rw [mulRound, value_append, htake, value_mulAddLoop _ (by omega), hdrop]

theorem mulRounds_spec : ∀ j ≤ W,
    ((range j).foldl (mulRound a.pn b.pn) (replicate W 0#32)).length = W ∧
      Limbs.value ((range j).foldl (mulRound a.pn b.pn) (replicate W 0#32)) =
        Limbs.value (a.pn.take j) * b.value % 2 ^ (32 * W) := by
  intro j
  induction j with
  | zero =>
    simp [value_replicate_zero]
  | succ j ih =>
    intro hj
    obtain ⟨hlength, hvalue⟩ := ih (by omega)
    rw [range_succ, foldl_append, foldl_cons, foldl_nil]
    obtain ⟨hlength', hvalue'⟩ := mulRound_spec a.pn hlength b.width hj
    refine ⟨hlength', ?_⟩
    rw [hvalue', hvalue, mod_add_mod, value_take_succ _ (by rw [a.width]; exact hj), add_mul]
    rfl

/-- `operator*=(const base_uint& b)`. -/
def mul (a b : BaseUint W) : BaseUint W where
  pn := (List.range W).foldl (mulRound a.pn b.pn) (List.replicate W 0#32)
  width := (mulRounds_spec a b W le_rfl).1

theorem value_mul : (a.mul b).value = a.value * b.value % 2 ^ (32 * W) := by
  have hall := take_of_length_le (le_of_eq a.width)
  show Limbs.value ((range W).foldl (mulRound a.pn b.pn) (replicate W 0#32)) = _
  rw [(mulRounds_spec a b W le_rfl).2, hall]
  rfl

/-! ### Comparison and the highest bit -/

/-- The loop of `CompareTo`, over the words below `i`. -/
def compareFrom (pn qn : List (BitVec 32)) : Nat → Int
  | 0 => 0
  | i + 1 =>
    if pn.getD i 0#32 < qn.getD i 0#32 then -1
    else if pn.getD i 0#32 > qn.getD i 0#32 then 1
    else compareFrom pn qn i

/-- `CompareTo`. -/
def compareTo (a b : BaseUint W) : Int := compareFrom a.pn b.pn W

theorem compareFrom_eq (qn : List (BitVec 32)) : ∀ i, i ≤ pn.length → i ≤ qn.length →
    compareFrom pn qn i = if Limbs.value (pn.take i) < Limbs.value (qn.take i) then -1
      else if Limbs.value (pn.take i) > Limbs.value (qn.take i) then 1 else 0 := by
  intro i
  induction i with
  | zero => intro _ _; simp [compareFrom]
  | succ i ih =>
    intro hp hq
    rw [compareFrom]
    by_cases hlt : pn.getD i 0#32 < qn.getD i 0#32
    · rw [if_pos hlt, if_pos (value_take_succ_lt hp hq hlt)]
    by_cases hgt : pn.getD i 0#32 > qn.getD i 0#32
    · have hless := value_take_succ_lt hq hp hgt
      rw [if_neg hlt, if_pos hgt, if_neg (by omega), if_pos hless]
    · rw [if_neg hlt, if_neg hgt]
      have heq := BitVec.le_antisymm (BitVec.not_lt.mp hgt) (BitVec.not_lt.mp hlt)
      rw [ih (by omega) (by omega), value_take_succ pn hp, value_take_succ qn hq, heq]
      simp only [add_lt_add_iff_right]

theorem compareTo_eq :
    a.compareTo b = if a.value < b.value then -1 else if a.value > b.value then 1 else 0 := by
  have ha := take_of_length_le (le_of_eq a.width)
  have hb := take_of_length_le (le_of_eq b.width)
  rw [compareTo, compareFrom_eq _ _ _ (by rw [a.width]) (by rw [b.width]), ha, hb]
  rfl

/-- `operator>=`. -/
def ge (a b : BaseUint W) : Bool := decide (a.compareTo b ≥ 0)

/-- `operator>`. -/
def gt (a b : BaseUint W) : Bool := decide (a.compareTo b > 0)

theorem ge_iff : a.ge b = true ↔ b.value ≤ a.value := by
  rw [ge, decide_eq_true_iff, compareTo_eq]
  split_ifs <;> omega

theorem gt_iff : a.gt b = true ↔ b.value < a.value := by
  rw [gt, decide_eq_true_iff, compareTo_eq]
  split_ifs <;> omega

/-- The inner loop of `bits()`: `nbits` counts down to 1. -/
def wordBits (p : BitVec 32) : Nat → Nat
  | 0 => 1
  | nbits + 1 => if p &&& (1#32 <<< (nbits + 1)) ≠ 0#32 then nbits + 2 else wordBits p nbits

/-- The outer loop of `bits()`, over the words below `pos`. -/
def bitsFrom (pn : List (BitVec 32)) : Nat → Nat
  | 0 => 0
  | pos + 1 =>
    if pn.getD pos 0#32 ≠ 0#32 then 32 * pos + wordBits (pn.getD pos 0#32) 31
    else bitsFrom pn pos

/-- `bits()`. -/
def bits (a : BaseUint W) : Nat := bitsFrom a.pn W

theorem size_eq_of_bounds {n k : Nat} (hlow : 2 ^ k ≤ n) (hhigh : n < 2 ^ (k + 1)) :
    size n = k + 1 :=
  le_antisymm (size_le.mpr hhigh) (lt_size.mpr hlow)

theorem and_bit_ne_zero {n : Nat} (hn : n < 32) : p &&& (1#32 <<< n) ≠ 0#32 ↔ p.toNat.testBit n = true := by
  have hone : (1#32 <<< n).toNat = 2 ^ n := by
    rw [BitVec.toNat_shiftLeft, Nat.shiftLeft_eq]
    have : 2 ^ n < 2 ^ 32 := Nat.pow_lt_pow_right (by decide) hn
    norm_num
    omega
  rw [ne_eq, ← BitVec.toNat_inj, BitVec.toNat_and, hone, Nat.and_two_pow]
  cases p.toNat.testBit n <;> simp

theorem wordBits_eq (hp : 0 < p.toNat) : ∀ nbits, nbits < 32 →
    p.toNat < 2 ^ (nbits + 1) → wordBits p nbits = Nat.size p.toNat := by
  intro nbits
  induction nbits with
  | zero =>
    intro _ hlt
    rw [wordBits, size_eq_of_bounds hp hlt]
  | succ nbits ih =>
    intro hn hlt
    rw [wordBits]
    split_ifs with hset
    · have hbit := (and_bit_ne_zero p hn).mp hset
      rw [size_eq_of_bounds (Nat.ge_two_pow_of_testBit hbit) hlt]
    · have hclear : p.toNat < 2 ^ (nbits + 1) := by
        by_contra hge
        have hdiv : p.toNat / 2 ^ (nbits + 1) = 1 := by
          apply Nat.div_eq_of_lt_le
          · omega
          · omega
        apply hset
        rw [and_bit_ne_zero p hn, Nat.testBit_eq_decide_div_mod_eq, hdiv]
        decide
      exact ih (by omega) hclear

theorem bitsFrom_eq : ∀ pos, pos ≤ pn.length →
    bitsFrom pn pos = size (Limbs.value (pn.take pos)) := by
  intro pos
  induction pos with
  | zero => intro _; simp [bitsFrom]
  | succ pos ih =>
    intro hpos
    have hlow := value_take_lt pn (le_of_lt hpos)
    rw [bitsFrom, value_take_succ pn hpos]
    generalize pn.getD pos 0#32 = p
    split_ifs with hne
    · have hp : 0 < p.toNat := by
        apply pos_of_ne_zero
        intro hzero
        exact hne (BitVec.eq_of_toNat_eq hzero)
      have hsize := size_pos.mpr hp
      rw [wordBits_eq p hp 31 (by decide) p.isLt]
      -- the top word decides the highest bit
      obtain ⟨k, hk⟩ : ∃ k, size p.toNat = k + 1 := ⟨size p.toNat - 1, by omega⟩
      have hlo : 2 ^ k ≤ p.toNat := lt_size.mp (by omega)
      have hhi := size_le.mp (le_of_eq hk)
      rw [hk]
      symm
      apply size_eq_of_bounds
      · calc 2 ^ (32 * pos + k) = 2 ^ (32 * pos) * 2 ^ k := pow_add _ _ _
          _ ≤ 2 ^ (32 * pos) * p.toNat := mul_le_mul_left _ hlo
          _ ≤ _ := le_add_left _ _
      · calc Limbs.value (pn.take pos) + 2 ^ (32 * pos) * p.toNat
            < 2 ^ (32 * pos) * (p.toNat + 1) := by
              rw [mul_add]
              omega
          _ ≤ 2 ^ (32 * pos) * 2 ^ (k + 1) := mul_le_mul_left _ hhi
          _ = 2 ^ (32 * pos + k + 1) := by rw [← pow_add, add_assoc]
    · have hzero : p = 0#32 := not_not.mp hne
      rw [ih (by omega), hzero]
      simp

theorem bits_eq : a.bits = size a.value := by
  have hall := take_of_length_le (le_of_eq a.width)
  rw [bits, bitsFrom_eq _ _ (by rw [a.width]), hall]
  rfl

/-! ### Division -/

/-- `pn[shift / 32] |= (1 << (shift & 31))`. -/
def setBit (a : BaseUint W) (shift : Nat) : BaseUint W where
  pn := a.pn.modify (shift / 32) fun x => x ||| (1#32 <<< (shift % 32))
  width := by rw [length_modify, a.width]

/-- The loop of `operator/=`, with `shift + 1` rounds left: the quotient and the remainder. -/
def divideLoop : Nat → BaseUint W → BaseUint W → BaseUint W → BaseUint W × BaseUint W
  | 0, num, _, quotient => (quotient, num)
  | shift + 1, num, div, quotient =>
    if num.ge div then
      divideLoop shift (num.sub div) (div.shiftRight 1) (quotient.setBit shift)
    else divideLoop shift num (div.shiftRight 1) quotient

/-- `operator/=`. -/
def divide (a b : BaseUint W) : Except String (BaseUint W) :=
  let quotient : BaseUint W := ofUInt64 0
  if b.bits = 0 then .error "Division by zero"
  else if b.bits > a.bits then .ok quotient
  else
    let shift := a.bits - b.bits
    .ok (divideLoop (shift + 1) a (b.shiftLeft shift) quotient).1

theorem value_setBit {shift : Nat} (hshift : shift < 32 * W) (hclear : a.value % 2 ^ (shift + 1) = 0) :
    (a.setBit shift).value = a.value + 2 ^ shift := by
  have hlt : a.value + 2 ^ shift < 2 ^ (32 * W) := by
    -- both are multiples of powers below the width
    obtain ⟨m, hm⟩ := Nat.dvd_of_mod_eq_zero hclear
    have hsplit : 2 ^ (32 * W) = 2 ^ (shift + 1) * 2 ^ (32 * W - (shift + 1)) := by
      rw [← Nat.pow_add]
      congr 1
      omega
    have hbelow : m < 2 ^ (32 * W - (shift + 1)) := by
      have ha := a.value_lt
      rw [hm, hsplit] at ha
      exact Nat.lt_of_mul_lt_mul_left ha
    calc a.value + 2 ^ shift < 2 ^ (shift + 1) * (m + 1) := by
          rw [Nat.mul_add]
          omega
      _ ≤ 2 ^ (32 * W) := by
          rw [hsplit]
          exact Nat.mul_le_mul_left _ hbelow
  apply value_eq_of_bits (by decide)
  · rwa [(a.setBit shift).width]
  · intro n _
    have hor : a.value + 2 ^ shift = a.value ||| 2 ^ shift := by
      obtain ⟨m, hm⟩ := Nat.dvd_of_mod_eq_zero hclear
      rw [hm]
      exact Nat.two_pow_add_eq_or_of_lt (Nat.pow_lt_pow_right (by decide) (by omega)) m
    have hword : shift / 32 < a.pn.length := by
      rw [a.width]
      omega
    rw [hor, Nat.testBit_or, Nat.testBit_two_pow, value, testBit_value (by decide), setBit,
      bitAt_modify_or _ hword, BitVec.getLsbD_shiftLeft, BitVec.getLsbD_one]
    congr 1
    rw [Bool.eq_iff_iff]
    simp only [Bool.and_eq_true, decide_eq_true_eq, Bool.not_eq_true', decide_eq_false_iff_not]
    omega

/-- **Restoring division.** With the divisor aligned at `shift`, the rounds left add to the quotient
    what is left of the number divided by it. -/
theorem value_divideLoop {D : Nat} (hD : 0 < D) : ∀ (rounds : Nat) (num div quotient : BaseUint W),
    rounds ≤ 32 * W → (0 < rounds → div.value = D * 2 ^ (rounds - 1)) →
    num.value < D * 2 ^ rounds → quotient.value % 2 ^ rounds = 0 →
    (divideLoop rounds num div quotient).1.value = quotient.value + num.value / D := by
  intro rounds
  induction rounds with
  | zero =>
    intro num div quotient _ _ hnum _
    rw [Nat.pow_zero, Nat.mul_one] at hnum
    rw [divideLoop, Nat.div_eq_of_lt hnum, Nat.add_zero]
  | succ shift ih =>
    intro num div quotient hrounds hdiv hnum hclear
    have hdiv := hdiv (by omega)
    rw [Nat.add_sub_cancel] at hdiv
    have hhalf : D * 2 ^ (shift + 1) = D * 2 ^ shift + D * 2 ^ shift := by ring
    have hclear' : quotient.value % 2 ^ shift = 0 := by
      have hdvd : 2 ^ shift ∣ 2 ^ (shift + 1) := Nat.pow_dvd_pow 2 (by omega)
      exact Nat.mod_eq_zero_of_dvd (hdvd.trans (Nat.dvd_of_mod_eq_zero hclear))
    have hnext : 0 < shift → (div.shiftRight 1).value = D * 2 ^ (shift - 1) := by
      intro hpos
      obtain ⟨k, rfl⟩ : ∃ k, shift = k + 1 := ⟨shift - 1, by omega⟩
      rw [value_shiftRight, hdiv, Nat.add_sub_cancel, Nat.pow_succ, Nat.pow_one, ← Nat.mul_assoc,
        Nat.mul_div_cancel _ (by decide)]
    rw [divideLoop]
    split_ifs with hge
    -- the divisor fits: its multiple moves from the number to the quotient
    · rw [ge_iff] at hge
      have hbit := value_setBit quotient (by omega) hclear
      have hquotient : (quotient.setBit shift).value % 2 ^ shift = 0 := by
        rw [hbit, Nat.add_mod_right, hclear']
      have hrest : (num.sub div).value = num.value - D * 2 ^ shift := by
        rw [value_sub hge, hdiv]
      rw [ih _ _ _ (by omega) hnext (by omega) hquotient, hbit, hrest,
        Nat.sub_mul_div, Nat.add_assoc, Nat.add_sub_cancel']
      rw [Nat.le_div_iff_mul_le hD, Nat.mul_comm, ← hdiv]
      exact hge
    · rw [ge_iff] at hge
      exact ih _ _ _ (by omega) hnext (by omega) hclear'

theorem value_ofUInt64_zero : (ofUInt64 0 : BaseUint W).value = 0 := by
  have hzero : (ofUInt64 0 : BaseUint W).pn = replicate W 0#32 := by
    apply ext_getElem
    · simp [ofUInt64]
    · simp [ofUInt64]
  rw [value, hzero, value_replicate_zero]

theorem divide_eq {a b : BaseUint W} (hb : 0 < b.value) :
    ∃ q : BaseUint W, a.divide b = .ok q ∧ q.value = a.value / b.value := by
  have hsize := Nat.size_pos.mpr hb
  rw [divide, bits_eq, bits_eq, if_neg (by omega)]
  split_ifs with hlarge
  · refine ⟨_, rfl, ?_⟩
    have hlt : a.value < b.value := by
      have ha : a.value < 2 ^ Nat.size a.value := Nat.size_le.mp (le_refl _)
      have hb := Nat.lt_size.mp hlarge
      omega
    rw [value_ofUInt64_zero, Nat.div_eq_of_lt hlt]
  · refine ⟨_, rfl, ?_⟩
    have hafit := Nat.size_le.mpr a.value_lt
    have hatop : a.value < 2 ^ Nat.size a.value := Nat.size_le.mp (le_refl _)
    have hbtop : b.value < 2 ^ Nat.size b.value := Nat.size_le.mp (le_refl _)
    have hblow : 2 ^ (Nat.size b.value - 1) ≤ b.value := Nat.lt_size.mp (by omega)
    -- aligning the divisor with the number loses no bits
    have haligned : (b.shiftLeft (Nat.size a.value - Nat.size b.value)).value =
        b.value * 2 ^ (Nat.size a.value - Nat.size b.value) := by
      rw [value_shiftLeft, Nat.mod_eq_of_lt]
      calc b.value * 2 ^ (Nat.size a.value - Nat.size b.value)
          < 2 ^ Nat.size b.value * 2 ^ (Nat.size a.value - Nat.size b.value) :=
            Nat.mul_lt_mul_of_pos_right hbtop (Nat.two_pow_pos _)
        _ = 2 ^ Nat.size a.value := by
            rw [← Nat.pow_add]
            congr 1
            omega
        _ ≤ 2 ^ (32 * W) := Nat.pow_le_pow_right (by decide) hafit
    have hnum : a.value < b.value * 2 ^ (Nat.size a.value - Nat.size b.value + 1) := by
      calc a.value < 2 ^ Nat.size a.value := hatop
        _ = 2 ^ (Nat.size b.value - 1) * 2 ^ (Nat.size a.value - Nat.size b.value + 1) := by
            rw [← Nat.pow_add]
            congr 1
            omega
        _ ≤ _ := Nat.mul_le_mul_right _ hblow
    rw [value_divideLoop hb _ _ _ _ (by omega) (fun _ => haligned) hnum
      (by rw [value_ofUInt64_zero, Nat.zero_mod]), value_ofUInt64_zero, Nat.zero_add]

end BaseUint

end Defcoin
