import Mathlib.Data.List.GetD
import Mathlib.Data.Nat.Digits.Lemmas

/-! # Numbers in machine words

  A natural number kept as a list of words of `w` bits, the least significant first. An operation
  that goes through the words with a carry is described by its column sums; one that moves bits is
  described by the bits of the whole number.
-/

namespace Limbs

open List Nat

variable {w : Nat}

/-! ### The number a list of words stands for -/

def value (l : List (BitVec w)) : Nat := Nat.ofDigits (2 ^ w) (l.map BitVec.toNat)

@[simp] theorem value_nil : value ([] : List (BitVec w)) = 0 := rfl

@[simp] theorem value_cons (x : BitVec w) (l : List (BitVec w)) :
    value (x :: l) = x.toNat + 2 ^ w * value l := by
  simp [value, ofDigits_cons]

variable {i j : Nat} (l : List (BitVec w))

theorem value_append (l' : List (BitVec w)) : value (l ++ l') = value l + 2 ^ (w * l.length) * value l' := by
  simp [value, ofDigits_append, pow_mul]

theorem value_replicate_zero (n : Nat) : value (replicate n 0#w) = 0 := by
  rw [value, map_replicate, BitVec.toNat_ofNat, zero_mod, ofDigits_replicate_zero]

theorem value_lt : value l < 2 ^ (w * l.length) := by
  induction l with
  | nil => simp
  | cons x l ih =>
    rw [length_cons, mul_add, mul_one, pow_add, mul_comm (2 ^ (w * _))]
    calc x.toNat + 2 ^ w * value l < 2 ^ w * (value l + 1) := by rw [mul_add]; omega
      _ ≤ 2 ^ w * 2 ^ (w * l.length) := mul_le_mul_left _ ih

/-! ### Bits -/

/-- Bit `n` of the whole number. -/
def bitAt (l : List (BitVec w)) (n : Nat) : Bool := (l.getD (n / w) 0#w).getLsbD (n % w)

theorem testBit_value (hw : 0 < w) (l : List (BitVec w)) (n : Nat) :
    (value l).testBit n = bitAt l n := by
  induction l generalizing n with
  | nil => simp [bitAt]
  | cons x l ih =>
    rw [value_cons, Nat.add_comm, Nat.testBit_two_pow_mul_add _ x.isLt]
    split_ifs with hn
    · rw [bitAt, Nat.div_eq_of_lt hn, Nat.mod_eq_of_lt hn, getD_cons_zero, BitVec.testBit_toNat]
    · have hle : w ≤ n := Nat.le_of_not_lt hn
      have hdiv := Nat.div_eq_sub_div hw hle
      have hmod := Nat.mod_eq_sub_mod hle
      rw [ih, bitAt, bitAt, hdiv, hmod, getD_cons_succ]

theorem bitAt_eq_false (hw : 0 < w) {l : List (BitVec w)} {n : Nat} (hn : w * l.length ≤ n) :
    bitAt l n = false := by
  have hdiv : l.length ≤ n / w := (le_div_iff_mul_le hw).mpr (by rwa [mul_comm])
  rw [bitAt, getD_eq_default _ _ hdiv]
  exact BitVec.getLsbD_zero

theorem value_eq_of_bits (hw : 0 < w) {l : List (BitVec w)} {m : Nat} (hm : m < 2 ^ (w * l.length))
    (h : ∀ n < w * l.length, bitAt l n = m.testBit n) : value l = m := by
  apply Nat.eq_of_testBit_eq
  intro n
  rw [testBit_value hw]
  by_cases hn : n < w * l.length
  · exact h n hn
  · have hpow : 2 ^ (w * l.length) ≤ 2 ^ n := Nat.pow_le_pow_right (by decide) (by omega)
    rw [bitAt_eq_false hw (by omega), Nat.testBit_lt_two_pow (by omega)]

theorem bitAt_modify_or (hj : j < l.length) (y : BitVec w) (n : Nat) :
    bitAt (l.modify j fun x => x ||| y) n =
      (bitAt l n || (decide (n / w = j) && y.getLsbD (n % w))) := by
  by_cases hword : n / w = j
  · have hget : (l.modify j fun x => x ||| y).getD (n / w) 0#w = l.getD (n / w) 0#w ||| y := by
      simp [hword, hj]
    rw [bitAt, hget, BitVec.getLsbD_or, decide_eq_true hword, Bool.true_and, bitAt]
  · have hget : (l.modify j fun x => x ||| y).getD (n / w) 0#w = l.getD (n / w) 0#w := by
      rw [getD_eq_getElem?_getD, List.getElem?_modify_ne _ _ (Ne.symm hword),
        ← getD_eq_getElem?_getD]
    rw [bitAt, hget, decide_eq_false hword, Bool.false_and, Bool.or_false, bitAt]

theorem bitAt_modify_or_if {l : List (BitVec w)} {P : Prop} [Decidable P] (hj : P → j < l.length)
    (y : BitVec w) (n : Nat) : bitAt (if P then l.modify j fun x => x ||| y else l) n = true ↔
      bitAt l n = true ∨ P ∧ n / w = j ∧ y.getLsbD (n % w) = true := by
  split_ifs with hP
  · simp [bitAt_modify_or l (hj hP), hP]
  · simp [hP]

/-- **Gathering bits.** A loop over words, each of whose rounds sets the bits `move` takes from its
    word, sets the bits `move` takes from the list. -/
theorem bitAt_gather (hw : 0 < w) (a : List (BitVec w)) (move : Nat → Option Nat)
    (round : List (BitVec w) → Nat → List (BitVec w))
    (hlength : ∀ pn i, (round pn i).length = pn.length)
    (hround : ∀ pn i n, pn.length = a.length → i < a.length → n < w * a.length →
      (bitAt (round pn i) n = true ↔
        bitAt pn n = true ∨ ∃ m ∈ move n, m / w = i ∧ bitAt a m = true)) :
    let result := (List.range a.length).foldl round (List.replicate a.length 0#w)
    result.length = a.length ∧
      ∀ n < w * a.length, (bitAt result n = true ↔ ∃ m ∈ move n, bitAt a m = true) := by
  have hrounds : ∀ k ≤ a.length,
      let result := (List.range k).foldl round (List.replicate a.length 0#w)
      result.length = a.length ∧ ∀ n < w * a.length,
        (bitAt result n = true ↔ ∃ m ∈ move n, m / w < k ∧ bitAt a m = true) := by
    intro k
    induction k with
    | zero =>
      intro _
      refine ⟨length_replicate, fun n hn => ?_⟩
      simp [bitAt]
    | succ k ih =>
      intro hk
      obtain ⟨hlen, hbits⟩ := ih (by omega)
      simp only [range_succ, foldl_append, foldl_cons, foldl_nil]
      refine ⟨by rw [hlength, hlen], fun n hn => ?_⟩
      rw [hround _ _ _ hlen (by omega) hn, hbits n hn, ← exists_or]
      apply exists_congr
      intro m
      have hiff : m / w < k + 1 ↔ m / w < k ∨ m / w = k := by omega
      tauto
  obtain ⟨hlen, hbits⟩ := hrounds a.length (le_refl _)
  refine ⟨hlen, fun n hn => ?_⟩
  rw [hbits n hn]
  constructor
  · rintro ⟨m, hm, -, hbit⟩
    exact ⟨m, hm, hbit⟩
  · rintro ⟨m, hm, hbit⟩
    refine ⟨m, hm, ?_, hbit⟩
    by_contra hge
    have hle : w * a.length ≤ m := by
      rw [Nat.mul_comm]
      exact (Nat.le_div_iff_mul_le hw).mp (by omega)
    rw [bitAt_eq_false hw hle] at hbit
    cases hbit

/-! ### Carries -/

/-- The words left by column sums `ns` and a carry `c` into the first. -/
def carryThrough (w : Nat) : Nat → List Nat → List (BitVec w)
  | _, [] => []
  | c, n :: ns => BitVec.ofNat w (c + n) :: carryThrough w ((c + n) / 2 ^ w) ns

@[simp] theorem carryThrough_length (c : Nat) (ns : List Nat) :
    (carryThrough w c ns).length = ns.length := by
  induction ns generalizing c with
  | nil => rfl
  | cons n ns ih => simp [carryThrough, ih]

/-- **Carry rule.** The words hold the sum of the columns, up to what is carried out of the last
    word. -/
theorem value_carryThrough (c : Nat) (ns : List Nat) :
    value (carryThrough w c ns) = (c + Nat.ofDigits (2 ^ w) ns) % 2 ^ (w * ns.length) := by
  induction ns generalizing c with
  | nil => simp [carryThrough, Nat.mod_one]
  | cons n ns ih =>
    have hpow : 2 ^ (w * (n :: ns).length) = 2 ^ w * 2 ^ (w * ns.length) := by
      rw [length_cons, Nat.mul_add, Nat.mul_one, Nat.pow_add, Nat.mul_comm]
    have hcolumns : c + Nat.ofDigits (2 ^ w) (n :: ns) = c + n + 2 ^ w * Nat.ofDigits (2 ^ w) ns := by
      rw [Nat.ofDigits_cons, Nat.add_assoc]
    rw [carryThrough, value_cons, ih, BitVec.toNat_ofNat, hcolumns, hpow, Nat.mod_mul,
      Nat.add_mul_mod_self_left, Nat.add_mul_div_left _ _ (Nat.two_pow_pos w)]

/-! ### Comparing from the top word -/

theorem value_take_succ (hi : i < l.length) :
    value (l.take (i + 1)) = value (l.take i) + 2 ^ (w * i) * (l.getD i 0#w).toNat := by
  rw [take_succ_eq_append_getElem hi, value_append, length_take, min_eq_left (by omega),
    value_cons, value_nil, mul_zero, add_zero, getD_eq_getElem _ _ hi]

theorem value_take_lt (hi : i ≤ l.length) : value (l.take i) < 2 ^ (w * i) := by
  have h := value_lt (l.take i)
  rwa [length_take, min_eq_left hi] at h

theorem value_take (hi : i ≤ l.length) : value (l.take i) = value l % 2 ^ (w * i) := by
  have hsplit := value_append (l.take i) (l.drop i)
  rw [take_append_drop, length_take, min_eq_left hi] at hsplit
  rw [hsplit, add_mul_mod_self_left, mod_eq_of_lt (value_take_lt l hi)]

theorem value_take_succ_lt {l l' : List (BitVec w)} (hi : i < l.length) (hi' : i < l'.length)
    (hword : (l.getD i 0#w).toNat < (l'.getD i 0#w).toNat) :
    value (l.take (i + 1)) < value (l'.take (i + 1)) := by
  have hlow := value_take_lt l (le_of_lt hi)
  rw [value_take_succ l hi, value_take_succ l' hi']
  calc value (l.take i) + 2 ^ (w * i) * (l.getD i 0#w).toNat
      < 2 ^ (w * i) * ((l.getD i 0#w).toNat + 1) := by
        rw [mul_add]
        omega
    _ ≤ 2 ^ (w * i) * (l'.getD i 0#w).toNat := mul_le_mul_left _ hword
    _ ≤ value (l'.take i) + 2 ^ (w * i) * (l'.getD i 0#w).toNat := le_add_left _ _

end Limbs
