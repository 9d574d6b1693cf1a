import Mathlib.Data.Nat.Bitwise

/-! # Bits packed into bytes

  A set of natural numbers kept as a byte for every eight of them, the most significant bit first.
  Setting or clearing a bit rewrites one byte; the laws below say which bits of the whole sequence
  change.
-/

namespace PackedBits

/-- The byte with only bit `b` set, counted from the most significant. -/
def mask (b : Nat) : UInt8 := UInt8.ofNat (2 ^ (7 - b))

variable (x : UInt8)

/-- Bit `b` of a byte, counted from the most significant. -/
def bit (b : Nat) : Bool := x &&& mask b != 0

/-! ### One byte -/

theorem toNat_mask (b : Nat) : (mask b).toNat = 2 ^ (7 - b) := by
  have h : 2 ^ (7 - b) < 2 ^ 8 := Nat.pow_lt_pow_right (by decide) (by omega)
  simpa [mask] using h

theorem bit_eq_testBit (b : Nat) : bit x b = x.toNat.testBit (7 - b) := by
  have hzero : (x &&& mask b = 0) ↔ x.toNat.testBit (7 - b) = false := by
    rw [← UInt8.toNat_inj, UInt8.toNat_and, toNat_mask, Nat.and_two_pow]
    cases x.toNat.testBit (7 - b) <;> simp
  cases hbit : x.toNat.testBit (7 - b) with
  | false => simpa [bit] using hzero.mpr hbit
  | true =>
    have hne : x &&& mask b ≠ 0 := fun h => by
      rw [hzero.mp h] at hbit
      cases hbit
    simpa [bit] using hne

theorem bit_or_mask {a b : Nat} (ha : a < 8) (hb : b < 8) :
    bit (x ||| mask a) b = (bit x b || decide (b = a)) := by
  have hiff : (7 - a = 7 - b) ↔ (b = a) := by omega
  rw [bit_eq_testBit, bit_eq_testBit, UInt8.toNat_or, toNat_mask, Nat.testBit_or,
    Nat.testBit_two_pow]
  simp only [hiff]

theorem bit_and_mask {a b : Nat} (ha : a < 8) (hb : b < 8) :
    bit (x &&& (0xff ^^^ mask a)) b = (bit x b && decide (b ≠ a)) := by
  have hiff : (7 - a = 7 - b) ↔ (b = a) := by omega
  have hff : 0xff.testBit (7 - b) = true := by
    have : ∀ c < 8, 0xff.testBit c = true := by decide
    exact this _ (by omega)
  have hmask : (0xff ^^^ mask a).toNat = 0xff ^^^ 2 ^ (7 - a) := by
    rw [UInt8.toNat_xor, toNat_mask]
    rfl
  rw [bit_eq_testBit, bit_eq_testBit, UInt8.toNat_and, hmask, Nat.testBit_and, Nat.testBit_xor, hff,
    Nat.testBit_two_pow]
  simp [hiff]

theorem eq_of_bit_eq {x y : UInt8} (h : ∀ b < 8, bit x b = bit y b) : x = y := by
  rw [← UInt8.toNat_inj]
  refine Nat.eq_of_testBit_eq fun i => ?_
  by_cases hi : i < 8
  · have hbit := h (7 - i) (by omega)
    have heq : 7 - (7 - i) = i := by omega
    rwa [bit_eq_testBit, bit_eq_testBit, heq] at hbit
  · have hx := UInt8.toNat_lt x
    have hy := UInt8.toNat_lt y
    have hpow : 2 ^ 8 ≤ 2 ^ i := Nat.pow_le_pow_right (by decide) (by omega)
    rw [Nat.testBit_lt_two_pow (by omega), Nat.testBit_lt_two_pow (by omega)]

/-! ### The whole sequence -/

section
variable (bytes : Nat → UInt8)

/-- Member `i` of the set stored in `bytes`. -/
def contains (i : Nat) : Bool := bit (bytes (i / 8)) (i % 8)

/-- Store `v` as byte `k`. -/
def store (k : Nat) (v : UInt8) : Nat → UInt8 := fun j =>
  if j = k then v else bytes j

theorem contains_store_or (i j : Nat) :
    contains (store bytes (i / 8) (bytes (i / 8) ||| mask (i % 8))) j =
      (contains bytes j || decide (j = i)) := by
  unfold contains store
  by_cases hk : j / 8 = i / 8
  · have hiff : (j % 8 = i % 8) ↔ (j = i) := by omega
    rw [if_pos hk, bit_or_mask _ (by omega) (by omega), hk]
    simp [hiff]
  · have hne : j ≠ i := by
      rintro rfl
      exact hk rfl
    simp [hk, hne]

theorem contains_store_and (i j : Nat) :
    contains (store bytes (i / 8) (bytes (i / 8) &&& (0xff ^^^ mask (i % 8)))) j =
      (contains bytes j && decide (j ≠ i)) := by
  unfold contains store
  by_cases hk : j / 8 = i / 8
  · have hiff : (j % 8 = i % 8) ↔ (j = i) := by omega
    rw [if_pos hk, bit_and_mask _ (by omega) (by omega), hk]
    simp [hiff]
  · have hne : j ≠ i := by
      rintro rfl
      exact hk rfl
    simp [hk, hne]

end

theorem eq_of_contains_eq {bytes bytes' : Nat → UInt8}
    (h : ∀ i, contains bytes i = contains bytes' i) : bytes = bytes' := by
  funext k
  refine eq_of_bit_eq fun b hb => ?_
  have hi := h (8 * k + b)
  have hdiv : (8 * k + b) / 8 = k := by omega
  have hmod : (8 * k + b) % 8 = b := by omega
  rwa [contains, contains, hdiv, hmod] at hi

/-! ### Packing -/

variable (member : Nat → Bool)

/-- The bytes that store the set `member`. -/
def pack : Nat → UInt8 := fun k =>
  (List.range 8).foldl (fun x b => if member (8 * k + b) then x ||| mask b else x) 0

theorem bit_foldl_or {b : Nat} (hb : b < 8) :
    ∀ (bs : List Nat) (x : UInt8), (∀ c ∈ bs, c < 8) →
      bit (bs.foldl (fun x c => if member c then x ||| mask c else x) x) b =
        (bit x b || (decide (b ∈ bs) && member b)) := by
  intro bs
  induction bs with
  | nil => intro x _; simp
  | cons c bs ih =>
    intro x hbs
    have hc : c < 8 := hbs c (by simp)
    rw [List.foldl_cons, ih _ fun c' hc' => hbs c' (by simp [hc'])]
    by_cases hbc : b = c
    · subst hbc
      cases hmem : member b with
      | false => simp
      | true => simp [bit_or_mask x hb hb]
    · cases hmem : member c with
      | false => simp [hbc]
      | true => simp [bit_or_mask x hc hb, hbc]

@[simp] theorem contains_pack (i : Nat) : contains (pack member) i = member i := by
  have hi : i % 8 < 8 := by omega
  have hsum : 8 * (i / 8) + i % 8 = i := by omega
  have h := bit_foldl_or (fun b => member (8 * (i / 8) + b)) hi (List.range 8) 0 (by simp)
  rw [hsum] at h
  rw [contains, pack, h]
  simp [hi, bit]

theorem eq_pack {bytes : Nat → UInt8} {member : Nat → Bool} (h : ∀ i, contains bytes i = member i) :
    bytes = pack member :=
  eq_of_contains_eq fun i => by rw [h, contains_pack]

end PackedBits
