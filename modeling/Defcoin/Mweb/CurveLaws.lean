import Mathlib.Data.BitVec
import Mathlib.Tactic.Abel
import Defcoin.Framework.Naming
import Defcoin.Framework.Outcome
import Defcoin.Mweb.Block

/-! # Commitment sums in the group of the curve

  What the curve library documents about the functions collected in `Crypto`: commitments and
  blinding factors name points and scalars, a commitment to `v` with blinding factor `r` is the
  point `v * H + r * G`, and a commitment of all zeros stands for no commitment.
-/

namespace Defcoin.Mweb

open List BigInt Outcome

/-- The documented behaviour of the curve library, over the group `P` of points and the group `S` of
    scalars. -/
structure CurveLaws (cr : Crypto) (P S : Type) [AddCommGroup P] [AddCommGroup S] where
  points : Naming Commitment P
  scalars : Naming BlindingFactor S
  points_zero : points.encode 0 = zero
  scalars_zero : scalars.encode 0 = zero
  /-- the multiples of `G`, the generator for blinding factors -/
  mulG : S →+ P
  mulG_injective : Function.Injective mulG
  /-- the generator for values -/
  genH : P
  value_ne_zero : ∀ v : Nat, 0 < v → v < 2 ^ 64 → v • genH ≠ 0
  pedersenCommit : ∀ v b c, cr.pedersenCommit v b = some c ↔
    ∃ s, scalars.decode b = some s ∧ v • genH + mulG s ≠ 0 ∧ c = points.encode (v • genH + mulG s)
  pedersenCommitSum : ∀ pos neg c, (∀ x ∈ pos ++ neg, x ≠ zero) →
    (cr.pedersenCommitSum pos neg = some c ↔ ∃ p n, points.total pos = some p ∧
      points.total neg = some n ∧ p ≠ n ∧ c = points.encode (p - n))
  pedersenBlindSum : ∀ pos neg b, cr.pedersenBlindSum pos neg = some b ↔
    ∃ p n, scalars.total pos = some p ∧ scalars.total neg = some n ∧ b = scalars.encode (p - n)
  publicKeyFrom : ∀ c k, cr.publicKeyFrom c = some k → c ≠ zero
  publicKeysCalculate : ∀ b k, cr.publicKeysCalculate b = some k → ∃ s, scalars.decode b = some s
  /-- signatures that verify in parts verify together -/
  schnorrBatchVerify : ∀ (parts : List (List SignedMessage)) (all : List SignedMessage),
    (∀ part ∈ parts, cr.schnorrBatchVerify part = true) → all.Perm parts.flatten →
      cr.schnorrBatchVerify all = true
  /-- range proofs that verify in parts verify together -/
  bulletproofsBatchVerify : ∀ (parts : List (List ProofData)) (all : List ProofData),
    (∀ part ∈ parts, cr.bulletproofsBatchVerify part = true) → all.Perm parts.flatten →
      cr.bulletproofsBatchVerify all = true

theorem BigInt.isZero_iff {n : Nat} (b : BigInt n) : b.isZero = true ↔ b = zero := by
  constructor
  · intro h
    ext1
    rw [zero, eq_replicate_iff]
    refine ⟨b.size, fun x hx => ?_⟩
    simpa using all_eq_true.mp h x hx
  · intro h
    subst h
    simp [isZero, zero]

theorem BigInt.isZero_eq_false_iff {n : Nat} (b : BigInt n) : b.isZero = false ↔ b ≠ zero := by
  rw [Ne, ← b.isZero_iff, Bool.not_eq_true]

theorem orCrypto_eq_ok {α : Type} {msg : String} {o : Option α} {a : α} :
    orCrypto msg o = .ok a ↔ o = some a := by
  rcases o with - | _
  · exact iff_of_false nofun nofun
  · rw [orCrypto, Except.ok.injEq, Option.some.injEq]

namespace CurveLaws

variable {cr : Crypto} {P S : Type} [AddCommGroup P] [AddCommGroup S] (L : CurveLaws cr P S)

theorem decode_point_zero : L.points.decode zero = some 0 :=
  L.points.decode_eq_some.mpr L.points_zero.symm

theorem decode_scalar_zero : L.scalars.decode zero = some 0 :=
  L.scalars.decode_eq_some.mpr L.scalars_zero.symm

theorem encode_point_eq_zero {p : P} : L.points.encode p = zero ↔ p = 0 := by
  rw [← L.points_zero]
  exact L.points.encode_injective.eq_iff

/-! ### Sums of commitments and of blinding factors -/

variable {coins : Int} {b offset : BlindingFactor} {c : Commitment}

theorem total_dropZeros {n : Nat} {Q : Type} [AddCommGroup Q] (N : Naming (BigInt n) Q)
    (hzero : N.decode zero = some 0) (cs : List (BigInt n)) :
    N.total (cs.filter fun c => !c.isZero) = N.total cs := by
  apply N.total_filter
  intro c hc
  rw [c.isZero_iff.mp (by simpa using hc), hzero]

theorem addCommitments_eq_ok {pos neg : List Commitment} :
    addCommitments cr pos neg = .ok c ↔ ∃ p n, L.points.total pos = some p ∧
      L.points.total neg = some n ∧ (p = n → ∀ x ∈ pos ++ neg, x = zero) ∧
      c = L.points.encode (p - n) := by
  have hempty : ((pos.filter fun c => !c.isZero).isEmpty && (neg.filter fun c => !c.isZero).isEmpty) = true ↔
      ∀ x ∈ pos ++ neg, x = zero := by
    simp [isZero_iff, or_imp, forall_and]
  unfold addCommitments
  rw [← total_dropZeros L.points L.decode_point_zero pos, ← total_dropZeros L.points L.decode_point_zero neg]
  dsimp only
  split
  · next hnone =>
    -- nothing is left to add
    obtain ⟨hpos, hneg⟩ := Bool.and_eq_true_iff.mp hnone
    rw [Except.ok.injEq, isEmpty_iff.mp hpos, isEmpty_iff.mp hneg]
    constructor
    · intro h
      exact ⟨0, 0, rfl, rfl, fun _ => hempty.mp hnone, by rw [sub_zero, L.points_zero, h]⟩
    · intro h
      obtain ⟨p, n, hp, hn, -, hc⟩ := h
      cases hp
      cases hn
      rw [hc, sub_zero, L.points_zero]
  · next hsome =>
    rw [orCrypto_eq_ok, L.pedersenCommitSum]
    · simp only [← hempty, hsome, Bool.false_eq_true]
    · intro x hx hzero
      rw [← filter_append, mem_filter, Bool.not_eq_true', isZero_eq_false_iff] at hx
      exact hx.2 hzero

theorem addCommitments_bind_eq_ok {pos neg : List Commitment} {f : Commitment → Except Error Commitment} :
    (addCommitments cr pos neg >>= f) = .ok c ↔ ∃ p n, L.points.total pos = some p ∧
      L.points.total neg = some n ∧ (p = n → ∀ x ∈ pos ++ neg, x = zero) ∧
      f (L.points.encode (p - n)) = .ok c := by
  rw [bind_eq_ok]
  constructor
  · intro h
    obtain ⟨_, hsum, h⟩ := h
    obtain ⟨p, n, hp, hn, hzero, rfl⟩ := L.addCommitments_eq_ok.mp hsum
    exact ⟨p, n, hp, hn, hzero, h⟩
  · intro h
    obtain ⟨p, n, hp, hn, hzero, h⟩ := h
    exact ⟨_, L.addCommitments_eq_ok.mpr ⟨p, n, hp, hn, hzero, rfl⟩, h⟩

theorem addBlindingFactors_eq_ok {pos neg : List BlindingFactor} :
    addBlindingFactors cr pos neg = .ok b ↔ ∃ p n, L.scalars.total pos = some p ∧
      L.scalars.total neg = some n ∧ b = L.scalars.encode (p - n) := by
  unfold addBlindingFactors
  rw [← total_dropZeros L.scalars L.decode_scalar_zero pos, ← total_dropZeros L.scalars L.decode_scalar_zero neg]
  dsimp only
  split
  · next hnone =>
    obtain ⟨hpos, hneg⟩ := Bool.and_eq_true_iff.mp hnone
    rw [Except.ok.injEq, isEmpty_iff.mp hpos, isEmpty_iff.mp hneg]
    constructor
    · intro h
      exact ⟨0, 0, rfl, rfl, by rw [sub_zero, L.scalars_zero, h]⟩
    · intro h
      obtain ⟨p, n, hp, hn, hb⟩ := h
      cases hp
      cases hn
      rw [hb, sub_zero, L.scalars_zero]
  · rw [orCrypto_eq_ok, L.pedersenBlindSum]

theorem addPoints_eq_ok {ps ns : List P} (hne : ∃ x ∈ ps ++ ns, x ≠ 0) :
    addCommitments cr (ps.map L.points.encode) (ns.map L.points.encode) = .ok c ↔
      ps.sum - ns.sum ≠ 0 ∧ c = L.points.encode (ps.sum - ns.sum) := by
  rw [L.addCommitments_eq_ok, Naming.total_map_encode, Naming.total_map_encode]
  constructor
  · intro h
    obtain ⟨_, _, hp, hn, hzero, hc⟩ := h
    cases hp
    cases hn
    refine ⟨fun heq => ?_, hc⟩
    obtain ⟨x, hx, hx0⟩ := hne
    rw [← map_append, forall_mem_map] at hzero
    exact hx0 (L.encode_point_eq_zero.mp (hzero (sub_eq_zero.mp heq) x hx))
  · intro h
    exact ⟨_, _, rfl, rfl, fun heq => absurd (sub_eq_zero.mpr heq) h.1, h.2⟩

theorem commit_eq_ok {v : Nat} :
    commit cr v b = .ok c ↔ ∃ s, L.scalars.decode b = some s ∧ v • L.genH + L.mulG s ≠ 0 ∧
      c = L.points.encode (v • L.genH + L.mulG s) := by
  rw [commit, orCrypto_eq_ok, L.pedersenCommit]

theorem commit_transparent {v : Nat} (hpos : 0 < v) (hlt : v < 2 ^ 64) :
    commit cr v zero = .ok (L.points.encode (v • L.genH)) := by
  rw [L.commit_eq_ok]
  refine ⟨0, L.decode_scalar_zero, ?_, ?_⟩
  · rw [map_zero, add_zero]
    exact L.value_ne_zero v hpos hlt
  · rw [map_zero, add_zero]

/-! ### The two sides of the balance -/

theorem unsignedAbs_eq {amount : Int} (h : amount < 0) : (unsignedAbs amount : Int) = -amount := by
  unfold unsignedAbs
  rw [if_neg (by omega)]
  omega

theorem sumUtxoCommitment_eq_ok {ins outs : List Commitment} (hcoins : isValidAmountRange coins = true) :
    sumUtxoCommitment cr ins outs coins = .ok c ↔ ∃ i o, L.points.total ins = some i ∧
      L.points.total outs = some o ∧ (o = i → ∀ x ∈ outs ++ ins, x = zero) ∧
      (coins ≠ 0 → o - i - coins • L.genH ≠ 0) ∧ c = L.points.encode (o - i - coins • L.genH) := by
  have hrange : -maxMoney ≤ coins ∧ coins ≤ maxMoney := by
    simpa [isValidAmountRange] using hcoins
  have hmax : maxMoney < 2 ^ 64 := by decide
  unfold sumUtxoCommitment
  -- the second sum, once the first one is known
  have hsecond : ∀ o i : P, (if coins > 0 then do
        let transparent ← commit cr coins.toNat zero
        addCommitments cr [L.points.encode (o - i)] [transparent]
      else if coins < 0 then do
        let transparent ← commit cr (unsignedAbs coins) zero
        addCommitments cr [L.points.encode (o - i), transparent] []
      else .ok (L.points.encode (o - i))) = .ok c ↔
      (coins ≠ 0 → o - i - coins • L.genH ≠ 0) ∧ c = L.points.encode (o - i - coins • L.genH) := by
    intro o i
    by_cases hpos : coins > 0
    · have hcast : coins.toNat • L.genH = coins • L.genH := by
        rw [← natCast_zsmul, Int.toNat_of_nonneg hpos.le]
      have hne : coins • L.genH ≠ 0 := by
        rw [← hcast]
        exact L.value_ne_zero _ (by omega) (by omega)
      rw [if_pos hpos, L.commit_transparent (by omega) (by omega), hcast]
      refine (@addPoints_eq_ok _ _ _ _ _ L c [o - i] [coins • L.genH] ⟨_, by simp, hne⟩).trans ?_
      simp [hpos.ne']
    · rw [if_neg hpos]
      by_cases hneg : coins < 0
      · have hcast : unsignedAbs coins • L.genH = -(coins • L.genH) := by
          rw [← natCast_zsmul, unsignedAbs_eq hneg, neg_zsmul]
        have habs := unsignedAbs_eq hneg
        have hne : -(coins • L.genH) ≠ 0 := by
          rw [← hcast]
          exact L.value_ne_zero _ (by omega) (by omega)
        rw [if_pos hneg, L.commit_transparent (by omega) (by omega), hcast]
        refine (@addPoints_eq_ok _ _ _ _ _ L c [o - i, -(coins • L.genH)] [] ⟨_, by simp, hne⟩).trans ?_
        simp [hneg.ne, ← sub_eq_add_neg]
      · obtain rfl : coins = 0 := by omega
        rw [if_neg hneg, zero_zsmul, sub_zero, Except.ok.injEq]
        constructor
        · intro h
          exact ⟨fun h0 => absurd rfl h0, h.symm⟩
        · intro h
          exact h.2.symm
  rw [L.addCommitments_bind_eq_ok, exists_comm]
  refine exists₂_congr fun i o => ?_
  rw [hsecond, and_left_comm]

theorem sumExcessCommitment_eq_ok {kers : List Commitment} :
    sumExcessCommitment cr kers offset = .ok c ↔ ∃ e s, L.points.total kers = some e ∧
      L.scalars.decode offset = some s ∧ (e = 0 → ∀ x ∈ kers, x = zero) ∧
      (s ≠ 0 → e + L.mulG s ≠ 0) ∧ c = L.points.encode (e + L.mulG s) := by
  unfold sumExcessCommitment
  -- the offset is committed to and added, unless it is zero
  have hsecond : ∀ e : P, (if (!offset.isZero) = true then do
        let blinded ← commit cr 0 offset
        addCommitments cr [L.points.encode e, blinded] []
      else .ok (L.points.encode e)) = .ok c ↔ ∃ s, L.scalars.decode offset = some s ∧
      (s ≠ 0 → e + L.mulG s ≠ 0) ∧ c = L.points.encode (e + L.mulG s) := by
    intro e
    by_cases hzero : offset = zero
    · subst hzero
      rw [if_neg (by simp [isZero_iff]), Except.ok.injEq, L.decode_scalar_zero]
      constructor
      · intro h
        refine ⟨0, rfl, fun h0 => absurd rfl h0, ?_⟩
        rw [map_zero, add_zero]
        exact h.symm
      · intro h
        obtain ⟨s, hs, _, hc⟩ := h
        cases hs
        rw [hc, map_zero, add_zero]
    · rw [if_pos (by rw [offset.isZero_eq_false_iff.mpr hzero]; rfl), bind_eq_ok]
      have hadd : ∀ {q : P}, q ≠ 0 → (addCommitments cr [L.points.encode e, L.points.encode q] [] = .ok c ↔
          e + q ≠ 0 ∧ c = L.points.encode (e + q)) := by
        intro q hq
        refine (@addPoints_eq_ok _ _ _ _ _ L c [e, q] [] ⟨q, by simp, hq⟩).trans ?_
        simp
      constructor
      · intro h
        obtain ⟨blinded, hblinded, h⟩ := h
        obtain ⟨s, hs, hne, rfl⟩ := L.commit_eq_ok.mp hblinded
        rw [zero_nsmul, zero_add] at hne h
        obtain ⟨hsum, hc⟩ := (hadd hne).mp h
        exact ⟨s, hs, fun _ => hsum, hc⟩
      · intro h
        obtain ⟨s, hs, hne, hc⟩ := h
        have hs0 : s ≠ 0 := by
          intro h0
          apply hzero
          rw [L.scalars.decode_eq_some.mp hs, h0, L.scalars_zero]
        have hG : L.mulG s ≠ 0 := by
          intro h0
          exact hs0 (L.mulG_injective (h0.trans (map_zero _).symm))
        refine ⟨L.points.encode (L.mulG s), L.commit_eq_ok.mpr ⟨s, hs, ?_, ?_⟩, (hadd hG).mpr ⟨hne hs0, hc⟩⟩
        · rwa [zero_nsmul, zero_add]
        · rw [zero_nsmul, zero_add]
  rw [L.addCommitments_bind_eq_ok]
  constructor
  · intro h
    obtain ⟨e, _, he, hn, hzero, h⟩ := h
    cases hn
    rw [append_nil] at hzero
    rw [sub_zero] at h
    obtain ⟨s, hs, hne, hc⟩ := (hsecond e).mp h
    exact ⟨e, s, he, hs, hzero, hne, hc⟩
  · intro h
    obtain ⟨e, s, he, hs, hzero, hne, hc⟩ := h
    refine ⟨e, 0, he, rfl, by rwa [append_nil], ?_⟩
    rw [sub_zero]
    exact (hsecond e).mpr ⟨s, hs, hne, hc⟩

/-! ### Balance -/

/-- Outputs less inputs and coins added are the excesses and the offsets. -/
def Balance (ins outs kers : List Commitment) (offsets : List BlindingFactor) (coins : Int) : Prop :=
  ∃ i o e s, L.points.total ins = some i ∧ L.points.total outs = some o ∧
    L.points.total kers = some e ∧ L.scalars.total offsets = some s ∧
    o - i - coins • L.genH = e + L.mulG s

/-- No sum on the way is the point at infinity. -/
structure Nondegenerate (ins outs kers : List Commitment) (offsets : List BlindingFactor)
    (coins : Int) : Prop where
  utxos : L.points.total outs = L.points.total ins → ∀ x ∈ outs ++ ins, x = zero
  excess : L.points.total kers = some 0 → ∀ x ∈ kers, x = zero
  sum : ∀ e s, L.points.total kers = some e → L.scalars.total offsets = some s →
    coins ≠ 0 ∨ s ≠ 0 → e + L.mulG s ≠ 0

theorem validateSums_eq_ok {ins outs kers : List Commitment} :
    validateSums cr ins outs kers offset coins = .ok () ↔ isValidAmountRange coins = true ∧
      L.Balance ins outs kers [offset] coins ∧ L.Nondegenerate ins outs kers [offset] coins := by
  unfold validateSums
  rw [unless_eq_ok]
  simp only [Bool.not_eq_true', Bool.not_eq_false]
  refine and_congr_right fun hrange => ?_
  rw [bind_eq_ok]
  constructor
  · intro h
    obtain ⟨cu, hcu, h⟩ := h
    obtain ⟨ce, hce, h⟩ := bind_eq_ok.mp h
    have heq : cu = ce := by
      by_contra hne
      rw [if_pos hne] at h
      cases h
    obtain ⟨i, o, hi, ho, hutxos, hcoins, hu⟩ := (L.sumUtxoCommitment_eq_ok hrange).mp hcu
    obtain ⟨e, s, he, hs, hexcess, hoffset, hx⟩ := L.sumExcessCommitment_eq_ok.mp hce
    have hbalance := L.points.encode_injective (hu.symm.trans (heq.trans hx))
    refine ⟨⟨i, o, e, s, hi, ho, he, (L.scalars.total_singleton _).trans hs, hbalance⟩, ?_, ?_, ?_⟩
    · intro htotal
      rw [ho, hi] at htotal
      exact hutxos (Option.some.inj htotal)
    · intro hzero
      rw [he] at hzero
      exact hexcess (Option.some.inj hzero)
    · intro e' s' he' hs' hor
      rw [he] at he'
      rw [Naming.total_singleton, hs] at hs'
      cases he'
      cases hs'
      rcases hor with h0 | h0
      · rw [← hbalance]
        exact hcoins h0
      · exact hoffset h0
  · intro h
    obtain ⟨⟨i, o, e, s, hi, ho, he, hs, hbalance⟩, hnd⟩ := h
    have hs' := (L.scalars.total_singleton _).symm.trans hs
    refine ⟨_, (L.sumUtxoCommitment_eq_ok hrange).mpr ⟨i, o, hi, ho, ?_, ?_, rfl⟩, ?_⟩
    · intro heq
      exact hnd.utxos (by rw [ho, hi, heq])
    · intro h0
      rw [hbalance]
      exact hnd.sum e s he hs (Or.inl h0)
    · rw [bind_eq_ok]
      refine ⟨_, L.sumExcessCommitment_eq_ok.mpr ⟨e, s, he, hs', ?_, ?_, rfl⟩, ?_⟩
      · intro heq
        exact hnd.excess (by rw [he, heq])
      · intro h0
        exact hnd.sum e s he hs (Or.inr h0)
      · rw [if_neg (by rw [hbalance]; exact not_not.mpr rfl)]
        rfl

namespace Balance
variable {L} {ins outs kers ins' outs' kers' : List Commitment} {offs offs' : List BlindingFactor}
  {coins coins' : Int}

theorem nil : L.Balance [] [] [] [] 0 :=
  ⟨0, 0, 0, 0, rfl, rfl, rfl, rfl, by simp⟩

theorem append (h : L.Balance ins outs kers offs coins) (h' : L.Balance ins' outs' kers' offs' coins') :
    L.Balance (ins ++ ins') (outs ++ outs') (kers ++ kers') (offs ++ offs') (coins + coins') := by
  obtain ⟨i, o, e, s, hi, ho, he, hs, heq⟩ := h
  obtain ⟨i', o', e', s', hi', ho', he', hs', heq'⟩ := h'
  refine ⟨i + i', o + o', e + e', s + s', L.points.total_append_eq_some.mpr ⟨i, i', hi, hi', rfl⟩,
    L.points.total_append_eq_some.mpr ⟨o, o', ho, ho', rfl⟩,
    L.points.total_append_eq_some.mpr ⟨e, e', he, he', rfl⟩,
    L.scalars.total_append_eq_some.mpr ⟨s, s', hs, hs', rfl⟩, ?_⟩
  calc o + o' - (i + i') - (coins + coins') • L.genH
      = (o - i - coins • L.genH) + (o' - i' - coins' • L.genH) := by rw [add_zsmul]; abel
    _ = e + L.mulG s + (e' + L.mulG s') := by rw [heq, heq']
    _ = e + e' + L.mulG (s + s') := by rw [map_add]; abel

end Balance

end CurveLaws

/-! ### Numbers in the place of points -/

open ByteCodec Option

/-- Numbers below 2^64, written in `k` bytes. -/
def numbers (k : Nat) (hk : 8 ≤ k) : Naming (BigInt k) (BitVec 64) where
  encode := fun x => ⟨writeLE k x.toNat, length_writeLE ..⟩
  decode := fun c =>
    match readLE k c.bytes with
    | .ok (n, _) => if n < 2 ^ 64 then some (BitVec.ofNat 64 n) else none
    | .error _ => none
  decode_eq_some := by
    intro c p
    constructor
    · intro h
      rcases hread : readLE k c.bytes with e | ⟨n, rest⟩
      · simp only [hread] at h
        cases h
      · obtain ⟨hbytes, _⟩ := readLE_eq_ok hread
        have hrest : rest = [] := by
          have hlen := congrArg List.length hbytes
          rw [List.length_append, length_writeLE, c.size] at hlen
          exact List.length_eq_zero_iff.mp (by omega)
        simp only [hread] at h
        split at h
        · next hlt =>
          cases h
          ext1
          rw [hbytes, hrest, List.append_nil, BitVec.toNat_ofNat, Nat.mod_eq_of_lt hlt]
        · cases h
    · intro h
      subst h
      have hlt : p.toNat < 256 ^ k := by
        calc p.toNat < 2 ^ 64 := p.isLt
          _ = 256 ^ 8 := by decide
          _ ≤ 256 ^ k := Nat.pow_le_pow_right (by decide) hk
      have hread := parses_le hlt []
      rw [List.append_nil] at hread
      simp only [hread, p.isLt, if_true, BitVec.ofNat_toNat, BitVec.setWidth_eq]

/-- Commitments and blinding factors that are numbers, with both generators 1. -/
def numberCrypto : Crypto where
  hash := fun bs => ⟨(bs ++ List.replicate 32 0).take 32, by simp⟩
  pedersenCommit := fun v b => do
    let r ← (numbers 32 (by decide)).decode b
    if BitVec.ofNat 64 v + r = 0 then none
    else some ((numbers 33 (by decide)).encode (BitVec.ofNat 64 v + r))
  pedersenCommitSum := fun pos neg => do
    let p ← (numbers 33 (by decide)).total pos
    let n ← (numbers 33 (by decide)).total neg
    if p = n then none else some ((numbers 33 (by decide)).encode (p - n))
  pedersenBlindSum := fun pos neg => do
    let p ← (numbers 32 (by decide)).total pos
    let n ← (numbers 32 (by decide)).total neg
    some ((numbers 32 (by decide)).encode (p - n))
  publicKeyFrom := fun c => if c.isZero then none else some c
  publicKeyMul := fun key _ => some key
  publicKeysAdd := fun _ => some zero
  publicKeysCalculate := fun b => ((numbers 32 (by decide)).decode b).map fun _ => zero
  schnorrBatchVerify := fun _ => true
  bulletproofsBatchVerify := fun _ => true

theorem numbers_zero (k : Nat) (hk : 8 ≤ k) : (numbers k hk).encode 0 = zero := by
  have hzero : ∀ k, writeLE k 0 = List.replicate k 0 := by
    intro k
    induction k with
    | zero => rfl
    | succ k ih =>
      rw [writeLE, ih]
      rfl
  ext1
  exact hzero k

theorem bind_bind_eq_some {α β γ : Type} {x : Option α} {y : Option β} {f : α → β → Option γ} {c : γ} :
    (x.bind fun p => y.bind (f p)) = some c ↔ ∃ p n, x = some p ∧ y = some n ∧ f p n = some c := by
  simp only [bind_eq_some_iff, exists_and_left]

/-- Numbers behave as the curve library does. -/
def numberLaws : CurveLaws numberCrypto (BitVec 64) (BitVec 64) where
  points := numbers 33 (by decide)
  scalars := numbers 32 (by decide)
  points_zero := numbers_zero 33 (by decide)
  scalars_zero := numbers_zero 32 (by decide)
  mulG := AddMonoidHom.id _
  mulG_injective := fun _ _ h => h
  genH := 1
  value_ne_zero := by
    intro v hpos hlt hzero
    rw [nsmul_one] at hzero
    have hnat : (BitVec.ofNat 64 v).toNat = 0 := congrArg BitVec.toNat hzero
    rw [BitVec.toNat_ofNat] at hnat
    omega
  pedersenCommit := by
    intro v b c
    show Option.bind _ _ = _ ↔ _
    rw [Option.bind_eq_some_iff]
    refine exists_congr fun r => and_congr_right fun _ => ?_
    rw [nsmul_one]
    by_cases hzero : BitVec.ofNat 64 v + r = 0
    · rw [if_pos hzero]
      exact iff_of_false nofun fun h => h.1 hzero
    · rw [if_neg hzero, Option.some.injEq]
      exact ⟨fun h => ⟨hzero, h.symm⟩, fun h => h.2.symm⟩
  pedersenCommitSum := by
    intro pos neg c _
    refine bind_bind_eq_some.trans (exists₂_congr fun p n => and_congr_right fun _ => and_congr_right fun _ => ?_)
    by_cases heq : p = n
    · rw [if_pos heq]
      exact iff_of_false nofun fun h => h.1 heq
    · rw [if_neg heq, Option.some.injEq]
      exact ⟨fun h => ⟨heq, h.symm⟩, fun h => h.2.symm⟩
  pedersenBlindSum := by
    intro pos neg b
    refine bind_bind_eq_some.trans (exists₂_congr fun p n => and_congr_right fun _ => and_congr_right fun _ => ?_)
    rw [Option.some.injEq]
    exact eq_comm
  publicKeyFrom := by
    intro c key h hzero
    rw [hzero] at h
    cases h
  publicKeysCalculate := by
    intro b key h
    obtain ⟨r, hr, _⟩ := Option.map_eq_some_iff.mp h
    exact ⟨r, hr⟩
  schnorrBatchVerify := fun _ _ _ _ => rfl
  bulletproofsBatchVerify := fun _ _ _ _ => rfl

def numberOutput (n : BitVec 64) : Output where
  commitment := (numbers 33 (by decide)).encode n
  senderPubKey := zero
  receiverPubKey := zero
  message := { features := 0, standard := StandardFields.default, extra_data := [] }
  proof := zero
  signature := zero

def numberKernel (pegin : Option Int) (pegouts : List PegOutCoin) (excess : BitVec 64) : Kernel where
  features := (if pegin.isSome then 2 else 0) ||| if pegouts.isEmpty then 0 else 4
  fee := none
  pegin
  pegouts
  lockHeight := none
  stealthExcess := none
  extraData := []
  excess := (numbers 33 (by decide)).encode excess
  signature := zero

def numberInput (n : BitVec 64) : Input where
  features := 0
  outputID := (numberOutput n).getOutputID numberCrypto
  commitment := (numberOutput n).commitment
  inputPubKey := none
  outputPubKey := zero
  extraData := []
  signature := zero

theorem numberOutput_wf (ns : List (BitVec 64)) : ∀ o ∈ ns.map numberOutput, o.message.Wf := by
  intro o ho
  obtain ⟨n, -, rfl⟩ := List.mem_map.mp ho
  exact ⟨fun _ => rfl, fun _ => rfl, Nat.zero_le _⟩

end Defcoin.Mweb
