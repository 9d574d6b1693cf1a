import Defcoin.Mweb.CurveLaws
import Defcoin.Mweb.Transaction

/-! # Transactions that are valid one by one

  What the checks of single transactions say about their aggregate. Signatures, range proofs and
  commitment sums carry over. What does not carry over by itself is the range of the total supply
  change, and that no intermediate sum is the point at infinity.
-/

namespace Defcoin.Mweb

open ByteCodec Outcome Transaction List Kernel Output TxVectors

/-! ### Supply changes -/

def Kernel.change (k : Kernel) : Int := k.getSupplyChange.getD 0

theorem Kernel.getSupplyChange_range {k : Kernel} {x : Int} (h : k.getSupplyChange = some x) :
    -maxMoney ≤ x ∧ x ≤ maxMoney := by
  unfold getSupplyChange at h
  split at h
  · cases h
  · split at h
    · obtain ⟨_, _, h⟩ := Option.bind_eq_some_iff.mp h
      obtain ⟨_, _, h⟩ := Option.bind_eq_some_iff.mp h
      split at h
      · next hrange =>
        cases h
        simpa [isValidAmountRange] using hrange
      · cases h
    · cases h

theorem trySafeAdd_of_range {x y : Int} (hx : -maxMoney ≤ x ∧ x ≤ maxMoney)
    (hy : -maxMoney ≤ y ∧ y ≤ maxMoney) : trySafeAdd x y = some (x + y) := by
  have hmax : 2 * maxMoney ≤ int64Max := by decide
  have hmin : int64Min ≤ -(2 * maxMoney) := by decide
  unfold trySafeAdd
  rw [if_neg (by omega)]

theorem sumSupplyChange_eq_some {total r : Int} {ks : List Kernel}
    (htotal : -maxMoney ≤ total ∧ total ≤ maxMoney) :
    TxBody.sumSupplyChange total ks = some r ↔ (∀ k ∈ ks, k.getSupplyChange = some k.change) ∧
      Sorting.Stays (-maxMoney) maxMoney total (ks.map change) ∧
      r = total + (ks.map change).sum := by
  induction ks generalizing total with
  | nil =>
    rw [TxBody.sumSupplyChange, Option.some.injEq]
    constructor
    · intro h
      refine ⟨by simp, trivial, ?_⟩
      rw [← h]
      simp
    · intro h
      rw [h.2.2]
      simp
  | cons k ks ih =>
    rw [TxBody.sumSupplyChange, forall_mem_cons, map_cons, sum_cons]
    rcases hk : k.getSupplyChange with - | x
    · constructor
      · intro h
        cases h
      · intro h
        cases h.1.1
    · have hchange : k.change = x := by rw [change, hk, Option.getD_some]
      have hadd := trySafeAdd_of_range htotal (getSupplyChange_range hk)
      rw [hchange, show total + (x + (ks.map change).sum) =
        total + x + (ks.map change).sum by omega]
      show (trySafeAdd total x).bind _ = _ ↔ _
      rw [hadd, Option.bind_some]
      by_cases hrange : -maxMoney ≤ total + x ∧ total + x ≤ maxMoney
      · rw [if_pos (by simpa [isValidAmountRange] using hrange), ih hrange]
        constructor
        · intro h
          exact ⟨⟨rfl, h.1⟩, ⟨hrange.1, hrange.2, h.2.1⟩, h.2.2⟩
        · intro h
          exact ⟨h.1.2, h.2.1.2.2, h.2.2⟩
      · rw [if_neg (by simpa [isValidAmountRange] using hrange)]
        constructor
        · intro h
          cases h
        · intro h
          exact absurd ⟨h.2.1.1, h.2.1.2.1⟩ hrange

/-! ### One transaction -/

namespace CurveLaws

variable {cr : Crypto} {P S : Type} [AddCommGroup P] [AddCommGroup S] (L : CurveLaws cr P S)

/-- The commitments of a body balance with the supply changes of its kernels. -/
def Balanced (b : TxVectors) (offsets : List BlindingFactor) : Prop :=
  L.Balance (b.inputs.map Input.commitment) (b.outputs.map Output.commitment)
    (b.kernels.map Kernel.excess) offsets (b.kernels.map Kernel.change).sum

variable {L} in
theorem Balanced.perm {b c : TxVectors} {offsets : List BlindingFactor} (h : L.Balanced b offsets)
    (hperm : c.Perm b) : L.Balanced c offsets := by
  obtain ⟨i, o, e, s, hi, ho, he, hs, heq⟩ := h
  refine ⟨i, o, e, s, ?_, ?_, ?_, hs, ?_⟩
  · rw [L.points.total_perm (hperm.inputs.map _), hi]
  · rw [L.points.total_perm (hperm.outputs.map _), ho]
  · rw [L.points.total_perm (hperm.kernels.map _), he]
  · rw [(hperm.kernels.map _).sum_eq]
    exact heq

/-- What a transaction that `Validate` accepts has. -/
structure Sound (tx : Transaction) : Prop where
  valid : tx.body.vectors.Valid cr
  changes : ∀ k ∈ tx.body.kernels, k.getSupplyChange = some k.change
  balanced : L.Balanced tx.body.vectors [tx.kernelOffset]
  stealthOffset : ∃ s, L.scalars.decode tx.stealthOffset = some s

/-- The stealth sums are only checked for an offset that is a scalar. -/
theorem stealthOffset_of_validate {offset : BlindingFactor} {b : TxVectors}
    (h : validateStealthSums cr offset b = .ok ()) : ∃ s, L.scalars.decode offset = some s := by
  obtain ⟨_, _, h⟩ := bind_eq_ok.mp h
  obtain ⟨_, hkeys, _⟩ := bind_eq_ok.mp h
  by_cases hzero : offset = BigInt.zero
  · exact ⟨0, hzero ▸ L.decode_scalar_zero⟩
  · rw [offsetKeys, if_neg (by rw [offset.isZero_eq_false_iff.mpr hzero]; simp)] at hkeys
    obtain ⟨key, hkey, _⟩ := bind_eq_ok.mp hkeys
    exact L.publicKeysCalculate offset key (orCrypto_eq_ok.mp hkey)

theorem sound_of_validate {tx : Transaction} (h : tx.validate cr = .ok ()) : L.Sound tx := by
  obtain ⟨⟨⟩, hbody, h⟩ := bind_eq_ok.mp h
  obtain ⟨⟨⟩, hsums, hstealth⟩ := bind_eq_ok.mp h
  unfold validateForTx at hsums
  rcases hchange : tx.body.getSupplyChange with - | _
  · rw [hchange] at hsums
    cases hsums
  · rw [hchange] at hsums
    obtain ⟨hchanges, _, hcoins⟩ := (sumSupplyChange_eq_some (by decide)).mp hchange
    rw [Int.zero_add] at hcoins
    obtain ⟨_, hbalance, _⟩ := L.validateSums_eq_ok.mp hsums
    rw [hcoins] at hbalance
    exact ⟨(validate_eq_ok cr).mp hbody, hchanges, hbalance,
      L.stealthOffset_of_validate hstealth⟩

variable {L}

theorem Sound.excess_ne_zero {tx : Transaction} (h : L.Sound tx) {k : Kernel}
    (hk : k ∈ tx.body.kernels) : k.excess ≠ BigInt.zero := by
  obtain ⟨_, hmsgs, _⟩ := h.valid.signatures
  obtain ⟨_, hkernels, _⟩ := bind_eq_ok.mp hmsgs
  obtain ⟨_, hi, rfl⟩ := getElem_of_mem hk
  have hall := mapM_eq_ok.mp hkernels
  have hmsg := hall.get hi (hall.length_eq ▸ hi)
  obtain ⟨key, hkey, _⟩ := bind_eq_ok.mp hmsg
  exact L.publicKeyFrom _ key (orCrypto_eq_ok.mp hkey)

/-! ### All transactions -/

variable {b : TxVectors} {txs : List Transaction}

section
variable (h : ∀ tx ∈ txs, L.Sound tx)
include h

theorem balanced_collect : L.Balanced (collect txs) (txs.map kernelOffset) := by
  induction txs with
  | nil => exact Balance.nil
  | cons tx txs ih =>
    have hhead := (h tx mem_cons_self).balanced
    have htail := ih fun tx' htx' => h tx' (mem_cons_of_mem tx htx')
    have hboth := Balance.append hhead htail
    rw [collect_cons, Balanced, map_append, map_append, map_append, map_append, sum_append]
    exact hboth

theorem signatures_collect :
    ∃ (parts : List (List SignedMessage)) (kernelMsgs inputMsgs : List SignedMessage),
      (∀ part ∈ parts, cr.schnorrBatchVerify part = true) ∧
      List.Forall₂ (fun k m => k.buildSignedMsg cr = .ok m) (collect txs).kernels kernelMsgs ∧
      List.Forall₂ (fun i m => i.buildSignedMsg cr = .ok m) (collect txs).inputs inputMsgs ∧
      (kernelMsgs ++ inputMsgs ++ (collect txs).outputs.map (Output.buildSignedMsg cr)).Perm
        parts.flatten := by
  induction txs with
  | nil => exact ⟨[], [], [], by simp, .nil, .nil, .nil⟩
  | cons tx txs ih =>
    obtain ⟨parts, ks, is, hparts, hks, his, hperm⟩ :=
      ih fun tx' htx' => h tx' (mem_cons_of_mem tx htx')
    obtain ⟨_, hmsgs, hverify⟩ := (h tx mem_cons_self).valid.signatures
    obtain ⟨ks', hks', hmsgs⟩ := bind_eq_ok.mp hmsgs
    obtain ⟨is', his', hmsgs⟩ := bind_eq_ok.mp hmsgs
    cases hmsgs
    refine ⟨(ks' ++ is' ++ tx.body.outputs.map (Output.buildSignedMsg cr)) :: parts, ks' ++ ks,
      is' ++ is, ?_, ?_, ?_, ?_⟩
    · exact forall_mem_cons.mpr ⟨hverify, hparts⟩
    · exact rel_append (mapM_eq_ok.mp hks') hks
    · exact rel_append (mapM_eq_ok.mp his') his
    · rw [collect_cons, flatten_cons, map_append]
      rw [perm_iff_count] at hperm ⊢
      intro m
      have := hperm m
      simp only [count_append] at this ⊢
      omega

theorem proofs_collect :
    ∃ parts : List (List ProofData), (∀ part ∈ parts, cr.bulletproofsBatchVerify part = true) ∧
      (collect txs).outputs.map buildProofData = parts.flatten := by
  refine ⟨txs.map fun tx => tx.body.outputs.map buildProofData, ?_, ?_⟩
  · intro part hpart
    obtain ⟨tx, htx, rfl⟩ := mem_map.mp hpart
    exact (h tx htx).valid.proofs
  · rw [collect, map_flatMap, flatMap_def]

theorem verifies_of_perm (hperm : b.Perm (collect txs)) :
    (∃ msgs, b.buildSignedMsgs cr = .ok msgs ∧ cr.schnorrBatchVerify msgs = true) ∧
      cr.bulletproofsBatchVerify (b.outputs.map Output.buildProofData) = true := by
  constructor
  · obtain ⟨parts, _, _, hparts, hks, his, hall⟩ := signatures_collect h
    obtain ⟨ks', hks', hkperm⟩ := perm_comp_forall₂ hperm.kernels hks
    obtain ⟨is', his', hiperm⟩ := perm_comp_forall₂ hperm.inputs his
    refine ⟨ks' ++ is' ++ b.outputs.map (Output.buildSignedMsg cr), ?_, ?_⟩
    · exact bind_eq_ok.mpr ⟨ks', mapM_eq_ok.mpr hks',
        bind_eq_ok.mpr ⟨is', mapM_eq_ok.mpr his', rfl⟩⟩
    · apply L.schnorrBatchVerify parts _ hparts
      exact ((hkperm.append hiperm).append (hperm.outputs.map _)).trans hall
  · obtain ⟨parts, hparts, hflat⟩ := proofs_collect h
    apply L.bulletproofsBatchVerify parts _ hparts
    rw [← hflat]
    exact hperm.outputs.map _

end

/-! ### The aggregate -/

theorem total_offsets (offset : Transaction → BlindingFactor)
    (h : ∀ tx ∈ txs, ∃ s, L.scalars.decode (offset tx) = some s) :
    ∃ t, L.scalars.total (txs.map offset) = some t := by
  induction txs with
  | nil => exact ⟨0, rfl⟩
  | cons tx txs ih =>
    obtain ⟨s, hs⟩ := h tx mem_cons_self
    obtain ⟨t, ht⟩ := ih fun tx' htx' => h tx' (mem_cons_of_mem tx htx')
    exact ⟨s + t, L.scalars.total_cons_eq_some.mpr ⟨s, t, hs, ht, rfl⟩⟩

theorem addBlindingFactors_nil {offsets : List BlindingFactor} {t : S}
    (h : L.scalars.total offsets = some t) :
    addBlindingFactors cr offsets [] = .ok (L.scalars.encode t) := by
  rw [L.addBlindingFactors_eq_ok]
  exact ⟨t, 0, h, rfl, by rw [sub_zero]⟩

end CurveLaws

def Transaction.inMemory (tx : Transaction) : Aggregate where
  kernelOffset := tx.kernelOffset
  stealthOffset := tx.stealthOffset
  body := tx.body.vectors

theorem TxVectors.sort_of_isSorted {cr : Crypto} {b : TxVectors} (h : b.isSorted cr = true) :
    b.sort cr = b := by
  rw [isSorted, Bool.and_eq_true, Bool.and_eq_true] at h
  rw [sort, inputSort_byKey.sort_of_isSorted h.1.1, (outputSort_byKey cr).sort_of_isSorted h.1.2,
    (kernelSort_byKey cr).sort_of_isSorted h.2]

namespace Aggregate

/-- The vectors of several transactions, one after the other. -/
def union (txs : List Aggregate) : TxVectors where
  inputs := txs.flatMap fun tx => tx.body.inputs
  outputs := txs.flatMap fun tx => tx.body.outputs
  kernels := txs.flatMap fun tx => tx.body.kernels

/-- `Aggregation::Aggregate` of transactions in memory. -/
def ofParts (cr : Crypto) : List Aggregate → Except Error Aggregate
  | [] => .ok ⟨BigInt.zero, BigInt.zero, ⟨[], [], []⟩⟩
  | [tx] => .ok tx
  | txs => do
    let kernel_offset ← addBlindingFactors cr (txs.map kernelOffset) []
    let stealth_offset ← addBlindingFactors cr (txs.map stealthOffset) []
    pure ⟨kernel_offset, stealth_offset, (union txs).sort cr⟩

theorem union_inMemory (txs : List Transaction) : union (txs.map inMemory) = collect txs := by
  simp only [union, flatMap_map]
  rfl

theorem aggregate_eq_ofParts (cr : Crypto) (txs : List Transaction) :
    aggregate cr txs = ofParts cr (txs.map inMemory) := by
  rcases txs with - | ⟨_, - | ⟨_, txs⟩⟩
  · rfl
  · rfl
  · simp only [ofParts, union, map_cons, flatMap_cons, flatMap_map, map_map]
    rfl

variable {cr : Crypto} {P S : Type} [AddCommGroup P] [AddCommGroup S] {L : CurveLaws cr P S}
  {txs : List Aggregate} {t t' : S}

/-- Sorted transactions whose offsets are scalars and add up to `t` and `t'`. -/
structure Parts (L : CurveLaws cr P S) (txs : List Aggregate) (t t' : S) : Prop where
  sorted : ∀ tx ∈ txs, tx.body.isSorted cr = true
  kernelOffsets : L.scalars.total (txs.map kernelOffset) = some t
  stealthOffsets : L.scalars.total (txs.map stealthOffset) = some t'

/-- **Aggregate**: the shortcuts for no and for one transaction agree with the general case. -/
theorem Parts.ofParts_eq (h : Parts L txs t t') :
    ofParts cr txs = .ok ⟨L.scalars.encode t, L.scalars.encode t', (union txs).sort cr⟩ := by
  obtain ⟨hsorted, ht, ht'⟩ := h
  rcases txs with - | ⟨tx, - | ⟨_, txs⟩⟩
  · cases ht
    cases ht'
    rw [L.scalars_zero]
    rfl
  · rw [map_singleton, Naming.total_singleton, L.scalars.decode_eq_some] at ht ht'
    have hunion : union [tx] = tx.body := by simp [union]
    rw [hunion, sort_of_isSorted (hsorted tx mem_cons_self), ← ht, ← ht']
    rfl
  · rw [ofParts, CurveLaws.addBlindingFactors_nil ht, CurveLaws.addBlindingFactors_nil ht']
    · rfl
    · nofun
    · nofun

end Aggregate

namespace CurveLaws

variable {cr : Crypto} {P S : Type} [AddCommGroup P] [AddCommGroup S] {L : CurveLaws cr P S}
  {b : TxVectors} {txs : List Transaction}

theorem aggregate_eq_ok (h : ∀ tx ∈ txs, L.Sound tx) :
    ∃ a, aggregate cr txs = .ok a ∧ a.body.Perm (collect txs) ∧ a.body.isSorted cr = true ∧
      ∃ t, L.scalars.decode a.kernelOffset = some t ∧
        L.scalars.total (txs.map kernelOffset) = some t := by
  have hoffsets : ∀ tx ∈ txs, ∃ s, L.scalars.decode tx.kernelOffset = some s := by
    intro tx htx
    obtain ⟨_, _, _, s, _, _, _, hs, _⟩ := (h tx htx).balanced
    exact ⟨s, (L.scalars.total_singleton _).symm.trans hs⟩
  obtain ⟨t, ht⟩ := total_offsets kernelOffset hoffsets
  obtain ⟨t', ht'⟩ := total_offsets stealthOffset fun tx htx => (h tx htx).stealthOffset
  have hparts : Aggregate.Parts L (txs.map inMemory) t t' := by
    refine ⟨forall_mem_map.mpr fun tx htx => (h tx htx).valid.sorted, ?_, ?_⟩
    · rw [map_map]
      exact ht
    · rw [map_map]
      exact ht'
  rw [Aggregate.aggregate_eq_ofParts, hparts.ofParts_eq, Aggregate.union_inMemory]
  exact ⟨_, rfl, sort_perm cr _, isSorted_sort cr _, t, L.scalars.decode_encode t, ht⟩

/-! ### The sums of a block -/

/-- What the sums of all kernels must meet besides what the transactions were checked for. -/
structure SumsFit (L : CurveLaws cr P S) (txs : List Transaction) : Prop where
  increase : (((collect txs).kernels.map Kernel.change).map (max 0)).sum ≤ maxMoney
  decrease : -maxMoney ≤ ((collect txs).kernels.map Kernel.change).sum
  excess : (collect txs).kernels ≠ [] →
    L.points.total ((collect txs).kernels.map Kernel.excess) ≠ some 0
  offset : ∀ e t, L.points.total ((collect txs).kernels.map Kernel.excess) = some e →
    L.scalars.total (txs.map kernelOffset) = some t → t ≠ 0 → e + L.mulG t ≠ 0

theorem sum_le_sum_max (l : List Int) : l.sum ≤ (l.map (max 0)).sum := by
  induction l with
  | nil => exact le_rfl
  | cons a l ih =>
    rw [map_cons, sum_cons, sum_cons]
    omega

theorem sums_iff (h : ∀ tx ∈ txs, L.Sound tx) (hperm : b.Perm (collect txs))
    (hsorted : Sorting.isSorted (kernelSort cr) b.kernels = true)
    (hutxos : txs ≠ [] → L.points.total ((collect txs).outputs.map commitment) ≠ L.points.total ((collect txs).inputs.map Input.commitment))
    {offset : BlindingFactor} {t : S} (hoffset : L.scalars.decode offset = some t)
    (ht : L.scalars.total (txs.map kernelOffset) = some t) :
    (∃ coins, TxBody.sumSupplyChange 0 b.kernels = some coins ∧
      validateSums cr (b.inputs.map Input.commitment) (b.outputs.map commitment)
        (b.kernels.map excess) offset coins = .ok ()) ↔ L.SumsFit txs := by
  have hdefined : ∀ k ∈ b.kernels, k.getSupplyChange = some k.change := by
    intro k hk
    obtain ⟨tx, htx, hk'⟩ := mem_flatMap.mp (hperm.kernels.mem_iff.mp hk)
    exact (h tx htx).changes k hk'
  have hsum : (b.kernels.map change).sum = ((collect txs).kernels.map change).sum :=
    (hperm.kernels.map _).sum_eq
  have hmax : ((b.kernels.map change).map (max 0)).sum =
      (((collect txs).kernels.map change).map (max 0)).sum :=
    ((hperm.kernels.map _).map _).sum_eq
  have hexcess : L.points.total (b.kernels.map excess) =
      L.points.total ((collect txs).kernels.map excess) :=
    L.points.total_perm (hperm.kernels.map _)
  have hoffset' : L.scalars.total [offset] = L.scalars.total (txs.map kernelOffset) := by
    rw [Naming.total_singleton, hoffset, ht]
  -- the partial sums, in the order of the kernels
  have hstays : Sorting.Stays (-maxMoney) maxMoney 0 (b.kernels.map change) ↔ _ :=
    Sorting.stays_iff_of_descending (kernels_descending hsorted hdefined) (by decide) (by decide)
  rw [hmax, hsum, Int.zero_add, Int.zero_add] at hstays
  have hbalanced : L.Balance (b.inputs.map Input.commitment) (b.outputs.map commitment)
      (b.kernels.map excess) [offset] (b.kernels.map change).sum := by
    obtain ⟨i, o, e, s, hi, ho, he, hs, heq⟩ := (balanced_collect h).perm hperm
    exact ⟨i, o, e, s, hi, ho, he, hoffset'.trans hs, heq⟩
  constructor
  · intro hok
    obtain ⟨coins, hcoins, hsums⟩ := hok
    obtain ⟨_, hin, _⟩ := (sumSupplyChange_eq_some (by decide)).mp hcoins
    obtain ⟨_, _, hnd⟩ := L.validateSums_eq_ok.mp hsums
    obtain ⟨hincrease, hdecrease⟩ := hstays.mp hin
    refine ⟨hincrease, hdecrease, ?_, ?_⟩
    · intro hne hzero
      obtain ⟨k, hk⟩ := exists_mem_of_ne_nil _ hne
      obtain ⟨tx, htx, hk'⟩ := mem_flatMap.mp hk
      have hkb : k.excess ∈ b.kernels.map excess :=
        mem_map_of_mem (hperm.kernels.mem_iff.mpr hk)
      exact (h tx htx).excess_ne_zero hk' (hnd.excess (hexcess.trans hzero) _ hkb)
    · intro e s he hs hs0
      exact hnd.sum e s (hexcess.trans he) (hoffset'.trans hs) (Or.inr hs0)
  · intro hfit
    refine ⟨(b.kernels.map change).sum, (sumSupplyChange_eq_some (by decide)).mpr
      ⟨hdefined, hstays.mpr ⟨hfit.increase, hfit.decrease⟩, (Int.zero_add _).symm⟩, ?_⟩
    rw [L.validateSums_eq_ok]
    refine ⟨?_, hbalanced, ?_, ?_, ?_⟩
    · have hupper := sum_le_sum_max ((collect txs).kernels.map change)
      have hlow := hfit.decrease
      have hhigh := hfit.increase
      simp only [isValidAmountRange, Bool.and_eq_true, decide_eq_true_eq]
      omega
    · intro heq x hx
      rw [L.points.total_perm (hperm.outputs.map _), L.points.total_perm (hperm.inputs.map _)] at heq
      rcases txs with - | ⟨tx, txs⟩
      · rw [hperm.outputs.eq_nil, hperm.inputs.eq_nil] at hx
        cases hx
      · exact absurd heq (hutxos (by simp))
    · intro hzero x hx
      have hne : (collect txs).kernels ≠ [] := by
        intro hnil
        have hempty := hperm.kernels
        rw [hnil] at hempty
        rw [hempty.eq_nil] at hx
        cases hx
      exact absurd (hexcess.symm.trans hzero) (hfit.excess hne)
    · intro e s he hs hor
      rw [hexcess] at he
      rw [hoffset'] at hs
      by_cases hs0 : s = 0
      · have hcoins : (b.kernels.map change).sum ≠ 0 := by
          rcases hor with hcoins | hs0'
          · exact hcoins
          · exact absurd hs0 hs0'
        have hne : (collect txs).kernels ≠ [] := by
          intro hnil
          rw [hsum, hnil] at hcoins
          exact hcoins rfl
        rw [hs0, map_zero, add_zero]
        intro he0
        exact hfit.excess hne (he.trans (congrArg some he0))
      · exact hfit.offset e s he hs hs0

end CurveLaws

end Defcoin.Mweb
