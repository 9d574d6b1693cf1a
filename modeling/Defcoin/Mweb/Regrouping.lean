import Defcoin.Mweb.BuilderSoundness

/-! # Aggregating in any order

  Transactions can be aggregated in any order and in groups. The result is the same as long as
  members with one ID are equal. For outputs and kernels this is what a hash is for. The ID of an
  input is that of the output it spends, and two inputs that spend one output stay in their order.
-/

namespace Defcoin.Mweb

open BigInt Outcome List Aggregate TxVectors

/-- `TxBody::GetSupplyChange` -/
def TxVectors.getSupplyChange (b : TxVectors) : Option Int := TxBody.sumSupplyChange 0 b.kernels

/-- `TxBody::GetTotalFee` -/
def TxVectors.getTotalFee (b : TxVectors) : Option Int := sumMoney 0 (b.kernels.map Kernel.getFee)

/-- Members with one ID are equal. -/
structure TxVectors.Identified (cr : Crypto) (b : TxVectors) : Prop where
  inputs : ∀ i ∈ b.inputs, ∀ j ∈ b.inputs, i.outputID = j.outputID → i = j
  outputs : ∀ o ∈ b.outputs, ∀ p ∈ b.outputs, o.getOutputID cr = p.getOutputID cr → o = p
  kernels : ∀ k ∈ b.kernels, ∀ l ∈ b.kernels, k.getKernelID cr = l.getKernelID cr → k = l

theorem BigInt.key_injective {n : Nat} : Function.Injective (BigInt.key (n := n)) := by
  intro a b h
  ext1
  exact map_injective_iff.mpr (fun _ _ => UInt8.toNat_inj.mp) h

theorem TxVectors.Perm.sort_eq {cr : Crypto} {b c : TxVectors} (hperm : b.Perm c) (h : b.Identified cr) :
    b.sort cr = c.sort cr := by
  rw [sort, sort,
    inputSort_byKey.sort_eq_of_perm hperm.inputs fun i hi j hj hkey => h.inputs i hi j hj (key_injective hkey),
    (outputSort_byKey cr).sort_eq_of_perm hperm.outputs
      fun o ho p hp hkey => h.outputs o ho p hp (key_injective hkey),
    (kernelSort_byKey cr).sort_eq_of_perm hperm.kernels
      fun k hk l hl hkey => h.kernels k hk l hl (key_injective (Prod.ext_iff.mp (toLex.injective hkey)).2)]

/-! ### Amounts -/

theorem sumMoney_eq {total r : Int} {l : List Int} (h : sumMoney total l = some r) : r = total + l.sum := by
  induction l generalizing total with
  | nil => simpa using (Option.some.inj h).symm
  | cons amount l ih =>
    rw [sumMoney] at h
    split at h
    · obtain ⟨next, hnext, h⟩ := Option.bind_eq_some_iff.mp h
      have hadd : next = total + amount := by
        unfold trySafeAdd at hnext
        split at hnext
        · cases hnext
        · exact (Option.some.inj hnext).symm
      split at h
      · rw [ih h, hadd, sum_cons, add_assoc]
      · cases h
    · cases h

theorem sum_union {amount : TxVectors → Option Int} {v : Kernel → Int}
    (hamount : ∀ b c, amount b = some c → c = (b.kernels.map v).sum) {txs : List Aggregate}
    {part : Aggregate → Int} (h : ∀ tx ∈ txs, amount tx.body = some (part tx)) {b : TxVectors}
    (hperm : b.Perm (union txs)) {c : Int} (hc : amount b = some c) : c = (txs.map part).sum := by
  rw [hamount b c hc, (hperm.kernels.map v).sum_eq]
  clear hc hperm
  induction txs with
  | nil => rfl
  | cons tx txs ih =>
    rw [map_cons, sum_cons, hamount _ _ (h tx mem_cons_self),
      ← ih fun tx' htx' => h tx' (mem_cons_of_mem tx htx'), ← sum_append, ← map_append]
    rfl

/-! ### Parts -/

variable {cr : Crypto} {P S : Type} [AddCommGroup P] [AddCommGroup S] {L : CurveLaws cr P S}
  {txs : List Aggregate} {t t' : S}

theorem Aggregate.Parts.perm {txs' : List Aggregate} (h : Parts L txs t t') (hperm : txs'.Perm txs) :
    Parts L txs' t t' where
  sorted := fun tx htx => h.sorted tx (hperm.mem_iff.mp htx)
  kernelOffsets := (L.scalars.total_perm (hperm.map _)).trans h.kernelOffsets
  stealthOffsets := (L.scalars.total_perm (hperm.map _)).trans h.stealthOffsets

theorem Aggregate.Parts.groups {groups : List (List Aggregate)} (h : Parts L groups.flatten t t') :
    ∃ parts, groups.mapM (ofParts cr) = .ok parts ∧ Parts L parts t t' ∧
      (union parts).Perm (union groups.flatten) := by
  induction groups generalizing t t' with
  | nil => exact ⟨[], rfl, h, .nil, .nil, .nil⟩
  | cons group groups ih =>
    obtain ⟨hsorted, ht, ht'⟩ := h
    rw [flatten_cons] at hsorted ht ht' ⊢
    rw [map_append, Naming.total_append_eq_some] at ht ht'
    obtain ⟨s, u, hs, hu, rfl⟩ := ht
    obtain ⟨s', u', hs', hu', rfl⟩ := ht'
    obtain ⟨parts, hparts, hrest, hperm⟩ := ih ⟨fun tx htx => hsorted tx (mem_append_right _ htx), hu, hu'⟩
    have hgroup := Parts.ofParts_eq ⟨fun tx htx => hsorted tx (mem_append_left _ htx), hs, hs'⟩
    have hsort := sort_perm cr (union group)
    refine ⟨_, mapM_eq_ok.mpr (.cons hgroup (mapM_eq_ok.mp hparts)), ⟨?_, ?_, ?_⟩, ?_, ?_, ?_⟩
    · exact forall_mem_cons.mpr ⟨isSorted_sort cr _, hrest.sorted⟩
    · exact L.scalars.total_cons_eq_some.mpr ⟨s, u, L.scalars.decode_encode s, hrest.kernelOffsets, rfl⟩
    · exact L.scalars.total_cons_eq_some.mpr ⟨s', u', L.scalars.decode_encode s', hrest.stealthOffsets, rfl⟩
    · exact (hsort.inputs.append hperm.inputs).trans (.of_eq flatMap_append.symm)
    · exact (hsort.outputs.append hperm.outputs).trans (.of_eq flatMap_append.symm)
    · exact (hsort.kernels.append hperm.kernels).trans (.of_eq flatMap_append.symm)

/-- **Aggregation**: the result has the members of the parts, sorted, and the sums of their offsets,
    supply changes and fees; the order and the grouping of the parts do not matter. -/
theorem aggregate_of_parts (h : Parts L txs t t') :
    ∃ a, ofParts cr txs = .ok a ∧ a.body.Perm (union txs) ∧ a.body.isSorted cr = true ∧
      L.scalars.decode a.kernelOffset = some t ∧ L.scalars.decode a.stealthOffset = some t' ∧
      (∀ change c, (∀ tx ∈ txs, tx.body.getSupplyChange = some (change tx)) →
        a.body.getSupplyChange = some c → c = (txs.map change).sum) ∧
      (∀ fee c, (∀ tx ∈ txs, tx.body.getTotalFee = some (fee tx)) →
        a.body.getTotalFee = some c → c = (txs.map fee).sum) ∧
      ((union txs).Identified cr → (∀ txs', txs'.Perm txs → ofParts cr txs' = .ok a) ∧
        ∀ groups : List (List Aggregate), groups.flatten.Perm txs →
          (groups.mapM (ofParts cr)).bind (ofParts cr) = .ok a) := by
  have hperm := sort_perm cr (union txs)
  -- whatever has the same members is sorted into the same vectors
  have hsame : (union txs).Identified cr → ∀ parts, Parts L parts t t' → (union txs).Perm (union parts) →
      ofParts cr parts = .ok ⟨L.scalars.encode t, L.scalars.encode t', (union txs).sort cr⟩ := by
    intro hid parts hparts hunion
    rw [hparts.ofParts_eq, hunion.sort_eq hid]
  have hflat : ∀ {txs'}, txs'.Perm txs → (union txs).Perm (union txs') :=
    fun hp => ⟨hp.symm.flatMap_right _, hp.symm.flatMap_right _, hp.symm.flatMap_right _⟩
  refine ⟨_, h.ofParts_eq, hperm, isSorted_sort cr _, L.scalars.decode_encode t,
    L.scalars.decode_encode t', ?_, ?_, fun hid => ⟨?_, ?_⟩⟩
  · intro change c hchange hc
    refine sum_union (v := Kernel.change) (fun b c hb => ?_) hchange hperm hc
    rw [((sumSupplyChange_eq_some (by decide)).mp hb).2.2, Int.zero_add]
  · intro fee c hfee hc
    refine sum_union (v := Kernel.getFee) (fun b c hb => ?_) hfee hperm hc
    rw [sumMoney_eq hb, Int.zero_add]
  · intro txs' htxs'
    exact hsame hid txs' (h.perm htxs') (hflat htxs')
  · intro groups hgroups
    obtain ⟨parts, hparts, hall, hunion⟩ := (h.perm hgroups).groups
    have hback := hflat hgroups
    rw [hparts]
    exact hsame hid parts hall ⟨hback.inputs.trans hunion.inputs.symm,
      hback.outputs.trans hunion.outputs.symm, hback.kernels.trans hunion.kernels.symm⟩

/-- The transactions that peg in and out, either first. -/
theorem aggregate_of_parts_pegs :
    ofParts numberCrypto [pegOutTx.inMemory, pegInTx.inMemory] =
      ofParts numberCrypto [pegInTx.inMemory, pegOutTx.inMemory] := by
  have hparts : Parts numberLaws [pegInTx.inMemory, pegOutTx.inMemory] 0 0 :=
    ⟨by decide +kernel, by decide +kernel, by decide +kernel⟩
  obtain ⟨a, hok, _, _, _, _, _, _, horder⟩ := aggregate_of_parts hparts
  rw [hok]
  exact (horder ⟨by decide +kernel, by decide +kernel, by decide +kernel⟩).1 _ (.swap ..)

/-- A transaction with one input, which spends the output whose ID is zero. -/
def spendTx (features : UInt8) : Aggregate where
  kernelOffset := zero
  stealthOffset := zero
  body :=
    { inputs :=
        [{ features
           outputID := zero
           commitment := zero
           inputPubKey := none
           outputPubKey := zero
           extraData := []
           signature := zero }]
      outputs := []
      kernels := [] }

/-- Two inputs that spend one output: the order of the transactions is visible in the aggregate. -/
theorem aggregate_depends_on_order : Parts numberLaws [spendTx 0, spendTx 4] 0 0 ∧
    ofParts numberCrypto [spendTx 0, spendTx 4] ≠ ofParts numberCrypto [spendTx 4, spendTx 0] := by
  refine ⟨⟨by decide +kernel, by decide +kernel, by decide +kernel⟩, fun h => ?_⟩
  have hbody := congrArg (fun r => r.toOption.map Aggregate.body) h
  revert hbody
  decide +kernel

end Defcoin.Mweb
