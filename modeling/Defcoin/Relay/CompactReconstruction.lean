import Defcoin.Consensus.ReorgInverse
import Defcoin.Relay.CompactPositions
import Defcoin.Relay.ProcessTx
import Mathlib.Algebra.Group.Action.Defs
import Mathlib.Algebra.Order.BigOperators.Group.List

/-! # Reconstructing a block from the memory pool

  A transaction with data for the extension block is relayed and kept in the pool with that data,
  and is in a block without it. Its hashes are the same, so it is found by its short hash; but what
  is put into the block is the form that the pool has.
-/

open Outcome

namespace Defcoin.Relay

open List FiniteMap CTransaction

open CMutableTransaction

open Slots CBlockHeaderAndShortTxIDs

namespace PartiallyDownloadedBlock

/-! ### The scan -/

/-- The table of short hashes has the positions `ks`, one for each hash. -/
structure Table (shorttxids : ShortTxIDs) (ks : List Nat) (n : Nat) : Prop where
  nodup : ks.Nodup
  lt : ∀ k ∈ ks, k < n
  mem : ∀ id at_, shorttxids.lookup id = some at_ → at_.toNat ∈ ks
  inj : ∀ id id' at_ at_', shorttxids.lookup id = some at_ → shorttxids.lookup id' = some at_' →
    at_.toNat = at_'.toNat → id = id'
  size : shorttxids.keys.length = ks.length
  small : ks.length ≤ 0xffff

theorem Numbered.toTable {m : CBlockHeaderAndShortTxIDs} {slots : List CTransactionRef}
    {shorttxids : ShortTxIDs} (h : Numbered m slots shorttxids) :
    Table shorttxids m.remainingIndexes m.blockTxCount := by
  have hcount := h.placed.empties_eq.2
  have hsize := h.size
  refine ⟨nodup_remainingIndexes, fun k hk => (mem_remainingIndexes.mp hk).1, ?_, ?_, ?_, ?_⟩
  · intro id at_ hlookup
    obtain ⟨i, -, hat⟩ := h.lookup_inv hlookup
    exact mem_of_getElem? hat
  · intro id id' at_ at_' hlookup hlookup' heq
    obtain ⟨i, hid, hat⟩ := h.lookup_inv hlookup
    rw [heq] at hat
    exact Option.some.inj (hid.symm.trans (h.id_of_position hlookup' hat))
  · rw [h.table, (nodup_of_length_assigned hcount).mpr h.nodup, hcount]
  · rw [blockTxCount] at hsize
    omega

section Scan
variable {shortID : Uint256 → BitVec 64} {shorttxids : ShortTxIDs} {ks : List Nat} {n : Nat}
  {pool done : List (Uint256 × CMutableTransaction)} {s : Scan}

/-- The loop over the pool has met the transactions `done`. -/
structure Progress (shortID : Uint256 → BitVec 64) (shorttxids : ShortTxIDs) (ks : List Nat) (n : Nat)
    (done : List (Uint256 × CMutableTransaction)) (s : Scan) : Prop where
  length : s.txn_available.length = n
  have_length : s.have_txn.length = n
  count : s.mempool_count = BitVec.ofNat 64 (countMarked ks s.have_txn)
  found : ∀ x ∈ done, ∀ at_, shorttxids.lookup (shortID x.1) = some at_ → s.have_txn[at_.toNat]? = some true
  slot : ∀ k : Nat, s.have_txn[k]? = some true → ∃ x ∈ done, ∃ at_,
    shorttxids.lookup (shortID x.1) = some at_ ∧ at_.toNat = k ∧ s.txn_available[k]? = some (some x.2)

theorem Progress.skip (h : Progress shortID shorttxids ks n done s) {x : Uint256 × CMutableTransaction}
    (hnone : shorttxids.lookup (shortID x.1) = none) : Progress shortID shorttxids ks n (done ++ [x]) s := by
  refine ⟨h.length, h.have_length, h.count, ?_, ?_⟩
  · intro y hy at_ hlookup
    rcases mem_append.mp hy with hy | hy
    · exact h.found y hy at_ hlookup
    · rw [mem_singleton.mp hy, hnone] at hlookup
      cases hlookup
  · intro k hk
    obtain ⟨y, hy, hrest⟩ := h.slot k hk
    exact ⟨y, mem_append_left _ hy, hrest⟩

theorem Progress.take (ht : Table shorttxids ks n) (h : Progress shortID shorttxids ks n done s)
    {x : Uint256 × CMutableTransaction} {at_ : BitVec 16} (hlookup : shorttxids.lookup (shortID x.1) = some at_)
    (hnew : ∀ y ∈ done, shortID y.1 ≠ shortID x.1) :
    Succeeds (offer (fun _ _ => .ok true) 0 s at_.toNat (some x.2)) (Progress shortID shorttxids ks n (done ++ [x])) := by
  have hmem := ht.mem _ at_ hlookup
  have hlt := ht.lt _ hmem
  have hlt_have : at_.toNat < s.have_txn.length := by rw [h.have_length]; exact hlt
  have hlt_slot : at_.toNat < s.txn_available.length := by rw [h.length]; exact hlt
  -- whoever marked this position had the same short hash
  have hunmarked : s.have_txn[at_.toNat]? ≠ some true := by
    intro hmarked
    obtain ⟨y, hy, at', hlookup', heq, -⟩ := h.slot _ hmarked
    exact hnew y hy (ht.inj _ _ _ _ hlookup' hlookup heq)
  apply (getAt_of_lt hlt_have).bind
  intro seen hseen
  have hfalse : seen = false := by
    cases seen with
    | false => rfl
    | true => exact absurd hseen hunmarked
  subst hfalse
  apply (getAt_of_lt hlt_slot).bind
  intro old _
  refine ⟨_, rfl, by rw [length_set, h.length], by rw [length_set, h.have_length], ?_, ?_, ?_⟩
  · rw [countMarked_set ht.nodup hmem hlt_have hunmarked, h.count, BitVec.ofNat_add]
    rfl
  · intro y hy at' hlookup'
    by_cases heq : at_.toNat = at'.toNat
    · rw [← heq, getElem?_set_self hlt_have]
    · rw [getElem?_set_ne heq]
      rcases mem_append.mp hy with hy | hy
      · exact h.found y hy at' hlookup'
      · rw [mem_singleton.mp hy, hlookup] at hlookup'
        exact absurd (congrArg BitVec.toNat (Option.some.inj hlookup')) heq
  · intro k hk
    by_cases heq : at_.toNat = k
    · refine ⟨x, by simp, at_, hlookup, heq, ?_⟩
      rw [heq, getElem?_set_self (heq ▸ hlt_slot)]
    · rw [getElem?_set_ne heq] at hk
      obtain ⟨y, hy, at', hlookup', hat', hslot⟩ := h.slot k hk
      refine ⟨y, mem_append_left _ hy, at', hlookup', hat', ?_⟩
      rw [getElem?_set_ne heq]
      exact hslot

/-- Everything that was asked for is there, from the pool. -/
structure Complete (shortID : Uint256 → BitVec 64) (shorttxids : ShortTxIDs) (ks : List Nat) (n : Nat)
    (pool : List (Uint256 × CMutableTransaction)) (s : Scan) : Prop where
  length : s.txn_available.length = n
  marked : ∀ k ∈ ks, s.have_txn[k]? = some true
  slot : ∀ k ∈ ks, ∃ x ∈ pool, ∃ at_,
    shorttxids.lookup (shortID x.1) = some at_ ∧ at_.toNat = k ∧ s.txn_available[k]? = some (some x.2)

theorem Progress.complete (h : Progress shortID shorttxids ks n done s) (hdone : ∀ x ∈ done, x ∈ pool)
    (hmarked : ∀ k ∈ ks, s.have_txn[k]? = some true) : Complete shortID shorttxids ks n pool s := by
  refine ⟨h.length, hmarked, fun k hk => ?_⟩
  obtain ⟨x, hx, hrest⟩ := h.slot k (hmarked k hk)
  exact ⟨x, hdone x hx, hrest⟩

/-- **The pool**: if it has a transaction for every short hash, and no two for one, the loop ends
    with all of them in place. -/
theorem scanPool_complete (ht : Table shorttxids ks n) (hnodup : (pool.map fun x => shortID x.1).Nodup)
    (hall : ∀ k ∈ ks, ∃ x ∈ pool, ∃ at_, shorttxids.lookup (shortID x.1) = some at_ ∧ at_.toNat = k)
    {rest : List (Uint256 × CMutableTransaction)} (hpool : done ++ rest = pool)
    (h : Progress shortID shorttxids ks n done s) :
    Succeeds (scanPool shortID shorttxids rest s) (Complete shortID shorttxids ks n pool) := by
  induction rest generalizing done s with
  | nil =>
    rw [append_nil] at hpool
    subst hpool
    refine ⟨s, rfl, h.complete (fun x hx => hx) fun k hk => ?_⟩
    obtain ⟨x, hx, at_, hlookup, rfl⟩ := hall k hk
    exact h.found x hx at_ hlookup
  | cons x rest ih =>
    have hnew : ∀ y ∈ done, shortID y.1 ≠ shortID x.1 := by
      rw [← hpool, map_append, nodup_append] at hnodup
      intro y hy
      exact hnodup.2.2 _ (mem_map_of_mem hy) _ mem_cons_self
    have hround : Succeeds (consider shortID shorttxids (fun _ _ => .ok true) 0 s (x.1, some x.2))
        (Progress shortID shorttxids ks n (done ++ [x])) := by
      unfold consider
      split
      · next at_ hlookup => exact h.take ht hlookup hnew
      · next hnone => exact ⟨s, rfl, h.skip hnone⟩
    have hpool' : done ++ [x] ++ rest = pool := by
      rw [append_assoc]
      exact hpool
    apply hround.bind
    intro s' h'
    split
    · next hfull =>
      refine ⟨s', rfl, h'.complete (fun y hy => hpool' ▸ mem_append_left _ hy) ?_⟩
      -- as many positions are marked as there are
      rw [h'.count, ht.size] at hfull
      have hle : countMarked ks s'.have_txn ≤ ks.length := countP_le_length
      have hsmall := ht.small
      have heq := congrArg BitVec.toNat hfull
      rw [BitVec.toNat_ofNat, BitVec.toNat_ofNat, Nat.mod_eq_of_lt (by omega), Nat.mod_eq_of_lt (by omega)] at heq
      exact countMarked_eq_length.mp heq
    · exact ih hpool' h'

/-- **Extra transactions** change nothing then, if those with a short hash that is asked for have
    the witness hash of what was found. -/
theorem scanExtra_complete {H : Hashing} (ht : Table shorttxids ks n) (h : Complete shortID shorttxids ks n pool s)
    {extra : List (Uint256 × CTransactionRef)}
    (hsame : ∀ e ∈ extra, ∀ x ∈ pool, ∀ at_, shorttxids.lookup (shortID x.1) = some at_ →
      shortID e.1 = shortID x.1 → ∃ tx ∈ e.2, x.2.computeWitnessHash H = tx.computeWitnessHash H) :
    scanExtra H shortID shorttxids extra s = .ok s := by
  induction extra with
  | nil => rfl
  | cons e extra ih =>
    rw [forall_mem_cons] at hsame
    have hround : consider shortID shorttxids (witnessDiffers H) 1 s e = .ok s := by
      unfold consider
      split
      · next at_ hlookup =>
        obtain ⟨x, hx, at', hlookup', heq, hslot⟩ := h.slot _ (ht.mem _ at_ hlookup)
        have hid := ht.inj _ _ _ _ hlookup hlookup' heq.symm
        refine bind_eq_ok.mpr ⟨true, getAt_eq_ok.mpr (h.marked _ (ht.mem _ at_ hlookup)),
          bind_eq_ok.mpr ⟨some x.2, getAt_eq_ok.mpr hslot, ?_⟩⟩
        obtain ⟨tx, htx, hwitness⟩ := hsame.1 x hx at' hlookup' hid
        rw [if_neg (by decide), Option.mem_def.mp htx]
        exact bind_eq_ok.mpr ⟨false, by rw [witnessDiffers, hwitness, bne_self_eq_false], rfl⟩
      · rfl
    refine bind_eq_ok.mpr ⟨s, hround, ?_⟩
    split
    · rfl
    · exact ih hsame.2

end Scan

/-! ### InitData -/

section InitData
variable {H : Hashing} {sipHash : SipHash} {bucketSize : BucketSize} {m : CBlockHeaderAndShortTxIDs}
  {pool : List (Uint256 × CMutableTransaction)} {extra : List (Uint256 × CTransactionRef)}
  {mweb_block : Option Mweb.Block}

/-- A message that a new object takes up to the short hashes. -/
structure Ready (m : CBlockHeaderAndShortTxIDs) (slots : List CTransactionRef) : Prop where
  header : m.header.isNull = false
  prefilled : m.prefilledtxn ≠ []
  size : m.blockTxCount ≤ 0xffff
  nodup : m.shorttxids.Nodup
  place : placePrefilled m.shorttxids.length 0 (-1) m.prefilledtxn (replicate m.blockTxCount none) =
    .ok (true, slots)

variable {slots : List CTransactionRef}

theorem Ready.placed (h : Ready m slots) :
    Placed 0 m.prefilledtxn (replicate m.blockTxCount none) slots := by
  obtain ⟨_, hok, hplaced⟩ := placePrefilled_spec (room_init m)
  obtain rfl := Except.ok.inj (hok.symm.trans h.place)
  exact hplaced.1 rfl

theorem Ready.numbered (h : Ready m slots) :
    Numbered m slots (insertAll ∅ (assigned m.shorttxids m.remainingIndexes)) :=
  ⟨h.size, h.nodup, rfl, h.placed⟩

def afterPrefilled (m : CBlockHeaderAndShortTxIDs) (slots : List CTransactionRef) :
    PartiallyDownloadedBlock :=
  ⟨slots, m.prefilledtxn.length, 0, 0, m.header, m.mweb_block⟩

theorem Ready.initData_eq (h : Ready m slots) :
    initData H sipHash bucketSize m pool extra (.new mweb_block) =
      matchShortIDs H sipHash bucketSize m pool extra (afterPrefilled m slots) := by
  have hsize : m.shorttxids.length + m.prefilledtxn.length ≤ 0xffff := h.size
  have hmax : maxTxCount = 100000 := rfl
  unfold initData
  rw [if_neg (by simp [h.header, h.prefilled]), if_neg (by omega), h.place]
  rfl

theorem Ready.assign (bucketSize : BucketSize) (h : Ready m slots) :
    (BucketsFit bucketSize m.shorttxids.length [] m.shorttxids ∧
        assignShortIDs bucketSize m.shorttxids.length slots 0 0 m.shorttxids ∅ =
          .ok (some (insertAll ∅ (assigned m.shorttxids m.remainingIndexes)))) ∨
      (¬ BucketsFit bucketSize m.shorttxids.length [] m.shorttxids ∧
        assignShortIDs bucketSize m.shorttxids.length slots 0 0 m.shorttxids ∅ = .ok none) := by
  obtain ⟨r, hr, htable, hiff⟩ := h.placed.assign bucketSize h.size
  have hsome := hiff [] rfl h.nodup
  cases r with
  | none => exact Or.inr ⟨fun hfits => (by cases hsome.mpr hfits), hr⟩
  | some table =>
    rw [htable table rfl] at hr
    exact Or.inl ⟨hsome.mp rfl, hr⟩

/-- **InitData** accepts a message whose buckets fit, whatever is known. -/
theorem Ready.initData_positioned (h : Ready m slots) (hnulls : NullsApart sipHash m pool extra)
    (hfits : BucketsFit bucketSize m.shorttxids.length [] m.shorttxids) :
    ∃ p, initData H sipHash bucketSize m pool extra (.new mweb_block) = .ok (.READ_STATUS_OK, p) ∧
      Positioned sipHash bucketSize m pool extra p := by
  have hspec : Succeeds (initData H sipHash bucketSize m pool extra (.new mweb_block)) _ :=
    .of_ends (initData_spec H h.size _) fun _ h => h.2 hnulls
  obtain ⟨⟨status, p⟩, hinit, hpos⟩ := hspec
  have hassign := ((h.assign bucketSize).resolve_right fun hfull => hfull.1 hfits).2
  have hmatch := h.initData_eq.symm.trans hinit
  obtain ⟨_, hassign', hmatch⟩ := bind_eq_ok.mp hmatch
  cases hassign.symm.trans hassign'
  dsimp only at hmatch
  rw [if_neg (not_not.mpr ((nodup_of_length_assigned h.placed.empties_eq.2).mpr h.nodup))] at hmatch
  obtain ⟨_, -, heq⟩ := map_eq_ok.mp hmatch
  cases heq
  exact ⟨_, hinit, hpos rfl⟩

/-- **InitData**: a message whose transactions are all known is accepted exactly if the buckets fit,
    and then everything is in place. -/
theorem Ready.initData_complete (h : Ready m slots)
    (hpool : (pool.map fun x => getShortID sipHash m.header m.nonce x.1).Nodup)
    (hall : ∀ id ∈ m.shorttxids, ∃ x ∈ pool, getShortID sipHash m.header m.nonce x.1 = id)
    (hextra : ∀ e ∈ extra, ∀ x ∈ pool, getShortID sipHash m.header m.nonce x.1 ∈ m.shorttxids →
      getShortID sipHash m.header m.nonce e.1 = getShortID sipHash m.header m.nonce x.1 →
        ∃ tx ∈ e.2, x.2.computeWitnessHash H = tx.computeWitnessHash H) :
    Succeeds (initData H sipHash bucketSize m pool extra (.new mweb_block)) fun r =>
      (r.1 = .READ_STATUS_OK ↔ BucketsFit bucketSize m.shorttxids.length [] m.shorttxids) ∧
        (r.1 = .READ_STATUS_OK → r.2.header = m.header ∧ r.2.mweb_block = m.mweb_block ∧
          ∀ (i : Nat) id k, m.shorttxids[i]? = some id → m.remainingIndexes[i]? = some k →
            ∃ x ∈ pool, getShortID sipHash m.header m.nonce x.1 = id ∧
              r.2.txn_available[k]? = some (some x.2)) := by
  rw [h.initData_eq]
  rcases h.assign bucketSize with ⟨hfits, hassign⟩ | ⟨hfull, hassign⟩
  · have hnum := h.numbered
    have ht := hnum.toTable
    have hcount := h.placed.empties_eq.2
    have hlength := h.placed.length.trans length_replicate
    -- before the loops nothing is marked
    have hinit : Progress (getShortID sipHash m.header m.nonce)
        (insertAll ∅ (assigned m.shorttxids m.remainingIndexes)) m.remainingIndexes m.blockTxCount []
        ⟨slots, replicate slots.length false, 0, 0⟩ := by
      have hunmarked : ∀ k : Nat, (replicate slots.length false)[k]? ≠ some true := by
        intro k hk
        cases eq_of_mem_replicate (mem_of_getElem? hk)
      refine ⟨hlength, by rw [length_replicate, hlength], ?_, by simp, fun k hk => absurd hk (hunmarked k)⟩
      rw [countMarked, countP_eq_zero.mpr]
      · rfl
      · intro k _
        simpa using hunmarked k
    have hids : ∀ k ∈ m.remainingIndexes, ∃ x ∈ pool, ∃ at_,
        (insertAll ∅ (assigned m.shorttxids m.remainingIndexes)).lookup
          (getShortID sipHash m.header m.nonce x.1) = some at_ ∧ at_.toNat = k := by
      intro k hk
      obtain ⟨i, hi⟩ := mem_iff_getElem?.mp hk
      have hlt := (List.getElem?_eq_some_iff.mp hi).1
      have hid : m.shorttxids[i]? = some m.shorttxids[i] := List.getElem?_eq_getElem (by omega)
      obtain ⟨x, hx, heq⟩ := hall _ (mem_of_getElem? hid)
      have hsmall := (mem_remainingIndexes.mp hk).1
      have hsize := h.size
      refine ⟨x, hx, BitVec.ofNat 16 k, by rw [heq]; exact hnum.lookup hid hi, ?_⟩
      rw [BitVec.toNat_ofNat, Nat.mod_eq_of_lt (by omega)]
    obtain ⟨s, hscan, hcomplete⟩ := scanPool_complete ht hpool hids (nil_append pool) hinit
    have hextra' : scanExtra H (getShortID sipHash m.header m.nonce)
        (insertAll ∅ (assigned m.shorttxids m.remainingIndexes)) extra s = .ok s := by
      apply scanExtra_complete ht hcomplete
      intro e he x hx at_ hlookup heq
      obtain ⟨i, hid, -⟩ := hnum.lookup_inv hlookup
      exact hextra e he x hx (mem_of_getElem? hid) heq
    refine ⟨(.READ_STATUS_OK, { afterPrefilled m slots with
        txn_available := s.txn_available
        mempool_count := s.mempool_count
        extra_count := s.extra_count }), ?_, iff_of_true rfl hfits, fun _ => ⟨rfl, rfl, ?_⟩⟩
    · refine bind_eq_ok.mpr ⟨_, hassign, ?_⟩
      dsimp only
      rw [if_neg (not_not.mpr ((nodup_of_length_assigned hcount).mpr h.nodup))]
      refine map_eq_ok.mpr ⟨_, bind_eq_ok.mpr ⟨s, hscan, bind_eq_ok.mpr ⟨s, hextra', rfl⟩⟩, rfl⟩
    · intro i id k hid hk
      obtain ⟨x, hx, at_, hlookup, hat, hslot⟩ := hcomplete.slot k (mem_of_getElem? hk)
      rw [← hat] at hk
      exact ⟨x, hx, Option.some.inj ((hnum.id_of_position hlookup hk).symm.trans hid), hslot⟩
  · refine ⟨(.READ_STATUS_FAILED, afterPrefilled m slots), ?_, iff_of_false (by simp) hfull, by simp⟩
    exact bind_eq_ok.mpr ⟨none, hassign, rfl⟩

end InitData

end PartiallyDownloadedBlock

/-! ### Blocks -/

def CMutableTransaction.withoutMweb (tx : CMutableTransaction) : CMutableTransaction := { tx with mweb_tx := none }

theorem CMutableTransaction.withoutMweb_of_none {tx : CMutableTransaction} (h : tx.mweb_tx = none) :
    tx.withoutMweb = tx := by
  obtain ⟨_, _, _, _, mweb_tx, _⟩ := tx
  cases h
  rfl

section Validation
variable (env : Env) (H : Hashing) (getHash : CBlockHeader → Uint256)

def CBlock.toBlock (block : CBlock) : Defcoin.CBlock where
  hash := getHash block.header
  hashMerkleRoot := block.header.hashMerkleRoot
  vtx := block.vtx.map (toTransaction H)
  mweb_block := block.mweb_block

/-- `CheckBlock` -/
def checkBlockFn : PartiallyDownloadedBlock.CheckBlockFn := fun block =>
  match checkBlock env (block.toBlock H getHash) true true with
  | .ok _ => none
  | .error (.invalid result _) => some result
  -- a check that does not return does not succeed either
  | .error _ => some .BLOCK_CONSENSUS

variable {env H getHash} {block : CBlock}

theorem checkBlock_of_checkBlockFn (h : checkBlockFn env H getHash block = none) :
    checkBlock env (block.toBlock H getHash) true true = .ok () := by
  unfold checkBlockFn at h
  split at h
  · next hok => exact hok
  · cases h
  · cases h

theorem checked_of_checkBlockFn (h : checkBlockFn env H getHash block = none) {tx : CMutableTransaction}
    (htx : tx ∈ block.vtx) : tx.mweb_tx = none ∧ tx.vin ≠ [] ∧ tx.vout ≠ [] := by
  have hchecked := checkBlock_spec (checkBlock_of_checkBlockFn h)
  obtain ⟨htx, hmweb⟩ := hchecked.txs (tx.toTransaction H) (mem_map_of_mem htx)
  have hnone : tx.mweb_tx = none := by
    rw [CTransaction.hasMWEBTx, toTransaction, Option.isSome_map] at hmweb
    exact Option.isSome_eq_false_iff.mp hmweb |> Option.isNone_iff_eq_none.mp
  have honly : (tx.toTransaction H).isMWEBOnly = false := by
    rw [CTransaction.isMWEBOnly, hmweb]
    rfl
  exact ⟨hnone, htx.vin_ne_nil honly, htx.vout_ne_nil honly⟩

theorem one_le_length_writeCompactSize (n : Nat) : 1 ≤ (writeCompactSize n).length := by
  unfold writeCompactSize
  split_ifs <;> simp

theorem sixty_le_serializeSize {tx : CTransaction} (hvin : tx.vin ≠ []) (hvout : tx.vout ≠ []) :
    60 ≤ tx.serializeSize := by
  obtain ⟨txin, vin, hin⟩ := exists_cons_of_ne_nil hvin
  obtain ⟨out, vout, hout⟩ := exists_cons_of_ne_nil hvout
  have h1 := one_le_length_writeCompactSize tx.vin.length
  have h2 := one_le_length_writeCompactSize tx.vout.length
  have h3 := one_le_length_writeCompactSize txin.scriptSig.length
  have h4 := one_le_length_writeCompactSize out.scriptPubKey.length
  unfold serializeSize
  rw [hin, hout, map_cons, map_cons, sum_cons, sum_cons]
  rw [hin] at h1
  rw [hout] at h2
  unfold CTxIn.serializeSize CTxOut.serializeSize CScript.serializeSize
  omega

theorem length_le_of_checkBlockFn (h : checkBlockFn env H getHash block = none) : block.vtx.length ≤ 0xffff := by
  have hsum : block.vtx.length * 60 ≤ (block.vtx.map fun tx => (tx.toTransaction H).serializeSize).sum := by
    rw [← length_map (fun tx : CMutableTransaction => (tx.toTransaction H).serializeSize), ← smul_eq_mul]
    apply card_nsmul_le_sum
    intro size hsize
    obtain ⟨tx, htx, rfl⟩ := mem_map.mp hsize
    obtain ⟨-, hvin, hvout⟩ := checked_of_checkBlockFn h htx
    exact sixty_le_serializeSize hvin hvout
  have hcheck := checkBlock_of_checkBlockFn h
  obtain ⟨_, hcheck⟩ := unless_eq_ok.mp hcheck
  obtain ⟨_, hcheck⟩ := unless_eq_ok.mp hcheck
  obtain ⟨_, hcheck⟩ := unless_eq_ok.mp hcheck
  obtain ⟨_, hcheck⟩ := unless_eq_ok.mp hcheck
  obtain ⟨hsize, -⟩ := unless_eq_ok.mp hcheck
  simp only [Bool.or_eq_true, decide_eq_true_eq, not_or] at hsize
  have hle := hsize.2
  rw [Defcoin.CBlock.serializeSize, CBlock.toBlock, map_map] at hle
  have hscale : witnessScaleFactor = 4 := rfl
  have hmax : maxBlockWeight = 4000000 := rfl
  rw [hscale] at hle
  have hcomp : (block.vtx.map (serializeSize ∘ toTransaction H)).sum =
      (block.vtx.map fun tx => (tx.toTransaction H).serializeSize).sum := rfl
  omega

end Validation

namespace PartiallyDownloadedBlock

section Reconstruction
variable {env : Env} {H : Hashing} {getHash : CBlockHeader → Uint256} {sipHash : SipHash} {bucketSize : BucketSize}
  {nonce : BitVec 64} {block : CBlock} {pool : List CMutableTransaction}
  {extra_txn : List (Uint256 × CTransactionRef)} {m : CBlockHeaderAndShortTxIDs}

/-- Transactions with their witness hashes, as `vTxHashes` has them. -/
def hashed (H : Hashing) (txs : List CMutableTransaction) : List (Uint256 × CMutableTransaction) :=
  txs.map fun tx => (tx.computeWitnessHash H, tx)

def shortOf (H : Hashing) (sipHash : SipHash) (nonce : BitVec 64) (block : CBlock) (tx : CMutableTransaction) :
    BitVec 64 :=
  getShortID sipHash block.header nonce (tx.computeWitnessHash H)

/-- The receiver's pool has the transactions of the block, each as it was relayed, and no two short
    hashes collide. -/
structure Holds (H : Hashing) (sipHash : SipHash) (nonce : BitVec 64) (block : CBlock)
    (pool : List CMutableTransaction) (extra_txn : List (Uint256 × CTransactionRef)) : Prop where
  holds : ∀ tx ∈ inner block, ∃ tx' ∈ pool, tx'.withoutMweb = tx
  block_nodup : ((inner block).map (shortOf H sipHash nonce block)).Nodup
  pool_nodup : (pool.map (shortOf H sipHash nonce block)).Nodup
  pool_same : ∀ tx ∈ inner block, ∀ tx' ∈ pool,
    shortOf H sipHash nonce block tx' = shortOf H sipHash nonce block tx → tx'.withoutMweb = tx
  extra_same : ∀ tx ∈ inner block, ∀ e ∈ extra_txn,
    getShortID sipHash block.header nonce e.1 = shortOf H sipHash nonce block tx →
      ∃ tx' ∈ e.2, tx'.computeWitnessHash H = tx.computeWitnessHash H

variable {vtx : List CMutableTransaction} (bucketSize : BucketSize) {tx tx' : CMutableTransaction}

theorem mem_of_mem_inner (h : tx ∈ inner block) : tx ∈ block.vtx :=
  mem_of_mem_tail (mem_of_mem_filter h)

theorem computeWitnessHash_withoutMweb (hvin : tx.vin ≠ []) :
    tx.withoutMweb.computeWitnessHash H = tx.computeWitnessHash H :=
  (ids_of_mweb_exchanged (H := H) hvin none tx.m_hogEx).2

/-- A checked block, the message that is sent for it and what the receiver has. -/
structure Relayed (env : Env) (H : Hashing) (getHash : CBlockHeader → Uint256) (sipHash : SipHash) (nonce : BitVec 64)
    (block : CBlock) (pool : List CMutableTransaction) (extra_txn : List (Uint256 × CTransactionRef))
    (m : CBlockHeaderAndShortTxIDs) : Prop where
  laid : Laid block
  header : block.header.isNull = false
  check : checkBlockFn env H getHash block = none
  message : ofBlock H sipHash nonce true block = .ok m
  holds : Holds H sipHash nonce block pool extra_txn

section
variable (h : Relayed env H getHash sipHash nonce block pool extra_txn m)
include h

theorem Relayed.encodes : Encodes H sipHash true block m := by
  obtain ⟨_, hm', hencodes⟩ := ofBlock_encodes H sipHash nonce true h.laid (length_le_of_checkBlockFn h.check)
  rwa [← Except.ok.inj (h.message.symm.trans hm')] at hencodes

theorem Relayed.size : m.blockTxCount ≤ 0xffff :=
  h.encodes.count.trans_le (length_le_of_checkBlockFn h.check)

theorem Relayed.ready : ∃ slots, Ready m slots := by
  have hencodes := h.encodes
  obtain ⟨hhdr, -, -, hprefilled, hids⟩ := ofBlock_parts h.message
  -- the prefilled transactions are of the block
  have hnull : ∀ q ∈ m.prefilledtxn, q.tx.isNull = false := by
    intro q hq
    have hmem := hencodes.mem_of_prefilled hq
    obtain ⟨-, hvin, -⟩ := checked_of_checkBlockFn h.check hmem
    unfold isNull
    simp [hvin]
  obtain ⟨slots, hslots⟩ := accepted_of_bound hencodes.bound hnull
  exact ⟨slots, by rw [hhdr]; exact h.header, hprefilled, h.size, by rw [hids]; exact h.holds.block_nodup, hslots⟩

end

theorem Holds.form (hholds : Holds H sipHash nonce block pool extra_txn) (htx' : tx' ∈ pool)
    (hid : shortOf H sipHash nonce block tx' ∈ (inner block).map (shortOf H sipHash nonce block)) :
    tx'.withoutMweb ∈ inner block := by
  obtain ⟨tx, htx, heq⟩ := mem_map.mp hid
  rw [hholds.pool_same tx htx tx' htx' heq.symm]
  exact htx

theorem shortOf_withoutMweb (hcheck : checkBlockFn env H getHash block = none)
    (h : tx'.withoutMweb ∈ inner block) :
    shortOf H sipHash nonce block tx'.withoutMweb = shortOf H sipHash nonce block tx' := by
  obtain ⟨-, hvin, -⟩ := checked_of_checkBlockFn hcheck (mem_of_mem_inner h)
  have hvin' : tx'.vin ≠ [] := hvin
  rw [shortOf, computeWitnessHash_withoutMweb hvin', shortOf]

theorem Relayed.initData_complete (h : Relayed env H getHash sipHash nonce block pool extra_txn m) :
    Succeeds (initData H sipHash bucketSize m (hashed H pool) extra_txn (.new block.mweb_block)) fun r =>
      (r.1 = .READ_STATUS_OK ↔ BucketsFit bucketSize m.shorttxids.length [] m.shorttxids) ∧
        (r.1 = .READ_STATUS_OK → r.2.header = block.header ∧ r.2.mweb_block = block.mweb_block ∧
          ∀ (i : Nat) id k, m.shorttxids[i]? = some id → m.remainingIndexes[i]? = some k →
            ∃ tx' ∈ pool, shortOf H sipHash nonce block tx' = id ∧ r.2.txn_available[k]? = some (some tx')) := by
  obtain ⟨slots, hready⟩ := h.ready
  obtain ⟨hhdr, hnonce, hmweb, -, hids⟩ := ofBlock_parts h.message
  have hspec := @Ready.initData_complete H sipHash bucketSize m (hashed H pool) extra_txn block.mweb_block
    slots hready
  rw [hhdr, hnonce, hmweb] at hspec
  apply (hspec ?_ ?_ ?_).mono
  · intro r hr
    refine ⟨hr.1, fun hstatus => ?_⟩
    obtain ⟨hheader', hmweb', hslot⟩ := hr.2 hstatus
    refine ⟨hheader', hmweb', fun i id k hid hk => ?_⟩
    obtain ⟨x, hx, hshort, havailable⟩ := hslot i id k hid hk
    obtain ⟨tx', htx', rfl⟩ := mem_map.mp hx
    exact ⟨tx', htx', hshort, havailable⟩
  · rw [hashed, map_map]
    exact h.holds.pool_nodup
  · intro id hid
    rw [hids] at hid
    obtain ⟨tx, htx, rfl⟩ := mem_map.mp hid
    obtain ⟨tx', htx', rfl⟩ := h.holds.holds tx htx
    exact ⟨_, mem_map_of_mem htx', (shortOf_withoutMweb h.check htx).symm⟩
  -- an extra transaction with the short hash of a form is that form
  · intro e he x hx hid heq
    obtain ⟨x', hx', rfl⟩ := mem_map.mp hx
    rw [hids] at hid
    have hform := h.holds.form hx' hid
    have hvin : x'.vin ≠ [] := (checked_of_checkBlockFn h.check (mem_of_mem_inner hform)).2.1
    obtain ⟨tx, htx, hwitness⟩ := h.holds.extra_same _ hform e he
      (heq.trans (shortOf_withoutMweb h.check hform).symm)
    exact ⟨tx, htx, by rw [hwitness, computeWitnessHash_withoutMweb hvin]⟩

/-- **InitData** of the message of a block: every slot has the form of the transaction that belongs
    there. -/
theorem Relayed.initData_forms (h : Relayed env H getHash sipHash nonce block pool extra_txn m) :
    Succeeds (initData H sipHash bucketSize m (hashed H pool) extra_txn (.new block.mweb_block)) fun r =>
      (r.1 = .READ_STATUS_OK ↔ BucketsFit bucketSize m.shorttxids.length [] m.shorttxids) ∧
        (r.1 = .READ_STATUS_OK → r.2.header = block.header ∧ r.2.mweb_block = block.mweb_block ∧
          ∃ vtx : List CMutableTransaction, r.2.txn_available = vtx.map some ∧
            vtx.map withoutMweb = block.vtx ∧
            (∀ tx ∈ vtx, tx ∈ block.vtx ∨ tx ∈ pool ∧ tx.withoutMweb ∈ inner block) ∧
            ∀ tx' ∈ pool, tx'.withoutMweb ∈ inner block → tx' ∈ vtx) := by
  have hencodes := h.encodes
  obtain ⟨hhdr, hnonce, -, -, hids⟩ := ofBlock_parts h.message
  obtain ⟨r, hinit, hiff, hcomplete⟩ := h.initData_complete bucketSize
  refine ⟨r, hinit, hiff, fun hstatus => ?_⟩
  obtain ⟨hheader', hmweb', hslot⟩ := hcomplete hstatus
  have hpositioned : Positioned sipHash bucketSize m (hashed H pool) extra_txn r.2 := by
    have hspec := @initData_spec H sipHash bucketSize m (hashed H pool) extra_txn h.size (.new block.mweb_block)
    rw [hinit] at hspec
    exact hspec hstatus
  have hlength := hpositioned.length.trans hencodes.count
  have hslots : ∀ k < block.vtx.length, ∃ tx tx', block.vtx[k]? = some tx ∧ r.2.txn_available[k]? = some (some tx') ∧
      tx'.withoutMweb = tx ∧ (tx' = tx ∨ tx' ∈ pool ∧ tx ∈ inner block) := by
    intro k hk
    rcases hencodes.slot_cases hk with ⟨j, q, hq, hj⟩ | ⟨i, id, hid, hi⟩
    · have hvtx := hencodes.prefilled j _ k hq hj
      refine ⟨_, _, hvtx, hpositioned.prefilled j _ k hq hj, ?_, Or.inl rfl⟩
      exact withoutMweb_of_none (checked_of_checkBlockFn h.check (mem_of_getElem? hvtx)).1
    · obtain ⟨tx, htx, hvtx, heq⟩ := hencodes.short i _ k hid hi
      obtain ⟨tx', htx', hshort, havailable⟩ := hslot i _ k hid hi
      have hsame : shortOf H sipHash nonce block tx' = shortOf H sipHash nonce block tx := by
        rw [hshort, heq, hhdr, hnonce]
        rfl
      exact ⟨tx, tx', hvtx, havailable, h.holds.pool_same tx htx tx' htx' hsame, Or.inr ⟨htx', htx⟩⟩
  have hfilled : ∀ k < r.2.txn_available.length, ∃ tx', r.2.txn_available[k]? = some (some tx') := by
    intro k hk
    obtain ⟨tx, tx', -, havailable, -⟩ := hslots k (hlength ▸ hk)
    exact ⟨tx', havailable⟩
  obtain ⟨vtx, hvtx⟩ := exists_of_all_filled hfilled
  have hlength' : vtx.length = block.vtx.length := by
    rw [hvtx, length_map] at hlength
    exact hlength
  have hget : ∀ (k : Nat) tx', r.2.txn_available[k]? = some (some tx') → vtx[k]? = some tx' := by
    intro k tx' hk
    rw [hvtx, getElem?_map, Option.map_eq_some_iff] at hk
    obtain ⟨tx, htx, heq⟩ := hk
    rw [htx, Option.some.inj heq]
  refine ⟨hheader', hmweb', vtx, hvtx, ?_, ?_, ?_⟩
  · apply ext_getElem?
    intro k
    by_cases hk : k < block.vtx.length
    · obtain ⟨tx, tx', htx, havailable, heq, -⟩ := hslots k hk
      rw [getElem?_map, hget k tx' havailable, htx, Option.map_some, heq]
    · rw [getElem?_eq_none (by rw [length_map]; omega), getElem?_eq_none (by omega)]
  · intro tx' htx'
    obtain ⟨k, hk⟩ := mem_iff_getElem?.mp htx'
    have hlt := (List.getElem?_eq_some_iff.mp hk).1
    obtain ⟨tx, tx'', htx, havailable, heq, hcases⟩ := hslots k (by omega)
    obtain rfl := Option.some.inj (hk.symm.trans (hget k tx'' havailable))
    rcases hcases with rfl | ⟨hpool, hinner⟩
    · exact Or.inl (mem_of_getElem? htx)
    · exact Or.inr ⟨hpool, heq ▸ hinner⟩
  · intro tx' htx' hinner
    have hid : shortOf H sipHash nonce block tx' ∈ m.shorttxids := by
      rw [hids, ← shortOf_withoutMweb h.check hinner]
      exact mem_map_of_mem hinner
    obtain ⟨i, hi⟩ := mem_iff_getElem?.mp hid
    have hlt := (List.getElem?_eq_some_iff.mp hi).1
    rw [← hencodes.remaining] at hlt
    obtain ⟨tx'', htx'', hshort, havailable⟩ := hslot i _ _ hi (getElem?_eq_getElem hlt)
    obtain rfl := inj_on_of_nodup_map h.holds.pool_nodup htx'' htx' hshort
    exact mem_of_getElem? (hget _ _ havailable)

/-! ### FillBlock -/

theorem fillSlots_filled (vtx : List CMutableTransaction) (offset : Nat) :
    fillSlots [] (vtx.map some) offset = .ok ⟨vtx, offset, []⟩ := by
  induction vtx with
  | nil => rfl
  | cons tx vtx ih =>
    rw [map_cons, fillSlots, ih]
    rfl

theorem fillBlock_filled (checkBlock : CheckBlockFn) {p : PartiallyDownloadedBlock}
    (hheader : p.header.isNull = false) (hvtx : p.txn_available = vtx.map some) :
    p.fillBlock checkBlock [] = .ok (statusOf (checkBlock ⟨p.header, vtx, p.mweb_block⟩),
      some ⟨p.header, vtx, p.mweb_block⟩, { p with header := .null, txn_available := [] }) := by
  unfold fillBlock
  rw [if_neg (by rw [hheader]; decide), hvtx, fillSlots_filled]
  rfl

theorem map_withoutMweb_of_none (h : ∀ tx ∈ vtx, tx.mweb_tx = none) : vtx.map withoutMweb = vtx := by
  have hid : vtx.map withoutMweb = vtx.map id :=
    map_congr_left fun tx htx => withoutMweb_of_none (h tx htx)
  rw [hid, map_id]

/-- **Reconstruction**: with every transaction in the pool, a block that passes `CheckBlock` is given
    back exactly if no bucket of the table is too full and none of its transactions is in the pool
    with data for the extension block. -/
theorem reconstructs_iff (env : Env) (H : Hashing) (getHash : CBlockHeader → Uint256) (sipHash : SipHash)
    (bucketSize : BucketSize) (nonce : BitVec 64) (block : CBlock) (pool : List CMutableTransaction)
    (extra_txn : List (Uint256 × CTransactionRef)) (m : CBlockHeaderAndShortTxIDs) (hlaid : Laid block) (hheader : block.header.isNull = false)
    (hcheck : checkBlockFn env H getHash block = none) (hm : ofBlock H sipHash nonce true block = .ok m)
    (hholds : Holds H sipHash nonce block pool extra_txn) :
    (∃ p p', initData H sipHash bucketSize m (hashed H pool) extra_txn (.new block.mweb_block) =
          .ok (.READ_STATUS_OK, p) ∧
        p.fillBlock (checkBlockFn env H getHash) [] = .ok (.READ_STATUS_OK, some block, p')) ↔
      BucketsFit bucketSize m.shorttxids.length [] m.shorttxids ∧
        ∀ tx' ∈ pool, tx'.withoutMweb ∈ inner block → tx'.mweb_tx = none := by
  have hrelayed : Relayed env H getHash sipHash nonce block pool extra_txn m := ⟨hlaid, hheader, hcheck, hm, hholds⟩
  obtain ⟨⟨_, p⟩, hinit, hiff, hdone⟩ := hrelayed.initData_forms bucketSize
  constructor
  · intro h
    obtain ⟨_, _, hinit', hfill⟩ := h
    obtain ⟨rfl, rfl⟩ := Prod.mk.inj (Except.ok.inj (hinit.symm.trans hinit'))
    obtain ⟨hheader', hmweb', vtx, hvtx, -, -, hpool⟩ := hdone rfl
    rw [fillBlock_filled _ (by rw [hheader']; exact hheader) hvtx] at hfill
    -- the block has what was available
    have hblock := Option.some.inj (Prod.mk.inj (Prod.mk.inj (Except.ok.inj hfill)).2).1
    refine ⟨hiff.mp rfl, fun tx' htx' hinner => ?_⟩
    have hmem : tx' ∈ block.vtx := by
      rw [← hblock]
      exact hpool tx' htx' hinner
    exact (checked_of_checkBlockFn hcheck hmem).1
  · intro h
    obtain ⟨hfits, hnone⟩ := h
    have hstatus := hiff.mpr hfits
    subst hstatus
    obtain ⟨hheader', hmweb', vtx, hvtx, hforms, hmem, -⟩ := hdone rfl
    have hvtx_none : ∀ tx ∈ vtx, tx.mweb_tx = none := by
      intro tx htx
      rcases hmem tx htx with hblock | ⟨hpool, hinner⟩
      · exact (checked_of_checkBlockFn hcheck hblock).1
      · exact hnone tx hpool hinner
    rw [map_withoutMweb_of_none hvtx_none] at hforms
    have hblock : ⟨p.header, vtx, p.mweb_block⟩ = block := by
      rw [hforms]
      rw [show p.header = block.header from hheader', show p.mweb_block = block.mweb_block from hmweb']
    refine ⟨p, { p with header := .null, txn_available := [] }, hinit, ?_⟩
    rw [fillBlock_filled _ (by rw [hheader']; exact hheader) hvtx, hblock, hcheck]
    rfl

end Reconstruction

/-- The first transaction of a block. -/
def sampleCoinbase : CMutableTransaction where
  vin := [{ prevout := ⟨0, COutPoint.nullIndex⟩, scriptSig := [1, 1], nSequence := 0, scriptWitness := [] }]
  vout := [{ nValue := 50, scriptPubKey := [] }]
  nVersion := 2
  nLockTime := 0
  mweb_tx := none
  m_hogEx := false

/-- The last transaction of a block with an extension block. -/
def sampleHogEx : CMutableTransaction where
  vin := [{ prevout := ⟨9, 0⟩, scriptSig := [], nSequence := 0, scriptWitness := [] }]
  vout := [{ nValue := 10, scriptPubKey := [] }]
  nVersion := 2
  nLockTime := 0
  mweb_tx := none
  m_hogEx := true

def sampleBlock (tx : CMutableTransaction) : CBlock :=
  ⟨{ CBlockHeader.null with nBits := 1 }, [sampleCoinbase, tx, sampleHogEx], some (Mweb.emptyBlock 1)⟩

def lowBits : SipHash := fun _ _ hash => hash.setWidth 64

theorem laid_sampleBlock {tx : CMutableTransaction} (h : tx.m_hogEx = false) : Laid (sampleBlock tx) :=
  Laid.mweb _ sampleCoinbase [tx] sampleHogEx _ (by simpa using h) rfl

theorem holds_sampleBlock {tx' : CMutableTransaction} (h : tx'.m_hogEx = false) :
    Holds numberHashing lowBits 0 (sampleBlock tx'.withoutMweb) [tx'] [] := by
  have hinner : inner (sampleBlock tx'.withoutMweb) = [tx'.withoutMweb] := by
    have hsingle : ∀ tx ∈ [tx'.withoutMweb], tx.m_hogEx = false := by
      simpa [withoutMweb] using h
    exact filter_hogEx_last hsingle rfl
  refine ⟨?_, ?_, by simp, ?_, by simp⟩
  · rw [hinner]
    simp
  · rw [hinner]
    simp
  · rw [hinner]
    simp

theorem reconstructs_iff_plain : ∃ m p p',
    ofBlock numberHashing lowBits 0 true (sampleBlock peginTx.withoutMweb) = .ok m ∧
      initData numberHashing lowBits (fun _ _ _ => 1) m (hashed numberHashing [peginTx.withoutMweb])
          [] (.new (some (Mweb.emptyBlock 1))) = .ok (.READ_STATUS_OK, p) ∧
      p.fillBlock (checkBlockFn permissiveEnv numberHashing fun _ => 0) [] =
        .ok (.READ_STATUS_OK, some (sampleBlock peginTx.withoutMweb), p') := by
  have hcheck : checkBlockFn permissiveEnv numberHashing (fun _ => 0) (sampleBlock peginTx.withoutMweb) = none := by
    decide +kernel
  have hm : ∃ m, ofBlock numberHashing lowBits 0 true (sampleBlock peginTx.withoutMweb) = .ok m := ⟨_, rfl⟩
  obtain ⟨m, hm⟩ := hm
  have hiff := reconstructs_iff permissiveEnv numberHashing (fun _ => 0) lowBits (fun _ _ _ => 1) 0
    (sampleBlock peginTx.withoutMweb) [peginTx.withoutMweb] [] m (laid_sampleBlock rfl) rfl hcheck hm
    (@holds_sampleBlock peginTx.withoutMweb rfl)
  obtain ⟨p, p', hinit, hfill⟩ := hiff.mpr ⟨fun _ _ _ _ => Nat.le_add_left 1 11,
    by simp [withoutMweb]⟩
  exact ⟨m, p, p', hm, hinit, hfill⟩

/-- A valid block with a peg-in that the pool has with its data for the extension block is taken for a
    mutated one. -/
theorem pegin_not_reconstructed : Laid (sampleBlock peginTx.withoutMweb) ∧
    checkBlockFn permissiveEnv numberHashing (fun _ => 0) (sampleBlock peginTx.withoutMweb) = none ∧
    Holds numberHashing lowBits 0 (sampleBlock peginTx.withoutMweb) [peginTx] [] ∧ (do
      let m ← ofBlock numberHashing lowBits 0 true (sampleBlock peginTx.withoutMweb)
      let r ← initData numberHashing lowBits (fun _ _ _ => 1) m (hashed numberHashing [peginTx]) []
        (.new (some (Mweb.emptyBlock 1)))
      let f ← r.2.fillBlock (checkBlockFn permissiveEnv numberHashing fun _ => 0) []
      pure (r.1, f.1)).toOption = some (.READ_STATUS_OK, .READ_STATUS_FAILED) :=
  ⟨laid_sampleBlock rfl, by decide +kernel, holds_sampleBlock rfl, by decide +kernel⟩

end PartiallyDownloadedBlock

/-! ### Positions -/

open ByteCodec PartiallyDownloadedBlock

/-- A transaction as blocks have it: with inputs, without data for the extension block, and of a size
    that can be sent. -/
structure CMutableTransaction.InBlock (tx : CMutableTransaction) : Prop where
  vin : tx.vin ≠ []
  mweb_tx : tx.mweb_tx = none
  hogEx : tx.m_hogEx = true → tx.vout ≠ []
  wf : tx.Wf

theorem CMutableTransaction.InBlock.parses {tx : CMutableTransaction} (h : tx.InBlock) {v : StreamFlags}
    (hv : v.Used) : Parses (CMutableTransaction.unserialize v) (tx.serialize v) (tx.kept v) :=
  (parses_kept numberHashing hv (.inl h.vin) (fun hmark => ⟨h.hogEx hmark, h.mweb_tx⟩) h.wf
    (by simp [h.mweb_tx])).reads

/-- The slots of a message: each has its transaction of the block, or belongs to its short hash and has
    a known transaction with that hash, if any. -/
structure InPlace (H : Hashing) (sipHash : SipHash) (fUseWTXID : Bool) (v : StreamFlags) (block : CBlock)
    (m : CBlockHeaderAndShortTxIDs) (known : List (Uint256 × CTransactionRef)) (p : PartiallyDownloadedBlock) :
    Prop where
  length : p.txn_available.length = block.vtx.length
  slot : ∀ (k : Nat) tx, block.vtx[k]? = some tx → p.txn_available[k]? = some (some (tx.kept v)) ∨
    ∃ i : Nat, m.shorttxids[i]? = some (getShortID sipHash m.header m.nonce (hashFor H fUseWTXID tx)) ∧
      m.remainingIndexes[i]? = some k ∧ ∀ tx', p.txn_available[k]? = some (some tx') →
        ∃ hash, (hash, some tx') ∈ known ∧ getShortID sipHash m.header m.nonce hash =
          getShortID sipHash m.header m.nonce (hashFor H fUseWTXID tx)

namespace CBlockHeaderAndShortTxIDs

section Positions
variable {H : Hashing} {sipHash : SipHash} {fUseWTXID : Bool} {block : CBlock} {m : CBlockHeaderAndShortTxIDs}
  (v : StreamFlags)

theorem blockTxCount_received : (m.received v).blockTxCount = m.blockTxCount := by
  simp [blockTxCount, CBlockHeaderAndShortTxIDs.received]

theorem decodedIndexes_received : (m.received v).decodedIndexes = m.decodedIndexes := by
  simp [decodedIndexes, CBlockHeaderAndShortTxIDs.received, PrefilledTransaction.received, Function.comp_def]

theorem remainingIndexes_received : (m.received v).remainingIndexes = m.remainingIndexes := by
  rw [remainingIndexes, remainingIndexes, blockTxCount_received, decodedIndexes_received]

variable (hencodes : Encodes H sipHash fUseWTXID block m)
include hencodes

theorem Encodes.ready_received {nonce : BitVec 64} (hm : ofBlock H sipHash nonce fUseWTXID block = .ok m)
    (hheader : block.header.isNull = false) (hsize : m.blockTxCount ≤ 0xffff) (hnodup : m.shorttxids.Nodup)
    (hvin : ∀ tx ∈ block.vtx, tx.vin ≠ []) : ∃ slots, Ready (m.received v) slots := by
  obtain ⟨hhdr, -, -, hprefilled, -⟩ := ofBlock_parts hm
  have hnull : ∀ q ∈ (m.received v).prefilledtxn, q.tx.isNull = false := by
    intro q hq
    obtain ⟨q', hq', rfl⟩ := mem_map.mp hq
    have hin := hvin _ (hencodes.mem_of_prefilled hq')
    cases hallow : v.fAllowWitness <;> simp [PrefilledTransaction.received, kept, isNull, hin, hallow]
  have hbound := hencodes.bound
  rw [← decodedIndexes_received v] at hbound
  obtain ⟨slots, hslots⟩ := accepted_of_bound hbound hnull
  have hnonempty : (m.received v).prefilledtxn ≠ [] := by
    simpa [CBlockHeaderAndShortTxIDs.received] using hprefilled
  exact ⟨slots, hhdr ▸ hheader, hnonempty, (blockTxCount_received v).trans_le hsize, hnodup, hslots⟩

theorem Encodes.inPlace {bucketSize : BucketSize} {pool : List (Uint256 × CMutableTransaction)}
    {extra : List (Uint256 × CTransactionRef)} {p : PartiallyDownloadedBlock}
    (hpos : Positioned sipHash bucketSize (m.received v) pool extra p) :
    InPlace H sipHash fUseWTXID v block (m.received v) (refs pool ++ extra) p := by
  refine ⟨hpos.length.trans ((blockTxCount_received v).trans hencodes.count), fun k tx htx => ?_⟩
  rcases hencodes.slot_cases (List.getElem?_eq_some_iff.mp htx).1 with ⟨j, q, hq, hj⟩ | ⟨i, id, hid, hi⟩
  · left
    obtain rfl := Option.some.inj (htx.symm.trans (hencodes.prefilled j _ k hq hj))
    refine hpos.prefilled j (PrefilledTransaction.received v _) k ?_ (by rw [decodedIndexes_received]; exact hj)
    exact getElem?_map.trans (by rw [hq]; rfl)
  · right
    obtain ⟨tx', -, htx', heq⟩ := hencodes.short i _ k hid hi
    obtain rfl := Option.some.inj (htx.symm.trans htx')
    rw [heq] at hid
    refine ⟨i, hid, by rw [remainingIndexes_received]; exact hi, fun found hfound => ?_⟩
    exact hpos.found i _ k found hid (by rw [remainingIndexes_received]; exact hi) hfound

end Positions

end CBlockHeaderAndShortTxIDs

/-- **Positions**: whatever message is read, `InitData` and `FillBlock` return, with the prefilled
    transactions at their decoded positions and the other positions for the short hashes; unless a
    transaction has the short hash of a null reference, and this is followed. A message
    made from a block is accepted if its short hashes differ and fit into the buckets, and gives each
    transaction the position it has in the block. -/
theorem compactBlock_positions (H : Hashing) (sipHash : SipHash) :
    (∀ (readMweb : Reader Mweb.Block) (v : StreamFlags) (bs rest : Bytes) (m : CBlockHeaderAndShortTxIDs),
        unserialize readMweb v bs = .ok (m, rest) →
        ∀ bucketSize vTxHashes extra_txn (p : PartiallyDownloadedBlock),
          (p.initData H sipHash bucketSize m vTxHashes extra_txn = .error nullFollowed ∧
            ¬ NullsApart sipHash m vTxHashes extra_txn) ∨
          ∃ status p', p.initData H sipHash bucketSize m vTxHashes extra_txn = .ok (status, p') ∧
            (status = .READ_STATUS_OK → p'.Positioned sipHash bucketSize m vTxHashes extra_txn) ∧
            ∀ checkBlock vtx_missing, ∃ status' block p'',
              p'.fillBlock checkBlock vtx_missing = .ok (status', block, p'') ∧
              ∀ b, status = .READ_STATUS_OK → block = some b → b.vtx.length = m.blockTxCount ∧
                ∀ (j : Nat) q k, m.prefilledtxn[j]? = some q → m.decodedIndexes[j]? = some k →
                  b.vtx[k]? = some q.tx) ∧
      ∀ nonce fUseWTXID (block : CBlock), Laid block → block.vtx.length ≤ 65535 →
        ∃ m, ofBlock H sipHash nonce fUseWTXID block = .ok m ∧ Encodes H sipHash fUseWTXID block m ∧
          ((∀ tx ∈ block.vtx, tx.InBlock) → ∀ v : StreamFlags, v.Used →
            (∀ (writeMweb : Mweb.Block → Bytes) (readMweb : Reader Mweb.Block),
              (∀ b ∈ m.mweb_block, Parses readMweb (writeMweb b) b) →
                Parses (unserialize readMweb v) (m.serialize writeMweb v) (m.received v)) ∧
            (block.header.isNull = false → m.shorttxids.Nodup →
              ∀ bucketSize, BucketsFit bucketSize m.shorttxids.length [] m.shorttxids →
              ∀ vTxHashes extra_txn mweb_block, NullsApart sipHash m vTxHashes extra_txn → ∃ p,
                initData H sipHash bucketSize (m.received v) vTxHashes extra_txn (.new mweb_block) =
                  .ok (.READ_STATUS_OK, p) ∧
                InPlace H sipHash fUseWTXID v block (m.received v) (refs vTxHashes ++ extra_txn) p)) := by
  constructor
  · intro readMweb v bs rest m hread bucketSize vTxHashes extra_txn p
    have hspec := @initData_spec H sipHash bucketSize m vTxHashes extra_txn (blockTxCount_le_of_unserialize hread) p
    cases hinit : initData H sipHash bucketSize m vTxHashes extra_txn p with
    | error e =>
      rw [hinit] at hspec
      exact Or.inl ⟨congrArg Except.error hspec.1, hspec.2⟩
    | ok r =>
    rw [hinit] at hspec
    obtain ⟨status, p'⟩ := r
    have hpositioned : status = .READ_STATUS_OK → p'.Positioned sipHash bucketSize m vTxHashes extra_txn := hspec
    refine Or.inr ⟨status, p', rfl, hpositioned, fun checkBlock vtx_missing => ?_⟩
    obtain ⟨⟨status', block, p''⟩, hfill, hblock⟩ := fillBlock_spec checkBlock p' vtx_missing
    refine ⟨status', block, p'', hfill, fun b hstatus hb => ?_⟩
    -- filling keeps what is there, position by position
    obtain ⟨hlength, hkeep⟩ := forall₂_iff_get.mp (hblock b hb)
    have hpos := hpositioned hstatus
    refine ⟨hlength.symm.trans hpos.length, fun j q k hq hk => ?_⟩
    obtain ⟨hlt, htx⟩ := List.getElem?_eq_some_iff.mp (hpos.prefilled j q k hq hk)
    exact List.getElem?_eq_some_iff.mpr ⟨hlength ▸ hlt, (hkeep k hlt (hlength ▸ hlt) q.tx htx).symm⟩
  · intro nonce fUseWTXID block hlaid hsize
    obtain ⟨m, hm, hencodes⟩ := ofBlock_encodes H sipHash nonce fUseWTXID hlaid hsize
    have hcount := hencodes.count.trans_le hsize
    refine ⟨m, hm, hencodes, fun htxs v hv => ⟨fun writeMweb readMweb hmweb => ?_, ?_⟩⟩
    · apply parses_message hcount hencodes.ids _ hmweb
      intro q hq
      exact (htxs _ (hencodes.mem_of_prefilled hq)).parses hv
    · intro hheader hnodup bucketSize hfits vTxHashes extra_txn mweb_block hnulls
      obtain ⟨slots, hready⟩ := hencodes.ready_received v hm hheader hcount hnodup fun tx htx => (htxs tx htx).vin
      obtain ⟨p, hinit, hpos⟩ := hready.initData_positioned hnulls hfits
      exact ⟨p, hinit, hencodes.inPlace v hpos⟩

theorem inBlock_of_small {tx : CMutableTransaction} (hne : tx.vin ≠ [])
    (hvin : tx.vin.length ≤ maxSize ∧ ∀ txin ∈ tx.vin, txin.prevout.n < 2 ^ 32 ∧ txin.scriptSig.length ≤ maxSize ∧
      txin.scriptWitness = [])
    (hvout : tx.vout ≠ [] ∧ tx.vout.length ≤ maxSize ∧ ∀ out ∈ tx.vout, int64Min ≤ out.nValue ∧
      out.nValue ≤ int64Max ∧ out.scriptPubKey.length ≤ maxSize)
    (hmweb : tx.mweb_tx = none) : tx.InBlock := by
  refine ⟨hne, hmweb, fun _ => hvout.1, hvin.1, fun txin htxin => ?_, hvout.2.1, fun out hout => ?_, by simp [hmweb]⟩
  · obtain ⟨hn, hscript, hwitness⟩ := hvin.2 txin htxin
    exact ⟨⟨hn, hscript⟩, by rw [hwitness]; exact ⟨Nat.zero_le _, by simp⟩⟩
  · obtain ⟨hlow, hhigh, hscript⟩ := hvout.2.2 out hout
    exact ⟨⟨hlow, hhigh⟩, hscript⟩

/-- A block of three transactions comes over both kinds of streams, and what the pool has goes into
    its place. The one entry of `extra_txn` was not used yet. -/
theorem compactBlock_positions_sample : ∃ m,
    ofBlock numberHashing lowBits 0 true (sampleBlock peginTx.withoutMweb) = .ok m ∧
      ∀ v ∈ [fullStream, ⟨true, false⟩], ∃ p status block p',
        unserialize (fun bs => .ok (Mweb.emptyBlock 1, bs)) v (m.serialize (fun _ => []) v) = .ok (m.received v, []) ∧
        initData numberHashing lowBits (fun _ _ _ => 1) (m.received v) (hashed numberHashing [peginTx]) [(0, none)]
          (.new none) = .ok (.READ_STATUS_OK, p) ∧
        InPlace numberHashing lowBits true v (sampleBlock peginTx.withoutMweb) (m.received v)
          (refs (hashed numberHashing [peginTx]) ++ [(0, none)]) p ∧
        p.fillBlock (fun _ => none) [] = .ok (status, some block, p') ∧ block.vtx.length = 3 := by
  have htxs : ∀ tx ∈ (sampleBlock peginTx.withoutMweb).vtx, tx.InBlock := by
    intro tx htx
    apply inBlock_of_small
    · revert tx
      decide
    · revert tx
      decide
    · revert tx
      decide
    · revert tx
      decide
  -- the one short hash is that of the transaction in the pool
  have hsome : ∀ v ∈ [fullStream, ⟨true, false⟩], (ofBlock numberHashing lowBits 0 true
      (sampleBlock peginTx.withoutMweb) >>= fun m => initData numberHashing lowBits (fun _ _ _ => 1) (m.received v)
      (hashed numberHashing [peginTx]) [(0, none)] (.new none) >>= fun r => r.2.fillBlock (fun _ => none) []).map
      (fun r => r.2.1.isSome) = .ok true := by
    decide +kernel
  have hpositions := compactBlock_positions numberHashing lowBits
  obtain ⟨m, hm, hencodes, hstreams⟩ := hpositions.2 0 true
    (sampleBlock peginTx.withoutMweb) (laid_sampleBlock rfl) (by decide)
  refine ⟨m, hm, fun v hv => ?_⟩
  have hused : v.Used := by
    have hallow : v.fAllowWitness = true := by
      revert v
      decide
    exact fun _ => hallow
  obtain ⟨hread, hinit⟩ := hstreams htxs v hused
  have hbytes := (hread (fun _ => []) (fun bs => .ok (Mweb.emptyBlock 1, bs)) fun b hb rest => by
    cases (ofBlock_parts hm).2.2.1.symm.trans hb
    rfl).run
  -- the null reference has another short hash
  have hnulls : NullsApart lowBits m (hashed numberHashing [peginTx]) [(0, none)] := by
    intro hash _ _ hmem _ hid
    cases mem_singleton.mp hmem
    cases hm
    exact absurd hid (by decide)
  obtain ⟨p, hp, hplace⟩ := hinit rfl (by cases hm; decide) (fun _ _ _ => 1) (fun _ _ _ _ => Nat.le_add_left 1 11)
    (hashed numberHashing [peginTx]) [(0, none)] none hnulls
  obtain ⟨_, _, hp', -, hfill⟩ := (hpositions.1 _ v _ _ _ hbytes (fun _ _ _ => 1) (hashed numberHashing [peginTx])
    [(0, none)] (.new none)).resolve_left fun h => h.2 hnulls
  cases hp.symm.trans hp'
  obtain ⟨status, block, p', hfill, hpos⟩ := hfill (fun _ => none) []
  have hblock := hsome v hv
  obtain ⟨_, hrun, hblock⟩ := map_eq_ok.mp hblock
  obtain ⟨_, hm', hrun⟩ := bind_eq_ok.mp hrun
  cases hm.symm.trans hm'
  obtain ⟨_, hp'', hfill'⟩ := bind_eq_ok.mp hrun
  cases hp.symm.trans hp''
  cases hfill.symm.trans hfill'
  obtain ⟨block, rfl⟩ := Option.isSome_iff_exists.mp hblock
  refine ⟨p, status, block, p', hbytes, hp, hplace, hfill, ?_⟩
  rw [(hpos block rfl rfl).1, blockTxCount_received, hencodes.count]
  rfl

-- a transaction of the pool has the short hash of an entry that was not used yet
example : (ofBlock numberHashing (fun _ _ _ => 7) 0 true (sampleBlock peginTx.withoutMweb) >>= fun m =>
    initData numberHashing (fun _ _ _ => 7) (fun _ _ _ => 1) m (hashed numberHashing [peginTx]) [(0, none)]
      (.new none)).map Prod.fst = .error nullFollowed := by
  decide +kernel

end Defcoin.Relay
