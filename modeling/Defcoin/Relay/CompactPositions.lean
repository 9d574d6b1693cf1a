import Defcoin.Relay.CompactBlock
import Defcoin.Relay.TransactionRoundTrip

/-! # Positions in a compact block

  The prefilled transactions are at increasing positions, and the short hashes take the positions
  that are left. There are exactly as many, so the scan for them stays inside the vector.
-/

open Outcome

namespace Defcoin.Relay

open ByteCodec Slots FiniteMap PartiallyDownloadedBlock List CMutableTransaction Option

namespace CBlockHeaderAndShortTxIDs

def decodedIndexes (m : CBlockHeaderAndShortTxIDs) : List Nat :=
  positions 0 (m.prefilledtxn.map fun p => p.index.toNat)

def remainingIndexes (m : CBlockHeaderAndShortTxIDs) : List Nat :=
  (range m.blockTxCount).filter (· ∉ m.decodedIndexes)

end CBlockHeaderAndShortTxIDs

open CBlockHeaderAndShortTxIDs

namespace PartiallyDownloadedBlock

/-! ### Prefilled transactions -/

def gaps (ps : List PrefilledTransaction) : List Nat := ps.map fun p => p.index.toNat

/-- Prefilled transactions are in their slots, and nothing else has changed. -/
structure Placed (start : Nat) (ps : List PrefilledTransaction)
    (slots slots' : List CTransactionRef) : Prop where
  length : slots'.length = slots.length
  empties : (empties 0 slots').length + ps.length = (empties 0 slots).length
  placed : ∀ (j : Nat) p k, ps[j]? = some p → (positions start (gaps ps))[j]? = some k → slots'[k]? = some (some p.tx)
  other : ∀ k, k ∉ positions start (gaps ps) → slots'[k]? = slots[k]?

variable {i shorttxids start : Nat} {p : PrefilledTransaction} {ps : List PrefilledTransaction}
  {slots : List CTransactionRef}

theorem Placed.cons {slots' : List CTransactionRef}
    (hempty : slots[start + p.index.toNat]? = some none)
    (h : Placed (start + p.index.toNat + 1) ps (slots.set (start + p.index.toNat) (some p.tx)) slots') :
    Placed start (p :: ps) slots slots' := by
  have hlt := (List.getElem?_eq_some_iff.mp hempty).1
  -- the later positions are beyond this one
  have hfresh : start + p.index.toNat ∉ positions (start + p.index.toNat + 1) (gaps ps) := by
    intro hmem
    have := le_of_mem_positions hmem
    omega
  refine ⟨by rw [h.length, length_set], ?_, ?_, ?_⟩
  · have hone := length_empties_set (p := 0) hempty p.tx
    have hrest := h.empties
    rw [length_cons]
    omega
  · intro j q k hq hk
    cases j with
    | zero =>
      cases hq
      cases hk
      rw [h.other _ hfresh, getElem?_set_self hlt]
    | succ j => exact h.placed j q k hq hk
  · intro k hk
    rw [gaps, map_cons, positions, mem_cons, not_or] at hk
    rw [h.other k hk.2, getElem?_set_ne (Ne.symm hk.1)]

/-- What the loop over the prefilled transactions needs: room for them and for the short hashes, and
    nothing beyond the last one. -/
structure Room (shorttxids i start : Nat) (ps : List PrefilledTransaction)
    (slots : List CTransactionRef) : Prop where
  length : slots.length = shorttxids + i + ps.length
  empty : ∀ k, start ≤ k → k < slots.length → slots[k]? = some none

theorem Room.next {k : Nat} (h : Room shorttxids i start (p :: ps) slots) (hk : start ≤ k) :
    Room shorttxids (i + 1) (k + 1) ps (slots.set k (some p.tx)) := by
  refine ⟨?_, fun k' hle hlt => ?_⟩
  · rw [length_set, h.length, length_cons]
    omega
  · rw [length_set] at hlt
    rw [getElem?_set_ne (by omega)]
    exact h.empty k' (by omega) hlt

/-- **Prefilled transactions**: the loop stays inside the vector, and places them where their
    distances lead. -/
theorem placePrefilled_spec (h : Room shorttxids i start ps slots) :
    Succeeds (placePrefilled shorttxids i ((start : Int) - 1) ps slots) fun r =>
      (r.1 = true → Placed start ps slots r.2) ∧
      ((∀ p ∈ ps, p.tx.isNull = false) →
        (∀ (j : Nat) k, (positions start (gaps ps))[j]? = some k → k ≤ 0xffff ∧ k ≤ shorttxids + i + j) →
        r.1 = true) := by
  induction ps generalizing i start slots with
  | nil =>
    refine ⟨_, rfl, fun _ => ⟨rfl, rfl, fun j p k hp => ?_, fun k _ => rfl⟩, fun _ _ => rfl⟩
    cases hp
  | cons p ps ih =>
    have hindex : start - 1 + p.index.toNat + 1 = ((start + p.index.toNat : Nat) : Int) := by omega
    rw [placePrefilled]
    dsimp only
    rw [hindex]
    split
    -- refused are a null transaction, a position over 16 bits and a gap
    · next hisNull => exact ⟨_, rfl, nofun, fun hnull _ => absurd hisNull (by simp [hnull])⟩
    · split
      · exact ⟨_, rfl, nofun, fun _ hbound => absurd (hbound 0 (start + p.index.toNat) rfl).1 (by omega)⟩
      · split
        · exact ⟨_, rfl, nofun, fun _ hbound => absurd (hbound 0 (start + p.index.toNat) rfl).2 (by omega)⟩
        · have hlength := h.length
          rw [length_cons] at hlength
          have hlt : start + p.index.toNat < slots.length := by omega
          apply Succeeds.bind_of_eq (setAt_of_lt hlt (some p.tx))
          have hnext := ih (h.next (k := start + p.index.toNat) (by omega))
          have hcast : ((start + p.index.toNat + 1 : Nat) - 1) = ((start + p.index.toNat : Nat) : Int) := by
            omega
          rw [hcast] at hnext
          apply hnext.mono
          intro r hr
          refine ⟨fun hvalid => (hr.1 hvalid).cons (h.empty _ (by omega) hlt), fun hnull hbound => ?_⟩
          apply hr.2 (forall_mem_cons.mp hnull).2
          intro j k hk
          have := hbound (j + 1) k hk
          omega

theorem room_init (m : CBlockHeaderAndShortTxIDs) :
    Room m.shorttxids.length 0 0 m.prefilledtxn (replicate m.blockTxCount none) := by
  refine ⟨by rw [length_replicate, blockTxCount]; omega, fun k _ hk => ?_⟩
  rw [length_replicate] at hk
  exact getElem?_replicate_of_lt hk

theorem Placed.empties_eq {m : CBlockHeaderAndShortTxIDs}
    (h : Placed 0 m.prefilledtxn (List.replicate m.blockTxCount none) slots) :
    Slots.empties 0 slots = m.remainingIndexes ∧ m.remainingIndexes.length = m.shorttxids.length := by
  have hlength := h.length
  rw [length_replicate] at hlength
  have heq : Slots.empties 0 slots = m.remainingIndexes := by
    rw [empties_eq_filter, hlength, ← range_eq_range']
    apply filter_congr
    intro k hk
    rw [mem_range] at hk
    rw [Nat.sub_zero]
    by_cases hmem : k ∈ m.decodedIndexes
    · obtain ⟨j, hj, hget⟩ := mem_iff_getElem.mp hmem
      have hj' : j < m.prefilledtxn.length := by
        rw [decodedIndexes, length_positions, length_map] at hj
        exact hj
      have hpos := List.getElem?_eq_some_iff.mpr ⟨hj, hget⟩
      rw [h.placed j _ k (List.getElem?_eq_getElem hj') hpos]
      simp [hmem]
    · rw [h.other k hmem, getElem?_replicate_of_lt hk]
      simp [hmem]
  refine ⟨heq, ?_⟩
  have hcount := h.empties
  rw [heq, empties_replicate_none, blockTxCount] at hcount
  omega

/-! ### Short hashes -/

section ShortHashes
variable {slots : List CTransactionRef}
variable {id : BitVec 64} {shorttxids : ShortTxIDs} {index_offset : BitVec 16} {ks : List Nat}
  {ids : List (BitVec 64)}

theorem skipFilled_spec {i rounds k : Nat} {rest : List Nat} (hsize : slots.length ≤ 0xffff)
    (hrounds : slots.length ≤ i + index_offset.toNat + rounds)
    (hnext : empties (i + index_offset.toNat) (slots.drop (i + index_offset.toNat)) = k :: rest) :
    Succeeds (skipFilled slots i rounds index_offset) fun offset =>
      i + offset.toNat = k ∧ k < slots.length ∧ empties (k + 1) (slots.drop (k + 1)) = rest := by
  have hlt := lt_of_empties_drop (by rw [hnext]; nofun)
  induction rounds generalizing index_offset with
  | zero => omega
  | succ rounds ih =>
    apply (getAt_of_lt hlt).bind
    intro tx htx
    cases tx with
    | none =>
      rw [empties_drop_of_empty htx, cons.injEq] at hnext
      rw [← hnext.1]
      exact ⟨index_offset, rfl, rfl, hlt, hnext.2⟩
    | some tx =>
      have hsucc : (index_offset + 1).toNat = index_offset.toNat + 1 := by
        exact Nat.mod_eq_of_lt (by simp; omega)
      rw [empties_drop_of_filled htx, Nat.add_assoc] at hnext
      rw [← hsucc] at hnext
      exact ih (by omega) hnext (lt_of_empties_drop (by rw [hnext]; nofun))

def assigned (ids : List (BitVec 64)) (ks : List Nat) : List (BitVec 64 × BitVec 16) :=
  ids.zip (ks.map (BitVec.ofNat 16))

/-- No bucket of the table gets more than twelve elements while the short hashes `ids` are entered
    after `before`. -/
def BucketsFit (bucketSize : BucketSize) (buckets : Nat) (before ids : List (BitVec 64)) : Prop :=
  ∀ pre id post, ids = pre ++ id :: post → bucketSize buckets (id :: (before ++ pre).reverse) id ≤ 12

theorem bucketsFit_cons {bucketSize : BucketSize} {buckets : Nat} {before ids : List (BitVec 64)} {id : BitVec 64} :
    BucketsFit bucketSize buckets before (id :: ids) ↔
      bucketSize buckets (id :: before.reverse) id ≤ 12 ∧ BucketsFit bucketSize buckets (before ++ [id]) ids := by
  constructor
  · intro h
    refine ⟨?_, fun pre id' post heq => ?_⟩
    · have hfirst := h [] id ids rfl
      rwa [append_nil] at hfirst
    · have hlater := h (id :: pre) id' post (by rw [heq, cons_append])
      rwa [append_cons] at hlater
  · intro h pre id' post heq
    cases pre with
    | nil =>
      obtain ⟨rfl, rfl⟩ := cons.inj heq
      rw [append_nil]
      exact h.1
    | cons _ pre =>
      obtain ⟨rfl, hrest⟩ := cons.inj heq
      rw [append_cons]
      exact h.2 pre id' post hrest

theorem keys_insert_new {before : List (BitVec 64)} (hkeys : shorttxids.keys = before.reverse)
    (hnodup : (before ++ id :: ids).Nodup) (at_ : BitVec 16) :
    (shorttxids.insert id at_).keys = id :: before.reverse := by
  have hfresh : id ∉ before := fun hmem => (nodup_append.mp hnodup).2.2 id hmem id mem_cons_self rfl
  rw [AList.keys_insert, hkeys, erase_of_not_mem (by simpa using hfresh)]

/-- **Assignment**: the short hashes get the empty slots, in order, exactly if all buckets fit. -/
theorem assignShortIDs_spec (bucketSize : BucketSize) (buckets : Nat) {i : Nat}
    (hsize : slots.length ≤ 0xffff)
    (hks : empties (i + index_offset.toNat) (slots.drop (i + index_offset.toNat)) = ks)
    (hlength : ks.length = ids.length) :
    Succeeds (assignShortIDs bucketSize buckets slots i index_offset ids shorttxids) fun r =>
      (∀ result, r = some result → result = insertAll shorttxids (assigned ids ks)) ∧
      ∀ before, shorttxids.keys = before.reverse → (before ++ ids).Nodup →
        (r.isSome = true ↔ BucketsFit bucketSize buckets before ids) := by
  induction ids generalizing i index_offset ks shorttxids with
  | nil =>
    refine ⟨_, rfl, fun result hresult => ?_, fun before _ _ => iff_of_true rfl fun pre id post heq => ?_⟩
    · cases hresult
      rfl
    · exact absurd heq.symm (by simp)
  | cons id ids ih =>
    cases ks with
    | nil => cases hlength
    | cons k ks =>
      apply (skipFilled_spec hsize (by omega) hks).bind
      intro offset hoffset
      obtain ⟨hk, hlt, hrest⟩ := hoffset
      dsimp only
      rw [hk]
      split
      -- the source gives up as soon as one bucket is too full
      · next hfull =>
        refine ⟨none, rfl, nofun, fun before hkeys hnodup => iff_of_false nofun fun h => ?_⟩
        rw [keys_insert_new hkeys hnodup] at hfull
        exact absurd (bucketsFit_cons.mp h).1 (not_le.mpr hfull)
      · next hfits =>
        have hnext : i + 1 + offset.toNat = k + 1 := by omega
        have hlength' := Nat.succ.inj hlength
        apply (ih (by rw [hnext]; exact hrest) hlength').mono
        intro r hr
        refine ⟨fun result hresult => ?_, fun before hkeys hnodup => ?_⟩
        · rw [hr.1 result hresult]
          rfl
        · have hkeys' := keys_insert_new hkeys hnodup (BitVec.ofNat 16 k)
          rw [hkeys'] at hfits
          rw [hr.2 (before ++ [id]) (by rw [hkeys', reverse_append]; rfl) (by simpa using hnodup), bucketsFit_cons]
          exact ⟨fun h => ⟨not_lt.mp hfits, h⟩, fun h => h.2⟩

theorem lookup_assigned (hnodup : ids.Nodup) (hlength : ks.length = ids.length) {i k : Nat}
    (hid : ids[i]? = some id) (hk : ks[i]? = some k) :
    (insertAll shorttxids (assigned ids ks)).lookup id = some (BitVec.ofNat 16 k) := by
  apply lookup_insertAll
  · rw [assigned, map_fst_zip (by rw [length_map]; omega)]
    exact hnodup
  · rw [assigned, mem_iff_getElem?]
    exact ⟨i, by rw [getElem?_zip_eq_some]; exact ⟨hid, by rw [getElem?_map, hk]; rfl⟩⟩

theorem lookup_assigned_inv (hnodup : ids.Nodup) (hlength : ks.length = ids.length) {at_ : BitVec 16}
    (h : (insertAll ∅ (assigned ids ks)).lookup id = some at_) :
    ∃ (i : Nat) (k : Nat), ids[i]? = some id ∧ ks[i]? = some k ∧ at_ = BitVec.ofNat 16 k := by
  have hmem : id ∈ insertAll ∅ (assigned ids ks) := by
    rw [← AList.lookup_isSome, h]
    rfl
  rw [mem_insertAll, assigned, map_fst_zip (by rw [length_map]; omega)] at hmem
  rcases hmem with hmem | hmem
  · exact absurd hmem (AList.notMem_empty id)
  · obtain ⟨i, hi⟩ := mem_iff_getElem?.mp hmem
    obtain ⟨hlt, -⟩ := List.getElem?_eq_some_iff.mp hi
    have hk : ks[i]? = some ks[i] := List.getElem?_eq_getElem (by omega)
    rw [lookup_assigned hnodup hlength hi hk] at h
    exact ⟨i, ks[i], hi, hk, (some.inj h).symm⟩

theorem nodup_of_length_assigned (hlength : ks.length = ids.length) :
    (insertAll ∅ (assigned ids ks)).keys.length = ids.length ↔ ids.Nodup := by
  have hzip : (assigned ids ks).length = ids.length := by
    rw [assigned, length_zip, length_map]
    omega
  rw [← hzip, length_keys_insertAll, assigned, map_fst_zip (by rw [length_map]; omega)]

end ShortHashes

/-! ### Known transactions -/

section Known
variable {shortID : Uint256 → BitVec 64} {shorttxids : ShortTxIDs}
  {differs : CMutableTransaction → CTransactionRef → Except Fault Bool} {extra : BitVec 64}
  {known : List (Uint256 × CTransactionRef)} {base : List CTransactionRef} {s : Scan}
  {E : Fault → Prop}

/-- Only slots of short hashes were filled, with known transactions of those hashes. -/
structure Matched (shortID : Uint256 → BitVec 64) (shorttxids : ShortTxIDs)
    (known : List (Uint256 × CTransactionRef)) (base : List CTransactionRef) (s : Scan) : Prop where
  length : s.txn_available.length = base.length
  have_length : s.have_txn.length = base.length
  found : ∀ k tx, s.txn_available[k]? = some (some tx) → base[k]? = some (some tx) ∨
    ∃ hash at_, (hash, some tx) ∈ known ∧ shorttxids.lookup (shortID hash) = some at_ ∧ at_.toNat = k
  other : ∀ k, (∀ id at_, shorttxids.lookup id = some at_ → at_.toNat ≠ k) → s.txn_available[k]? = base[k]?

theorem Matched.set (h : Matched shortID shorttxids known base s) {hash : Uint256} {at_ : BitVec 16}
    (hlookup : shorttxids.lookup (shortID hash) = some at_) (hlt : at_.toNat < base.length)
    (slot : CTransactionRef) (hslot : ∀ tx ∈ slot, (hash, some tx) ∈ known) {s' : Scan}
    (hs' : s'.txn_available = s.txn_available.set at_.toNat slot) (hhave : s'.have_txn.length = s.have_txn.length) :
    Matched shortID shorttxids known base s' := by
  refine ⟨by rw [hs', length_set, h.length], hhave.trans h.have_length, ?_, ?_⟩
  · intro k tx hk
    rw [hs'] at hk
    by_cases heq : at_.toNat = k
    · rw [heq, getElem?_set_self (by rw [h.length, ← heq]; exact hlt)] at hk
      exact Or.inr ⟨hash, at_, hslot tx (some.inj hk), hlookup, heq⟩
    · rw [getElem?_set_ne heq] at hk
      exact h.found k tx hk
  · intro k hk
    rw [hs', getElem?_set_ne (hk _ at_ hlookup)]
    exact h.other k hk

theorem offer_spec (h : Matched shortID shorttxids known base s) {hash : Uint256} {tx : CTransactionRef}
    {at_ : BitVec 16} (hknown : (hash, tx) ∈ known) (hlookup : shorttxids.lookup (shortID hash) = some at_)
    (hlt : at_.toNat < base.length)
    (hcompare : ∀ old, s.txn_available[at_.toNat]? = some (some old) → Ends E (fun _ => True) (differs old tx)) :
    Ends E (Matched shortID shorttxids known base) (offer differs extra s at_.toNat tx) := by
  apply (getAt_of_lt (by rw [h.have_length]; exact hlt)).ends.bind
  intro seen _
  apply (getAt_of_lt (by rw [h.length]; exact hlt)).ends.bind
  intro old hold
  split
  · exact h.set hlookup hlt tx (fun _ htx => htx ▸ hknown) rfl length_set
  · cases old with
    | none => exact h
    | some old =>
      apply (hcompare old hold).bind
      intro differ _
      split
      · exact h.set hlookup hlt none nofun rfl rfl
      · exact h

/-- **Known transactions**: if the comparisons return, the loops stay inside the vectors and change
    only slots of short hashes. -/
theorem scan_spec (hrange : ∀ id at_, shorttxids.lookup id = some at_ → at_.toNat < base.length)
    {rest : List (Uint256 × CTransactionRef)} (hrest : ∀ x ∈ rest, x ∈ known)
    (hcompare : ∀ x ∈ rest, ∀ at_ s old, shorttxids.lookup (shortID x.1) = some at_ →
      Matched shortID shorttxids known base s → s.txn_available[at_.toNat]? = some (some old) →
        Ends E (fun _ => True) (differs old x.2))
    (h : Matched shortID shorttxids known base s) :
    Ends E (Matched shortID shorttxids known base) (scan shortID shorttxids differs extra rest s) := by
  induction rest generalizing s with
  | nil => exact h
  | cons x rest ih =>
    rw [forall_mem_cons] at hrest hcompare
    have hround : Ends E (Matched shortID shorttxids known base)
        (consider shortID shorttxids differs extra s x) := by
      unfold consider
      split
      · next at_ hlookup =>
        exact offer_spec h hrest.1 hlookup (hrange _ at_ hlookup) (hcompare.1 at_ s · hlookup h)
      · exact h
    apply hround.bind
    intro s' h'
    split
    · exact h'
    · exact ih hrest.2 hcompare.2 h'

theorem lookUp_spec (H : Hashing) (sipHash : SipHash) {m : CBlockHeaderAndShortTxIDs}
    {vTxHashes : List (Uint256 × CMutableTransaction)} {extra_txn : List (Uint256 × CTransactionRef)}
    {p : PartiallyDownloadedBlock}
    (hrange : ∀ id at_, shorttxids.lookup id = some at_ → at_.toNat < p.txn_available.length)
    (hnull : ∀ hash at_ s old, (hash, none) ∈ extra_txn →
      shorttxids.lookup (getShortID sipHash m.header m.nonce hash) = some at_ →
      Matched (getShortID sipHash m.header m.nonce) shorttxids (refs vTxHashes ++ extra_txn) p.txn_available s →
        s.txn_available[at_.toNat]? = some (some old) → E nullFollowed) :
    Ends E (fun p' => ∃ s, Matched (getShortID sipHash m.header m.nonce) shorttxids (refs vTxHashes ++ extra_txn)
        p.txn_available s ∧ p'.txn_available = s.txn_available)
      (lookUp H sipHash m shorttxids vTxHashes extra_txn p) := by
  have hinit : Matched (getShortID sipHash m.header m.nonce) shorttxids (refs vTxHashes ++ extra_txn) p.txn_available
      ⟨p.txn_available, replicate p.txn_available.length false, p.mempool_count, p.extra_count⟩ :=
    ⟨rfl, length_replicate, fun k tx hk => Or.inl hk, fun k _ => rfl⟩
  unfold lookUp scanPool scanExtra
  refine Ends.bind (scan_spec hrange (fun x hx => mem_append_left _ hx) (fun _ _ _ _ _ _ _ _ => trivial) hinit) ?_
  intro s hs
  have hcompare : ∀ x ∈ extra_txn, ∀ at_ s old,
      shorttxids.lookup (getShortID sipHash m.header m.nonce x.1) = some at_ →
      Matched (getShortID sipHash m.header m.nonce) shorttxids (refs vTxHashes ++ extra_txn) p.txn_available s →
        s.txn_available[at_.toNat]? = some (some old) → Ends E (fun _ => True) (witnessDiffers H old x.2) := by
    rintro ⟨hash, tx⟩ hx at_ s old hlookup hs hold
    cases tx with
    | none => exact hnull hash at_ s old hx hlookup hs hold
    | some tx => trivial
  apply (scan_spec hrange (fun x hx => mem_append_right _ hx) hcompare hs).bind
  intro s' hs'
  exact ⟨s', hs', rfl⟩

end Known

/-! ### InitData and FillBlock -/

section Calls
variable (H : Hashing) (sipHash : SipHash) (bucketSize : BucketSize)

/-- Every prefilled transaction is at its decoded position, and the other positions belong to the
    short hashes, in order. -/
structure Positioned (m : CBlockHeaderAndShortTxIDs) (vTxHashes : List (Uint256 × CMutableTransaction))
    (extra_txn : List (Uint256 × CTransactionRef)) (p : PartiallyDownloadedBlock) : Prop where
  length : p.txn_available.length = m.blockTxCount
  remaining : m.remainingIndexes.length = m.shorttxids.length
  prefilled : ∀ (j : Nat) q k, m.prefilledtxn[j]? = some q → m.decodedIndexes[j]? = some k →
    p.txn_available[k]? = some (some q.tx)
  /-- the table of short hashes -/
  assigned : ∃ slots shorttxids,
    placePrefilled m.shorttxids.length 0 (-1) m.prefilledtxn (replicate m.blockTxCount none) =
        .ok (true, slots) ∧
      assignShortIDs bucketSize m.shorttxids.length slots 0 0 m.shorttxids ∅ = .ok (some shorttxids) ∧
      ∀ (i : Nat) id k, m.shorttxids[i]? = some id → m.remainingIndexes[i]? = some k →
        shorttxids.lookup id = some (BitVec.ofNat 16 k)
  /-- what was found for them -/
  found : ∀ (i : Nat) id k tx, m.shorttxids[i]? = some id → m.remainingIndexes[i]? = some k →
    p.txn_available[k]? = some (some tx) →
      ∃ hash, (hash, some tx) ∈ refs vTxHashes ++ extra_txn ∧ getShortID sipHash m.header m.nonce hash = id

/-- No transaction has a short hash of the message that a null reference has too. -/
def NullsApart (m : CBlockHeaderAndShortTxIDs) (vTxHashes : List (Uint256 × CMutableTransaction))
    (extra_txn : List (Uint256 × CTransactionRef)) : Prop :=
  ∀ hash hash' tx, (hash, none) ∈ extra_txn → (hash', some tx) ∈ refs vTxHashes ++ extra_txn →
    getShortID sipHash m.header m.nonce hash ∈ m.shorttxids →
      getShortID sipHash m.header m.nonce hash' ≠ getShortID sipHash m.header m.nonce hash

variable {sipHash bucketSize} {m : CBlockHeaderAndShortTxIDs}
  {vTxHashes : List (Uint256 × CMutableTransaction)} {extra_txn : List (Uint256 × CTransactionRef)}

theorem Placed.assign (bucketSize : BucketSize) {slots : List CTransactionRef}
    (hsize : m.blockTxCount ≤ 0xffff) (h : Placed 0 m.prefilledtxn (replicate m.blockTxCount none) slots) :
    Succeeds (assignShortIDs bucketSize m.shorttxids.length slots 0 0 m.shorttxids ∅) fun r =>
      (∀ result, r = some result → result = insertAll ∅ (assigned m.shorttxids m.remainingIndexes)) ∧
      ∀ before, [] = before.reverse → (before ++ m.shorttxids).Nodup →
        (r.isSome = true ↔ BucketsFit bucketSize m.shorttxids.length before m.shorttxids) := by
  have hlength := h.length.trans length_replicate
  exact assignShortIDs_spec bucketSize _ (by omega) h.empties_eq.1 h.empties_eq.2

theorem mem_remainingIndexes {k : Nat} : k ∈ m.remainingIndexes ↔ k < m.blockTxCount ∧ k ∉ m.decodedIndexes := by
  rw [remainingIndexes, mem_filter, mem_range, decide_eq_true_eq]

theorem nodup_remainingIndexes : m.remainingIndexes.Nodup := nodup_range.filter _

/-- The short hashes of a message that has not too many transactions, without a collision. -/
structure Numbered (m : CBlockHeaderAndShortTxIDs) (slots : List CTransactionRef)
    (shorttxids : ShortTxIDs) : Prop where
  size : m.blockTxCount ≤ 0xffff
  nodup : m.shorttxids.Nodup
  table : shorttxids = insertAll ∅ (assigned m.shorttxids m.remainingIndexes)
  placed : Placed 0 m.prefilledtxn (replicate m.blockTxCount none) slots

section Numbered
variable {slots : List CTransactionRef} {shorttxids : ShortTxIDs}
variable {at_ : BitVec 16} {id : BitVec 64}

section
variable (h : Numbered m slots shorttxids)
include h

theorem Numbered.lookup {i k : Nat} (hid : m.shorttxids[i]? = some id) (hk : m.remainingIndexes[i]? = some k) :
    shorttxids.lookup id = some (BitVec.ofNat 16 k) := by
  rw [h.table]
  exact lookup_assigned h.nodup h.placed.empties_eq.2 hid hk

theorem Numbered.lookup_inv (hlookup : shorttxids.lookup id = some at_) :
    ∃ i : Nat, m.shorttxids[i]? = some id ∧ m.remainingIndexes[i]? = some at_.toNat := by
  rw [h.table] at hlookup
  obtain ⟨i, _, hid, hk, rfl⟩ := lookup_assigned_inv h.nodup h.placed.empties_eq.2 hlookup
  have hlt := (mem_remainingIndexes.mp (mem_of_getElem? hk)).1
  have hsize := h.size
  refine ⟨i, hid, ?_⟩
  rw [BitVec.toNat_ofNat, Nat.mod_eq_of_lt (by omega)]
  exact hk

theorem Numbered.id_of_position {i : Nat} (hlookup : shorttxids.lookup id = some at_)
    (hi : m.remainingIndexes[i]? = some at_.toNat) : m.shorttxids[i]? = some id := by
  obtain ⟨_, hj, hat⟩ := h.lookup_inv hlookup
  obtain rfl := (List.getElem?_inj (List.getElem?_eq_some_iff.mp hi).1 nodup_remainingIndexes).mp
    (hi.trans hat.symm)
  exact hj

theorem Numbered.found {shortID : Uint256 → BitVec 64} {known : List (Uint256 × CTransactionRef)} {s : Scan}
    {i k : Nat} {tx : CMutableTransaction} (hs : Matched shortID shorttxids known slots s)
    (hid : m.shorttxids[i]? = some id) (hk : m.remainingIndexes[i]? = some k)
    (htx : s.txn_available[k]? = some (some tx)) : ∃ hash, (hash, some tx) ∈ known ∧ shortID hash = id := by
  rcases hs.found k tx htx with hbase | hfound
  · obtain ⟨hlt, hout⟩ := mem_remainingIndexes.mp (mem_of_getElem? hk)
    rw [h.placed.other k hout, getElem?_replicate_of_lt hlt] at hbase
    cases hbase
  · obtain ⟨hash, at_, hknown, hlookup, rfl⟩ := hfound
    exact ⟨hash, hknown, some.inj ((h.id_of_position hlookup hk).symm.trans hid)⟩

theorem Numbered.positioned {s : Scan} {p : PartiallyDownloadedBlock}
    (hplace : placePrefilled m.shorttxids.length 0 (-1) m.prefilledtxn (replicate m.blockTxCount none) = .ok (true, slots))
    (hassign : assignShortIDs bucketSize m.shorttxids.length slots 0 0 m.shorttxids ∅ = .ok (some shorttxids))
    (hs : Matched (getShortID sipHash m.header m.nonce) shorttxids (refs vTxHashes ++ extra_txn) slots s)
    (hp : p.txn_available = s.txn_available) : Positioned sipHash bucketSize m vTxHashes extra_txn p := by
  have hcount := h.placed.empties_eq.2
  refine ⟨?_, hcount, ?_, ⟨slots, shorttxids, hplace, hassign, fun i id k => h.lookup⟩, ?_⟩
  · rw [hp, hs.length, h.placed.length, length_replicate]
  · intro j q k hq hk
    rw [hp, hs.other k, h.placed.placed j q k hq hk]
    -- no short hash has the position of a prefilled transaction
    intro id at_ hlookup heq
    obtain ⟨i, -, hat⟩ := h.lookup_inv hlookup
    exact (mem_remainingIndexes.mp (mem_of_getElem? hat)).2 (heq ▸ mem_of_getElem? hk)
  · intro i id k tx hid hk htx
    rw [hp] at htx
    exact h.found hs hid hk htx

end

end Numbered

/-- **InitData** returns or follows a null reference, and what it accepts is positioned. -/
theorem initData_spec (hsize : m.blockTxCount ≤ 0xffff) (p : PartiallyDownloadedBlock) :
    Ends (fun e => e = nullFollowed ∧ ¬ NullsApart sipHash m vTxHashes extra_txn)
      (fun r => r.1 = .READ_STATUS_OK → Positioned sipHash bucketSize m vTxHashes extra_txn r.2)
      (initData H sipHash bucketSize m vTxHashes extra_txn p) := by
  unfold initData
  split
  · exact nofun
  split
  · exact nofun
  split
  · exact nofun
  obtain ⟨⟨valid, slots⟩, hplace, hplaced⟩ := placePrefilled_spec (room_init m)
  apply Ends.bind_of_eq hplace
  split
  · exact nofun
  · next hvalid =>
    obtain rfl : valid = true := by simpa using hvalid
    have hplaced := hplaced.1 rfl
    have hcount := hplaced.empties_eq.2
    have hlength : slots.length = m.blockTxCount := hplaced.length.trans length_replicate
    obtain ⟨r, hassign, htable, -⟩ := hplaced.assign bucketSize hsize
    apply Ends.bind_of_eq hassign
    split
    · exact nofun
    · next shorttxids =>
      obtain rfl := htable shorttxids rfl
      split
      · exact nofun
      · next hnodup =>
        have hnum : Numbered m slots (insertAll ∅ (assigned m.shorttxids m.remainingIndexes)) :=
          ⟨hsize, (nodup_of_length_assigned hcount).mp (not_not.mp hnodup), rfl, hplaced⟩
        apply Ends.map (lookUp_spec H sipHash ?_ ?_)
        · intro p' hp' _
          obtain ⟨_, hs, hp'⟩ := hp'
          exact hnum.positioned hplace hassign hs hp'
        · intro id at_ hlookup
          obtain ⟨_, -, hat⟩ := hnum.lookup_inv hlookup
          have := (mem_remainingIndexes.mp (mem_of_getElem? hat)).1
          dsimp only
          omega
        · intro hash at_ s old hmem hlookup hs hold
          -- what is in the slot has the short hash of the null reference
          obtain ⟨i, hid, hk⟩ := hnum.lookup_inv hlookup
          obtain ⟨hash', hmem', heq⟩ := hnum.found hs hid hk hold
          exact ⟨rfl, fun hnulls => hnulls hash hash' old hmem hmem' (mem_of_getElem? hid) heq⟩

def Keeps (slot : Option CMutableTransaction) (tx : CMutableTransaction) : Prop := ∀ tx' ∈ slot, tx' = tx

theorem fillSlots_spec (vtx_missing : List CMutableTransaction) (slots : List CTransactionRef)
    (offset : Nat) : Succeeds (fillSlots vtx_missing slots offset) fun filled =>
      filled.left = [] → Forall₂ Keeps slots filled.vtx := by
  induction slots generalizing offset with
  | nil => exact ⟨_, rfl, fun _ => .nil⟩
  | cons slot slots ih =>
    cases slot with
    | some tx =>
      apply (ih offset).bind
      intro filled hfilled
      exact ⟨_, rfl, fun hleft => .cons (fun _ h => (some.inj h).symm) (hfilled hleft)⟩
    | none =>
      rw [fillSlots]
      split
      · exact ⟨_, rfl, nofun⟩
      · next hoffset =>
        apply (getAt_of_lt (not_le.mp hoffset)).bind
        intro tx _
        apply (ih (offset + 1)).bind
        intro filled hfilled
        exact ⟨_, rfl, fun hleft => .cons nofun (hfilled hleft)⟩

theorem fillBlock_spec (checkBlock : CheckBlockFn) (p : PartiallyDownloadedBlock)
    (vtx_missing : List CMutableTransaction) :
    Succeeds (fillBlock checkBlock p vtx_missing) fun r =>
      ∀ block, r.2.1 = some block → Forall₂ Keeps p.txn_available block.vtx := by
  unfold fillBlock
  split
  · exact ⟨_, rfl, nofun⟩
  · apply (fillSlots_spec vtx_missing p.txn_available 0).bind
    intro filled hfilled
    split
    · exact ⟨_, rfl, nofun⟩
    · next hleft =>
      have hfilled := hfilled (by simpa using hleft)
      split
      · refine ⟨_, rfl, fun block hblock => ?_⟩
        cases hblock
        exact hfilled
      · refine ⟨_, rfl, fun block hblock => ?_⟩
        cases hblock
        exact hfilled

end Calls

end PartiallyDownloadedBlock

/-! ### Serialisation -/

def PrefilledTransaction.received (v : StreamFlags) (p : PrefilledTransaction) : PrefilledTransaction :=
  { p with tx := p.tx.kept v }

def CBlockHeaderAndShortTxIDs.received (v : StreamFlags) (m : CBlockHeaderAndShortTxIDs) :
    CBlockHeaderAndShortTxIDs :=
  { m with
    prefilledtxn := m.prefilledtxn.map (·.received v)
    mweb_block := if v.fAllowMWEB then m.mweb_block else none }

theorem parses_header (header : CBlockHeader) : Parses unserHeader (serHeader header) header := by
  have h : Parses unserHeader
      (writeLE 4 header.nVersion.toNat ++ (writeLE 32 header.hashPrevBlock.toNat ++
        (writeLE 32 header.hashMerkleRoot.toNat ++ (writeLE 4 header.nTime.toNat ++
          (writeLE 4 header.nBits.toNat ++ writeLE 4 header.nNonce.toNat)))))
      { nVersion := BitVec.ofNat 32 header.nVersion.toNat
        hashPrevBlock := BitVec.ofNat 256 header.hashPrevBlock.toNat
        hashMerkleRoot := BitVec.ofNat 256 header.hashMerkleRoot.toNat
        nTime := BitVec.ofNat 32 header.nTime.toNat
        nBits := BitVec.ofNat 32 header.nBits.toNat
        nNonce := BitVec.ofNat 32 header.nNonce.toNat } :=
    (parses_le header.nVersion.isLt).bind ((parses_le header.hashPrevBlock.isLt).bind
      ((parses_le header.hashMerkleRoot.isLt).bind ((parses_le header.nTime.isLt).bind
        ((parses_le header.nBits.isLt).bind ((parses_le header.nNonce.isLt).map _)))))
  simpa only [serHeader, append_assoc, BitVec.ofNat_toNat, BitVec.setWidth_eq] using h

theorem parses_prefilled {v : StreamFlags} {p : PrefilledTransaction}
    (h : Parses (unserialize v) (p.tx.serialize v) (p.tx.kept v)) :
    Parses (unserPrefilled v) (serPrefilled v p) (p.received v) := by
  have hindex : p.index.toNat ≤ maxSize := by
    unfold maxSize
    omega
  have hread : Parses (unserPrefilled v) (writeCompactSize p.index.toNat ++ ([] ++ p.tx.serialize v))
      { index := BitVec.ofNat 16 p.index.toNat, tx := p.tx.kept v } :=
    (parses_compactSize hindex).bind ((parses_ensure (by omega) _).bind (h.map _))
  simpa only [serPrefilled, PrefilledTransaction.received, nil_append, BitVec.ofNat_toNat, BitVec.setWidth_eq]
    using hread

namespace CBlockHeaderAndShortTxIDs

variable {v : StreamFlags} {readMweb : Reader Mweb.Block} {txs : List CMutableTransaction}
  {m : CBlockHeaderAndShortTxIDs}

theorem parses_message {writeMweb : Mweb.Block → Bytes}
    (hsize : m.blockTxCount ≤ 0xffff) (hids : ∀ id ∈ m.shorttxids, id.toNat < 2 ^ 48)
    (htxs : ∀ p ∈ m.prefilledtxn, Parses (CMutableTransaction.unserialize v) (p.tx.serialize v) (p.tx.kept v))
    (hmweb : ∀ b ∈ m.mweb_block, Parses readMweb (writeMweb b) b) :
    Parses (unserialize readMweb v) (m.serialize writeMweb v) (m.received v) := by
  have hcount : m.shorttxids.length + m.prefilledtxn.length ≤ 0xffff := hsize
  have hmax : 0xffff ≤ maxSize := by decide
  have hshort : Parses (readVector (readLE 6)) (writeVector (fun id => writeLE 6 id.toNat) m.shorttxids)
      (m.shorttxids.map BitVec.toNat) :=
    parses_vector BitVec.toNat (by omega) fun id hid => parses_le (hids id hid)
  have hprefilled := parses_vector (·.received v) (by omega) fun p hp => parses_prefilled (htxs p hp)
  have hblock : Parses (unserMwebBlock readMweb v)
      (if v.fAllowMWEB then serOptionalPtr writeMweb m.mweb_block else [])
      (if v.fAllowMWEB then m.mweb_block else none) := by
    unfold unserMwebBlock
    split_ifs
    · cases hb : m.mweb_block with
      | none => exact fun _ => rfl
      | some b => exact (parses_byte 1).bind ((hmweb b hb).map some)
    · exact Parses.pure none
  have hback : (m.shorttxids.map BitVec.toNat).map (BitVec.ofNat 64) = m.shorttxids := by
    simp [Function.comp_def]
  have hread : Parses (unserialize readMweb v)
      (serHeader m.header ++ (writeLE 8 m.nonce.toNat ++
        (writeVector (fun id => writeLE 6 id.toNat) m.shorttxids ++
          (writeVector (serPrefilled v) m.prefilledtxn ++
            ((if v.fAllowMWEB then serOptionalPtr writeMweb m.mweb_block else []) ++ ([] ++ []))))))
      { header := m.header
        nonce := BitVec.ofNat 64 m.nonce.toNat
        shorttxids := (m.shorttxids.map BitVec.toNat).map (BitVec.ofNat 64)
        prefilledtxn := m.prefilledtxn.map (·.received v)
        mweb_block := if v.fAllowMWEB then m.mweb_block else none } :=
    (parses_header m.header).bind ((parses_le m.nonce.isLt).bind (hshort.bind (hprefilled.bind (hblock.bind
      ((parses_ensure (by rw [length_map, length_map]; exact hcount) _).bind (Parses.pure _))))))
  rw [hback] at hread
  simpa only [serialize, received, append_assoc, append_nil, BitVec.ofNat_toNat, BitVec.setWidth_eq]
    using hread

theorem blockTxCount_le_of_unserialize {bs rest : Bytes} (h : unserialize readMweb v bs = .ok (m, rest)) :
    m.blockTxCount ≤ 0xffff := by
  simp only [unserialize, reader_bind_eq_ok, ensure_eq_ok] at h
  obtain ⟨header, _, -, _, _, -, _, _, -, _, _, -, _, _, -, _, _, ⟨hcount, -⟩, rfl, -⟩ := h
  rw [blockTxCount, length_map]
  exact hcount

/-! ### Blocks -/

/-- The blocks that are relayed: without an extension block and a HogEx, or with both and the HogEx
    last. -/
inductive Laid : CBlock → Prop where
  | plain (header : CBlockHeader) (coinbase : CMutableTransaction) (txs : List CMutableTransaction)
      (h : ∀ tx ∈ txs, tx.m_hogEx = false) : Laid ⟨header, coinbase :: txs, none⟩
  | mweb (header : CBlockHeader) (coinbase : CMutableTransaction) (txs : List CMutableTransaction)
      (hogEx : CMutableTransaction) (mweb_block : Mweb.Block) (h : ∀ tx ∈ txs, tx.m_hogEx = false)
      (hhogEx : hogEx.m_hogEx = true) : Laid ⟨header, coinbase :: (txs ++ [hogEx]), some mweb_block⟩

theorem ids_lt {sipHash : SipHash} {header : CBlockHeader} {nonce : BitVec 64}
    {hash : CMutableTransaction → Uint256} :
    ∀ id ∈ txs.map (fun tx => getShortID sipHash header nonce (hash tx)), id.toNat < 2 ^ 48 := by
  intro id hid
  obtain ⟨tx, -, rfl⟩ := mem_map.mp hid
  exact Nat.lt_of_le_of_lt Nat.and_le_right (by decide)

def inner (block : CBlock) : List CMutableTransaction := block.vtx.tail.filter fun tx => !tx.m_hogEx

/-- A message gives each transaction the position it has in the block. -/
structure Encodes (H : Hashing) (sipHash : SipHash) (fUseWTXID : Bool) (block : CBlock)
    (m : CBlockHeaderAndShortTxIDs) : Prop where
  header : m.header = block.header
  mweb_block : m.mweb_block = block.mweb_block
  count : m.blockTxCount = block.vtx.length
  remaining : m.remainingIndexes.length = m.shorttxids.length
  prefilled : ∀ (j : Nat) q k, m.prefilledtxn[j]? = some q → m.decodedIndexes[j]? = some k →
    block.vtx[k]? = some q.tx
  short : ∀ (i : Nat) id k, m.shorttxids[i]? = some id → m.remainingIndexes[i]? = some k →
    ∃ tx ∈ inner block, block.vtx[k]? = some tx ∧ id = getShortID sipHash m.header m.nonce (hashFor H fUseWTXID tx)
  ids : ∀ id ∈ m.shorttxids, id.toNat < 2 ^ 48
  /-- the loop over the prefilled transactions takes their positions -/
  bound : ∀ (j : Nat) k, m.decodedIndexes[j]? = some k → k ≤ 0xffff ∧ k ≤ m.shorttxids.length + 0 + j

theorem filter_range_inner {l : List Nat} {n count : Nat} (hle : n + 1 ≤ count) (hzero : 0 ∈ l)
    (hinner : ∀ k, 1 ≤ k → k ≤ n → k ∉ l) (hlast : ∀ k, n < k → k < count → k ∈ l) :
    (range count).filter (· ∉ l) = range' 1 n := by
  have hsplit : range count = 0 :: (range' 1 n ++ range' (1 + n) (count - (n + 1))) := by
    obtain ⟨_, rfl⟩ := Nat.exists_eq_add_of_le hle
    rw [range'_append_1, Nat.add_sub_cancel_left, Nat.add_right_comm, range_eq_range', range'_succ]
  rw [hsplit, filter_cons_of_neg (by simpa using hzero), filter_append, filter_eq_self.mpr,
    filter_eq_nil_iff.mpr, append_nil]
  · intro k hk
    rw [mem_range'_1] at hk
    simpa using hlast k (by omega) (by omega)
  · intro k hk
    rw [mem_range'_1] at hk
    simpa using hinner k hk.1 (by omega)

theorem accepted_of_bound
    (hbound : ∀ (j : Nat) k, m.decodedIndexes[j]? = some k → k ≤ 0xffff ∧ k ≤ m.shorttxids.length + 0 + j)
    (hnull : ∀ q ∈ m.prefilledtxn, q.tx.isNull = false) :
    ∃ slots, placePrefilled m.shorttxids.length 0 (-1) m.prefilledtxn
      (replicate m.blockTxCount none) = .ok (true, slots) := by
  obtain ⟨⟨valid, slots⟩, hok, hvalid⟩ := placePrefilled_spec (room_init m)
  obtain rfl : valid = true := hvalid.2 hnull hbound
  exact ⟨slots, hok⟩

theorem filter_hogEx (h : ∀ tx ∈ txs, tx.m_hogEx = false) : (txs.filter fun tx => !tx.m_hogEx) = txs := by
  rw [filter_eq_self]
  intro tx htx
  rw [h tx htx]
  rfl

theorem filter_hogEx_last {hogEx : CMutableTransaction} (h : ∀ tx ∈ txs, tx.m_hogEx = false)
    (hhogEx : hogEx.m_hogEx = true) : ((txs ++ [hogEx]).filter fun tx => !tx.m_hogEx) = txs := by
  rw [filter_append, filter_hogEx h, filter_cons_of_neg (by simp [hhogEx]), filter_nil, append_nil]

theorem lastIndex_toNat {n : Nat} (h : n + 2 ≤ 0xffff) :
    ((BitVec.ofNat 64 (n + 2) - 2).setWidth 16).toNat = n := by
  rw [BitVec.toNat_setWidth, BitVec.toNat_sub, BitVec.toNat_ofNat]
  have htwo : (2 : BitVec 64).toNat = 2 := rfl
  omega

section Encoding
variable (H : Hashing) (sipHash : SipHash) (nonce : BitVec 64) (fUseWTXID : Bool)
variable {m : CBlockHeaderAndShortTxIDs} {block : CBlock}

theorem ofBlock_parts {H : Hashing} {sipHash : SipHash} {nonce : BitVec 64} {fUseWTXID : Bool}
    (h : ofBlock H sipHash nonce fUseWTXID block = .ok m) :
    m.header = block.header ∧ m.nonce = nonce ∧ m.mweb_block = block.mweb_block ∧ m.prefilledtxn ≠ [] ∧
      m.shorttxids = (inner block).map fun tx => getShortID sipHash block.header nonce (hashFor H fUseWTXID tx) := by
  unfold ofBlock at h
  split at h
  · cases h
  · next coinbase rest hvtx =>
    cases h
    refine ⟨rfl, rfl, rfl, nofun, ?_⟩
    unfold inner
    rw [hvtx]
    rfl

/-- A message encodes a block if the transactions that are prefilled are the first and, if there is
    one, the one after the others. -/
theorem encodes_of_parts {coinbase : CMutableTransaction} {txs : List CMutableTransaction}
    (last : List CMutableTransaction) (hm : ofBlock H sipHash nonce fUseWTXID block = .ok m)
    (hvtx : block.vtx = coinbase :: (txs ++ last)) (hinner : inner block = txs) (hlast : last.length ≤ 1)
    (hprefilled : m.prefilledtxn.map PrefilledTransaction.tx = coinbase :: last)
    (hdecoded : m.decodedIndexes = 0 :: last.map fun _ => txs.length + 1) (hsize : block.vtx.length ≤ 0xffff) :
    Encodes H sipHash fUseWTXID block m := by
  obtain ⟨hheader, hnonce, hmweb, -, hids⟩ := ofBlock_parts hm
  rw [hinner] at hids
  have hshort : m.shorttxids.length = txs.length := by rw [hids, length_map]
  have hlength : block.vtx.length = txs.length + last.length + 1 := by
    rw [hvtx, length_cons, length_append]
  have hcount : m.blockTxCount = block.vtx.length := by
    have hboth := congrArg length hprefilled
    rw [length_map, length_cons] at hboth
    rw [blockTxCount]
    omega
  -- the positions of the first transaction and of the last one
  have hpos : ∀ j k : Nat, m.decodedIndexes[j]? = some k →
      k ≤ txs.length + j ∧ j ≤ last.length ∧ block.vtx[k]? = (coinbase :: last)[j]? := by
    intro j k hk
    rw [hdecoded] at hk
    cases j with
    | zero =>
      cases hk
      exact ⟨Nat.zero_le _, Nat.zero_le _, by rw [hvtx]; rfl⟩
    | succ j =>
      rw [getElem?_cons_succ, getElem?_map, map_eq_some_iff] at hk
      obtain ⟨tx, htx, rfl⟩ := hk
      have hj := (List.getElem?_eq_some_iff.mp htx).1
      obtain rfl : j = 0 := by omega
      refine ⟨le_refl _, hj, ?_⟩
      rw [hvtx, getElem?_cons_succ, getElem?_append_right (le_refl _), Nat.sub_self,
        getElem?_cons_succ]
  have hremaining : m.remainingIndexes = range' 1 txs.length := by
    rw [remainingIndexes, hdecoded]
    apply filter_range_inner (by omega) mem_cons_self
    · intro k hk hle hmem
      rcases mem_cons.mp hmem with rfl | hmem
      · omega
      · obtain ⟨_, -, heq⟩ := mem_map.mp hmem
        omega
    · intro k hk hlt
      obtain ⟨tx, htx⟩ : ∃ tx, tx ∈ last := exists_mem_of_length_pos (by omega)
      exact mem_cons_of_mem _ (mem_map.mpr ⟨tx, htx, by omega⟩)
  refine ⟨hheader, hmweb, hcount, by rw [hremaining, length_range', hshort], ?_, ?_, ?_, ?_⟩
  · intro j q k hq hk
    rw [(hpos j k hk).2.2, ← hprefilled, getElem?_map, hq]
    rfl
  · intro i id k hid hk
    rw [hids, getElem?_map, map_eq_some_iff] at hid
    obtain ⟨tx, htx, rfl⟩ := hid
    have hlt := (List.getElem?_eq_some_iff.mp htx).1
    rw [hremaining, List.getElem?_range' hlt, some.injEq] at hk
    obtain rfl : k = i + 1 := by omega
    refine ⟨tx, hinner ▸ mem_of_getElem? htx, ?_, by rw [hheader, hnonce]⟩
    rw [hvtx, getElem?_cons_succ, getElem?_append_left hlt]
    exact htx
  · rw [hids]
    exact ids_lt
  · intro j k hk
    obtain ⟨hle, hj, -⟩ := hpos j k hk
    omega

section
variable {H : Hashing} {sipHash : SipHash} {fUseWTXID : Bool} (hencodes : Encodes H sipHash fUseWTXID block m)
include hencodes

theorem Encodes.mem_of_prefilled {q : PrefilledTransaction} (hq : q ∈ m.prefilledtxn) : q.tx ∈ block.vtx := by
  obtain ⟨j, hj⟩ := mem_iff_getElem?.mp hq
  have hlt : j < m.decodedIndexes.length := by
    rw [decodedIndexes, length_positions, length_map]
    exact (List.getElem?_eq_some_iff.mp hj).1
  exact mem_of_getElem? (hencodes.prefilled j q _ hj (List.getElem?_eq_getElem hlt))

theorem Encodes.slot_cases {k : Nat} (hk : k < block.vtx.length) :
    (∃ (j : Nat) (q : PrefilledTransaction), m.prefilledtxn[j]? = some q ∧ m.decodedIndexes[j]? = some k) ∨
      ∃ (i : Nat) (id : BitVec 64), m.shorttxids[i]? = some id ∧ m.remainingIndexes[i]? = some k := by
  by_cases hdecoded : k ∈ m.decodedIndexes
  · obtain ⟨j, hj⟩ := mem_iff_getElem?.mp hdecoded
    have hlt := (List.getElem?_eq_some_iff.mp hj).1
    rw [decodedIndexes, length_positions, length_map] at hlt
    exact Or.inl ⟨j, _, getElem?_eq_getElem hlt, hj⟩
  · have hremaining := mem_remainingIndexes.mpr ⟨by rw [hencodes.count]; exact hk, hdecoded⟩
    obtain ⟨i, hi⟩ := mem_iff_getElem?.mp hremaining
    have hlt := (List.getElem?_eq_some_iff.mp hi).1
    rw [hencodes.remaining] at hlt
    exact Or.inr ⟨i, _, getElem?_eq_getElem hlt, hi⟩

end

/-- **Encoding**: the constructor's message has the positions of the block. -/
theorem ofBlock_encodes (hlaid : Laid block) (hsize : block.vtx.length ≤ 0xffff) :
    ∃ m, ofBlock H sipHash nonce fUseWTXID block = .ok m ∧ Encodes H sipHash fUseWTXID block m := by
  cases hlaid with
  | plain header coinbase txs h =>
    exact ⟨_, rfl, encodes_of_parts H sipHash nonce fUseWTXID [] rfl (by rw [append_nil]; rfl) (filter_hogEx h)
      (Nat.zero_le 1) rfl rfl hsize⟩
  | mweb header coinbase txs hogEx mweb_block h hhogEx =>
    have hlength : (coinbase :: (txs ++ [hogEx])).length = txs.length + 2 := by
      rw [length_cons, length_append]
      rfl
    have hprefilled : prefilledOf ⟨header, coinbase :: (txs ++ [hogEx]), some mweb_block⟩
        coinbase = [⟨0, coinbase⟩, ⟨(BitVec.ofNat 64 (txs.length + 2) - 2).setWidth 16, hogEx⟩] := by
      have hlast : (coinbase :: (txs ++ [hogEx])).getLastD coinbase = hogEx := by
        rw [getLastD_cons, getLastD_concat]
      rw [prefilledOf, hlast, hlength]
      rfl
    refine ⟨_, rfl, encodes_of_parts H sipHash nonce fUseWTXID [hogEx] rfl rfl (filter_hogEx_last h hhogEx)
      (le_refl 1) ?_ ?_ hsize⟩
    · rw [hprefilled]
      rfl
    · rw [decodedIndexes]
      rw [hprefilled, map_cons, map_cons, lastIndex_toNat (hlength ▸ hsize)]
      show [0, 0 + 0 + 1 + txs.length] = [0, txs.length + 1]
      rw [Nat.add_comm (0 + 0 + 1)]

end Encoding

end CBlockHeaderAndShortTxIDs

end Defcoin.Relay
