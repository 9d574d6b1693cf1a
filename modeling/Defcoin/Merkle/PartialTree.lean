import Defcoin.Consensus.TxVerify
import Defcoin.Merkle.Root

/-! # Partial Merkle trees (merkleblock.cpp)

  A partial Merkle tree sends a client the matched transactions of a block: a depth-first walk
  stores one flag for every node visited, and one hash for every node it does not go below. The
  client repeats the walk with the flags and hashes it received, which need not be those an honest
  node would have stored.
-/

namespace Defcoin.Merkle

open List PackedBits

/-- `MIN_TRANSACTION_WEIGHT`. -/
def minTransactionWeight : Nat := witnessScaleFactor * 60

variable {H : Type}

/-- `1 << (p % 8)`. -/
def lowBit (p : Nat) : UInt8 := UInt8.ofNat (1 <<< (p % 8))

section
variable (bits : List Bool)

/-- `BitsToBytes`. -/
def bitsToBytes : List UInt8 :=
  (range bits.length).foldl
    (fun ret p => ret.modify (p / 8) fun byte =>
      byte ||| (if bits.getD p false then lowBit p else 0))
    (replicate ((bits.length + 7) / 8) 0)

/-- `BytesToBits`. -/
def bytesToBits (bytes : List UInt8) : List Bool :=
  (range (bytes.length * 8)).map fun p => bytes.getD (p / 8) 0 &&& lowBit p != 0

/-! ### The tree -/

structure CPartialMerkleTree (H : Type) where
  nTransactions : Nat
  vBits : List Bool
  vHash : List H
  fBad : Bool
deriving DecidableEq

section Build

variable (c : Hasher H) (vTxid : List H) (vMatch : List Bool)

/-- The transactions below a node: `p` from `pos << height` on while `p < (pos+1) << height && p <
    nTransactions`. -/
def covered (nTransactions height pos : Nat) : List Nat :=
  range' (pos <<< height) (min ((pos + 1) <<< height) nTransactions - pos <<< height)

/-- `TraverseAndBuild`: what the walk appends to `vBits` and to `vHash`. -/
def traverseAndBuild : Nat → Nat → List Bool × List H
  | 0, pos =>
    let fParentOfMatch := (covered vTxid.length 0 pos).any fun p => vMatch.getD p false
    ([fParentOfMatch], [calcHash c vTxid 0 pos])
  | height + 1, pos =>
    let fParentOfMatch := (covered vTxid.length (height + 1) pos).any fun p => vMatch.getD p false
    if !fParentOfMatch then ([fParentOfMatch], [calcHash c vTxid (height + 1) pos])
    else
      let left := traverseAndBuild height (pos * 2)
      if pos * 2 + 1 < calcTreeWidth vTxid.length height then
        let right := traverseAndBuild height (pos * 2 + 1)
        (fParentOfMatch :: (left.1 ++ right.1), left.2 ++ right.2)
      else (fParentOfMatch :: left.1, left.2)

/-- The constructor `CPartialMerkleTree(vTxid, vMatch)`; `CalcHash` asserts that there is a
    transaction. -/
def CPartialMerkleTree.build : Except String (CPartialMerkleTree H) :=
  if vTxid.length = 0 then .error "vTxid.size() != 0"
  else
    let walk := traverseAndBuild c vTxid vMatch (treeHeight vTxid.length) 0
    .ok { nTransactions := vTxid.length, vBits := walk.1, vHash := walk.2, fBad := false }

end Build

/-- The tree as the receiver reads it: `SERIALIZE_METHODS` writes the flags as bytes and reads them
    back with `fBad` reset. -/
def CPartialMerkleTree.received (t : CPartialMerkleTree H) : CPartialMerkleTree H :=
  { t with vBits := bytesToBits (bitsToBytes t.vBits), fBad := false }

section Extract

/-- What the extracting walk updates: its two counters, the tree's flag and the two vectors of the
    caller. -/
structure Cursor (H : Type) where
  nBitsUsed : Nat
  nHashUsed : Nat
  fBad : Bool
  vMatch : List H
  vnIndex : List Nat
deriving DecidableEq

variable (c : Hasher H) (t : CPartialMerkleTree H)

/-- The branch of `TraverseAndExtract` that uses a stored hash; `matched` is `height==0 &&
    fParentOfMatch`. -/
def takeHash (matched : Bool) (pos : Nat) (s : Cursor H) : H × Cursor H :=
  match t.vHash[s.nHashUsed]? with
  | none => (c.null, { s with fBad := true })
  | some hash =>
    let s := { s with nHashUsed := s.nHashUsed + 1 }
    if matched then
      (hash, { s with vMatch := s.vMatch ++ [hash], vnIndex := s.vnIndex ++ [pos] })
    else (hash, s)

/-- `TraverseAndExtract`. -/
def traverseAndExtract [DecidableEq H] : Nat → Nat → Cursor H → H × Cursor H
  | 0, pos, s =>
    match t.vBits[s.nBitsUsed]? with
    | none => (c.null, { s with fBad := true })
    | some fParentOfMatch =>
      takeHash c t fParentOfMatch pos { s with nBitsUsed := s.nBitsUsed + 1 }
  | height + 1, pos, s =>
    match t.vBits[s.nBitsUsed]? with
    | none => (c.null, { s with fBad := true })
    | some false => takeHash c t false pos { s with nBitsUsed := s.nBitsUsed + 1 }
    | some true =>
      let left := traverseAndExtract height (pos * 2) { s with nBitsUsed := s.nBitsUsed + 1 }
      if pos * 2 + 1 < calcTreeWidth t.nTransactions height then
        let right := traverseAndExtract height (pos * 2 + 1) left.2
        -- the two branches cover different transactions
        (c.Hash left.1 right.1,
          if right.1 = left.1 then { right.2 with fBad := true } else right.2)
      else (c.Hash left.1 left.1, left.2)

/-- What `ExtractMatches` starts from: `vMatch` is cleared, `vnIndex` is not. -/
def CPartialMerkleTree.start (vnIndex : List Nat) : Cursor H :=
  { nBitsUsed := 0, nHashUsed := 0, fBad := t.fBad, vMatch := [], vnIndex := vnIndex }

def CPartialMerkleTree.walk [DecidableEq H] (vnIndex : List Nat) : H × Cursor H :=
  traverseAndExtract c t (treeHeight t.nTransactions) 0 (t.start vnIndex)

/-- `ExtractMatches`: the hash returned, and `vMatch`, `vnIndex` and the tree's flag as they are
    left. -/
def CPartialMerkleTree.extractMatches [DecidableEq H] (vnIndex : List Nat) : H × Cursor H :=
  if t.nTransactions = 0 then (c.null, t.start vnIndex)
  else if t.nTransactions > maxBlockWeight / minTransactionWeight then (c.null, t.start vnIndex)
  else if t.vHash.length > t.nTransactions then (c.null, t.start vnIndex)
  else if t.vBits.length < t.vHash.length then (c.null, t.start vnIndex)
  else
    let walk := t.walk c vnIndex
    if walk.2.fBad then (c.null, walk.2)
    else if (walk.2.nBitsUsed + 7) / 8 ≠ (t.vBits.length + 7) / 8 then (c.null, walk.2)
    else if walk.2.nHashUsed ≠ t.vHash.length then (c.null, walk.2)
    else walk

end Extract

section Checks

variable [DecidableEq H] {c : Hasher H} {t : CPartialMerkleTree H} {vnIndex : List Nat}

theorem extractMatches_eq_walk (hn : t.nTransactions ≠ 0)
    (hmax : t.nTransactions ≤ maxBlockWeight / minTransactionWeight)
    (hcount : t.vHash.length ≤ t.nTransactions) (hbits : t.vHash.length ≤ t.vBits.length)
    (hbad : (t.walk c vnIndex).2.fBad = false)
    (hbitsUsed : ((t.walk c vnIndex).2.nBitsUsed + 7) / 8 = (t.vBits.length + 7) / 8)
    (hhashUsed : (t.walk c vnIndex).2.nHashUsed = t.vHash.length) :
    t.extractMatches c vnIndex = t.walk c vnIndex := by
  simp only [CPartialMerkleTree.extractMatches, if_neg hn, if_neg (Nat.not_lt.mpr hmax),
    if_neg (Nat.not_lt.mpr hcount), if_neg (Nat.not_lt.mpr hbits), hbad, hbitsUsed, hhashUsed,
    ne_eq, not_true_eq_false, if_false, Bool.false_eq_true]

theorem extractMatches_of_ne_null (h : (t.extractMatches c vnIndex).1 ≠ c.null) :
    t.nTransactions ≠ 0 ∧ t.extractMatches c vnIndex = t.walk c vnIndex := by
  revert h
  unfold CPartialMerkleTree.extractMatches
  simp only []
  split_ifs <;> intro h
  all_goals first
    | exact absurd rfl h
    | exact ⟨‹_›, rfl⟩

end Checks

/-! ### Packing and unpacking flags -/

theorem lowBit_eq_mask (p : Nat) : lowBit p = mask (7 - p % 8) := by
  have hp : 7 - (7 - p % 8) = p % 8 := by omega
  rw [lowBit, mask, hp, Nat.one_shiftLeft]

/-- Flag `p` of a row of bytes, as `BytesToBits` reads it. -/
def flagAt (bytes : List UInt8) (p : Nat) : Bool := bytes.getD (p / 8) 0 &&& lowBit p != 0

theorem flagAt_eq_bit (bytes : List UInt8) (p : Nat) :
    flagAt bytes p = bit (bytes.getD (p / 8) 0) (7 - p % 8) := by
  rw [flagAt, lowBit_eq_mask, bit]

theorem flagAt_modify {bytes : List UInt8} {k : Nat} (hk : k / 8 < bytes.length) (b : Bool)
    (p : Nat) :
    flagAt (bytes.modify (k / 8) fun byte => byte ||| (if b then lowBit k else 0)) p =
      (flagAt bytes p || (decide (p = k) && b)) := by
  cases b with
  | false =>
    have hid : bytes.modify (k / 8) (fun byte => byte) = bytes := modify_id _ _
    simp [hid]
  | true =>
    rw [flagAt_eq_bit, flagAt_eq_bit, if_pos rfl, lowBit_eq_mask, Bool.and_true]
    by_cases hbyte : p / 8 = k / 8
    · have hiff : 7 - p % 8 = 7 - k % 8 ↔ p = k := by omega
      have hget : ∀ f : UInt8 → UInt8,
          (bytes.modify (k / 8) f).getD (p / 8) 0 = f (bytes.getD (p / 8) 0) := by
        simp [hbyte, hk]
      rw [hget, bit_or_mask _ (by omega) (by omega)]
      simp [hiff]
    · have hne : p ≠ k := by
        rintro rfl
        exact hbyte rfl
      have hget : ∀ f : UInt8 → UInt8,
          (bytes.modify (k / 8) f).getD (p / 8) 0 = bytes.getD (p / 8) 0 := by
        intro f
        rw [getD_eq_getElem?_getD, getElem?_modify_ne _ _ (Ne.symm hbyte),
          ← getD_eq_getElem?_getD]
      rw [hget]
      simp [hne]

theorem bitsToBytes_round : ∀ k ≤ bits.length,
    let bytes := (range k).foldl
      (fun ret p => ret.modify (p / 8) fun byte =>
        byte ||| (if bits.getD p false then lowBit p else 0))
      (replicate ((bits.length + 7) / 8) (0 : UInt8))
    bytes.length = (bits.length + 7) / 8 ∧
      ∀ p, flagAt bytes p = (decide (p < k) && bits.getD p false) := by
  intro k
  induction k with
  | zero =>
    intro _
    constructor
    · simp
    · simp [flagAt]
  | succ k ih =>
    intro hk
    obtain ⟨hlen, hflag⟩ := ih (by omega)
    simp only [range_succ, foldl_append, foldl_cons, foldl_nil]
    constructor
    · rw [length_modify]
      exact hlen
    · intro p
      rw [flagAt_modify (by omega), hflag]
      by_cases hp : p = k
      · subst hp
        simp
      · have hiff : p < k + 1 ↔ p < k := by omega
        simp [hp, hiff]

theorem flagAt_bitsToBytes (p : Nat) :
    flagAt (bitsToBytes bits) p = bits.getD p false := by
  have h := (bitsToBytes_round bits bits.length (le_refl _)).2 p
  rw [bitsToBytes, h]
  by_cases hp : p < bits.length
  · simp [hp]
  · rw [getD_eq_default _ _ (by omega), Bool.and_false]

theorem bytesToBits_bitsToBytes :
    bytesToBits (bitsToBytes bits) =
      bits ++ replicate ((bits.length + 7) / 8 * 8 - bits.length) false := by
  have hlen : (bytesToBits (bitsToBytes bits)).length = (bits.length + 7) / 8 * 8 := by
    have hbytes : (bitsToBytes bits).length = _ := (bitsToBytes_round bits bits.length (le_refl _)).1
    simp [bytesToBits, hbytes]
  apply ext_getElem
  · rw [length_append, length_replicate]
    omega
  · intro p h₁ h₂
    have hget : (bytesToBits (bitsToBytes bits))[p] = flagAt (bitsToBytes bits) p := by
      simp [bytesToBits, flagAt]
    rw [hget, flagAt_bitsToBytes, getElem_append]
    split_ifs with hp
    · exact getD_eq_getElem _ _ hp
    · rw [getElem_replicate, getD_eq_default _ _ (by omega)]

end

/-! ### The transactions below a node -/

theorem covered_eq (n h pos : Nat) :
    covered n h pos = range' (pos * 2 ^ h) (min ((pos + 1) * 2 ^ h) n - pos * 2 ^ h) := by
  rw [covered, Nat.shiftLeft_eq, Nat.shiftLeft_eq]

theorem covered_leaf {n pos : Nat} (hpos : pos < n) : covered n 0 pos = [pos] := by
  have hmin : min (pos + 1) n - pos = 1 := by omega
  rw [covered_eq, Nat.pow_zero, Nat.mul_one, Nat.mul_one, hmin]
  rfl

theorem covered_eq_nil {n h pos : Nat} (hpos : ¬pos < calcTreeWidth n h) :
    covered n h pos = [] := by
  rw [lt_calcTreeWidth_iff] at hpos
  have hzero : min ((pos + 1) * 2 ^ h) n - pos * 2 ^ h = 0 := by omega
  rw [covered_eq, hzero]
  rfl

theorem covered_length_pos {n h pos : Nat} (hpos : pos < calcTreeWidth n h) :
    0 < (covered n h pos).length := by
  rw [lt_calcTreeWidth_iff] at hpos
  have hstep : (pos + 1) * 2 ^ h = pos * 2 ^ h + 2 ^ h := by ring
  have hpow : 0 < 2 ^ h := Nat.two_pow_pos h
  rw [covered_eq, length_range']
  omega

theorem covered_succ (n h pos : Nat) :
    covered n (h + 1) pos = covered n h (pos * 2) ++ covered n h (pos * 2 + 1) := by
  have hstart : pos * 2 ^ (h + 1) = pos * 2 * 2 ^ h := by ring
  have hend : (pos + 1) * 2 ^ (h + 1) = pos * 2 * 2 ^ h + 2 ^ h + 2 ^ h := by ring
  have hmid : (pos * 2 + 1) * 2 ^ h = pos * 2 * 2 ^ h + 2 ^ h := by ring
  have hlast : (pos * 2 + 1 + 1) * 2 ^ h = pos * 2 * 2 ^ h + 2 ^ h + 2 ^ h := by ring
  rw [covered_eq, covered_eq, covered_eq, hstart, hend, hmid, hlast]
  generalize pos * 2 * 2 ^ h = a
  generalize 2 ^ h = m
  by_cases hfull : a + m ≤ n
  · have hleft : min (a + m) n - a = m := by omega
    have hsum : min (a + m + m) n - a = m + (min (a + m + m) n - (a + m)) := by omega
    rw [hleft, hsum, ← range'_append_1]
  · have hright : min (a + m + m) n - (a + m) = 0 := by omega
    have hsame : min (a + m + m) n - a = min (a + m) n - a := by omega
    rw [hright, hsame, range'_zero, append_nil]

theorem covered_top {n h : Nat} (hw : calcTreeWidth n h = 1) : covered n h 0 = range n := by
  have hone := lt_calcTreeWidth_iff n h 1
  have hmin : min ((0 + 1) * 2 ^ h) n - 0 * 2 ^ h = n := by omega
  rw [covered_eq, hmin, Nat.zero_mul, range_eq_range']

/-! ### An honest tree -/

section Honest

variable (c : Hasher H) (vTxid : List H) (vMatch : List Bool)

def matchedBelow (height pos : Nat) : List Nat :=
  (covered vTxid.length height pos).filter fun p => vMatch.getD p false

theorem matchedBelow_eq_nil {h pos : Nat}
    (hno : (covered vTxid.length h pos).any (fun p => vMatch.getD p false) = false) :
    matchedBelow vTxid vMatch h pos = [] := by
  rw [matchedBelow, filter_eq_nil_iff]
  intro p hp
  rw [any_eq_false] at hno
  exact hno p hp

theorem matchedBelow_succ (h pos : Nat) :
    matchedBelow vTxid vMatch (h + 1) pos =
      matchedBelow vTxid vMatch h (pos * 2) ++ matchedBelow vTxid vMatch h (pos * 2 + 1) := by
  rw [matchedBelow, covered_succ, filter_append]
  rfl

theorem traverseAndBuild_lengths : ∀ (h : Nat) {pos : Nat}, pos < calcTreeWidth vTxid.length h →
    let walk := traverseAndBuild c vTxid vMatch h pos
    walk.2.length ≤ (covered vTxid.length h pos).length ∧ walk.2.length ≤ walk.1.length := by
  intro h
  induction h with
  | zero =>
    intro pos hpos
    exact ⟨covered_length_pos hpos, le_refl _⟩
  | succ h ih =>
    intro pos hpos
    obtain ⟨hleft, hleft'⟩ := ih (left_lt_calcTreeWidth hpos)
    simp only [traverseAndBuild]
    split_ifs with hno hright
    · exact ⟨covered_length_pos hpos, le_refl _⟩
    · obtain ⟨hr, hr'⟩ := ih hright
      simp only [covered_succ, length_append, length_cons]
      omega
    · simp only [covered_succ, length_append, length_cons]
      omega

/-- The cursor after a walk that used `bits` flags and `hashes` hashes and found the transactions
    `found`. -/
def Cursor.advance (s : Cursor H) (bits hashes : Nat) (found : List Nat) : Cursor H :=
  { nBitsUsed := s.nBitsUsed + bits
    nHashUsed := s.nHashUsed + hashes
    fBad := s.fBad
    vMatch := s.vMatch ++ found.map fun p => vTxid.getD p c.null
    vnIndex := s.vnIndex ++ found }

theorem Cursor.advance_advance (s : Cursor H) (b b' k k' : Nat) (found found' : List Nat) :
    (s.advance c vTxid b k found).advance c vTxid b' k' found' =
      s.advance c vTxid (b + b') (k + k') (found ++ found') := by
  simp [Cursor.advance, Nat.add_assoc]

/-- The flags and hashes that `t` holds from the cursor on begin with the given ones. -/
def Ahead (t : CPartialMerkleTree H) (s : Cursor H) (bits : List Bool) (hashes : List H) : Prop :=
  (∃ rest, t.vBits.drop s.nBitsUsed = bits ++ rest) ∧
    ∃ rest, t.vHash.drop s.nHashUsed = hashes ++ rest

variable {c vTxid vMatch} {s : Cursor H} {t : CPartialMerkleTree H}

theorem Ahead.append (c : Hasher H) (vTxid : List H) {bits bits' : List Bool} {hashes hashes' : List H}
    (h : Ahead t s (bits ++ bits') (hashes ++ hashes')) (found : List Nat) :
    Ahead t s bits hashes ∧
      Ahead t (s.advance c vTxid bits.length hashes.length found) bits' hashes' := by
  obtain ⟨⟨rest, hbits⟩, rest', hhashes⟩ := h
  rw [append_assoc] at hbits hhashes
  refine ⟨⟨⟨_, hbits⟩, _, hhashes⟩, ⟨rest, ?_⟩, rest', ?_⟩
  · simp only [Cursor.advance]
    rw [← drop_drop, hbits, drop_left]
  · simp only [Cursor.advance]
    rw [← drop_drop, hhashes, drop_left]

theorem Ahead.bit {b : Bool} {bits : List Bool} {hashes : List H} (h : Ahead t s (b :: bits) hashes) :
    t.vBits[s.nBitsUsed]? = some b := by
  obtain ⟨⟨_, hbits⟩, -⟩ := h
  have hget := congrArg (fun l => l[0]?) hbits
  simpa using hget

theorem takeHash_of_ahead {b matched : Bool} {pos : Nat} {hash : H} (h : Ahead t s [b] [hash])
    (hleaf : matched = true → vTxid.getD pos c.null = hash) :
    takeHash c t matched pos { s with nBitsUsed := s.nBitsUsed + 1 } =
      (hash, s.advance c vTxid 1 1 (if matched then [pos] else [])) := by
  obtain ⟨-, _, hhashes⟩ := h
  have hget : t.vHash[s.nHashUsed]? = some hash := by
    have := congrArg (fun l => l[0]?) hhashes
    simpa using this
  cases matched with
  | false => simp [takeHash, hget, Cursor.advance]
  | true =>
    simp only [takeHash, hget, Cursor.advance, hleaf rfl, if_true, map_cons, map_nil]

theorem received_build (hne : vTxid ≠ []) (hbuild : CPartialMerkleTree.build c vTxid vMatch = .ok t) :
    let walk := traverseAndBuild c vTxid vMatch (treeHeight vTxid.length) 0
    t.received =
      { nTransactions := vTxid.length
        vBits := walk.1 ++ replicate ((walk.1.length + 7) / 8 * 8 - walk.1.length) false
        vHash := walk.2
        fBad := false } := by
  have hpos : 0 < vTxid.length := length_pos_iff.mpr hne
  rw [CPartialMerkleTree.build, if_neg (by omega)] at hbuild
  injection hbuild with hbuild
  rw [← hbuild, CPartialMerkleTree.received]
  simp only [bytesToBits_bitsToBytes]

variable [DecidableEq H]

theorem traverseAndExtract_of_ahead (hinj : c.Injective) (hnodup : vTxid.Nodup)
    {t : CPartialMerkleTree H} (hn : t.nTransactions = vTxid.length) :
    ∀ (h : Nat) {pos : Nat} {s : Cursor H}, pos < calcTreeWidth vTxid.length h →
      let walk := traverseAndBuild c vTxid vMatch h pos
      Ahead t s walk.1 walk.2 →
      traverseAndExtract c t h pos s = (calcHash c vTxid h pos,
        s.advance c vTxid walk.1.length walk.2.length (matchedBelow vTxid vMatch h pos)) := by
  intro h
  induction h with
  | zero =>
    intro pos s hpos walk hahead
    have hcovered := covered_leaf (by rwa [calcTreeWidth_zero] at hpos)
    have hwalk : walk = ([vMatch.getD pos false], [vTxid.getD pos c.null]) := by
      simp [walk, traverseAndBuild, hcovered, calcHash]
    have hfound : matchedBelow vTxid vMatch 0 pos = if vMatch.getD pos false then [pos] else [] := by
      rw [matchedBelow, hcovered, filter_cons, filter_nil]
    rw [hwalk] at hahead ⊢
    simp only [traverseAndExtract, hahead.bit, hfound]
    exact takeHash_of_ahead hahead fun _ => rfl
  | succ h ih =>
    intro pos s hpos walk hahead
    have hl := left_lt_calcTreeWidth hpos
    cases hmatch : (covered vTxid.length (h + 1) pos).any fun p => vMatch.getD p false with
    | false =>
      -- nothing is matched below: one flag and the hash of the node
      have hwalk : walk = ([false], [calcHash c vTxid (h + 1) pos]) := by
        simp only [walk, traverseAndBuild, hmatch, Bool.not_false, if_true]
      rw [hwalk] at hahead ⊢
      rw [matchedBelow_eq_nil vTxid vMatch hmatch]
      simp only [traverseAndExtract, hahead.bit]
      exact takeHash_of_ahead hahead (by simp)
    | true =>
      have hskip : ∀ {bits hashes}, Ahead t s (true :: bits) hashes →
          Ahead t { s with nBitsUsed := s.nBitsUsed + 1 } bits hashes := by
        intro bits hashes hA
        have hsplit : Ahead t s ([true] ++ bits) ([] ++ hashes) := hA
        simpa [Cursor.advance] using (hsplit.append c vTxid []).2
      have hstart : { s with nBitsUsed := s.nBitsUsed + 1 } = s.advance c vTxid 1 0 [] := by
        simp [Cursor.advance]
      by_cases hright : pos * 2 + 1 < calcTreeWidth vTxid.length h
      · have hwalk : walk =
            (true :: ((traverseAndBuild c vTxid vMatch h (pos * 2)).1 ++
                (traverseAndBuild c vTxid vMatch h (pos * 2 + 1)).1),
              (traverseAndBuild c vTxid vMatch h (pos * 2)).2 ++
                (traverseAndBuild c vTxid vMatch h (pos * 2 + 1)).2) := by
          simp only [walk, traverseAndBuild, hmatch, hright, Bool.not_true, if_true,
            Bool.false_eq_true, if_false]
        rw [hwalk] at hahead ⊢
        obtain ⟨hfirst, hsecond⟩ := (hskip hahead).append c vTxid
          (matchedBelow vTxid vMatch h (pos * 2))
        have hne : calcHash c vTxid h (pos * 2 + 1) ≠ calcHash c vTxid h (pos * 2) := by
          intro heq
          have := calcHash_inj hinj hnodup h hright hl heq
          omega
        simp only [traverseAndExtract, hahead.bit, hn, hright, ih hl hfirst,
          ih hright hsecond, if_neg hne, calcHash]
        rw [hstart, Cursor.advance_advance, Cursor.advance_advance, matchedBelow_succ]
        simp [Nat.add_comm]
      · have hwalk : walk =
            (true :: (traverseAndBuild c vTxid vMatch h (pos * 2)).1,
              (traverseAndBuild c vTxid vMatch h (pos * 2)).2) := by
          simp only [walk, traverseAndBuild, hmatch, hright, Bool.not_true, Bool.false_eq_true,
            if_false]
        have hnil : matchedBelow vTxid vMatch h (pos * 2 + 1) = [] := by
          rw [matchedBelow, covered_eq_nil hright, filter_nil]
        rw [hwalk] at hahead ⊢
        simp only [traverseAndExtract, hahead.bit, hn, hright, ih hl (hskip hahead),
          calcHash]
        rw [hstart, Cursor.advance_advance, matchedBelow_succ, hnil]
        simp [Nat.add_comm]

theorem extractMatches_received (hinj : c.Injective) (hnodup : vTxid.Nodup) (hne : vTxid ≠ [])
    (hmax : vTxid.length ≤ maxBlockWeight / minTransactionWeight) {t : CPartialMerkleTree H}
    (hbuild : CPartialMerkleTree.build c vTxid vMatch = .ok t) (vnIndex : List Nat) :
    let found := (range vTxid.length).filter fun p => vMatch.getD p false
    let result := t.received.extractMatches c vnIndex
    result.1 = (computeMerkleRoot c vTxid).1 ∧
      result.2.vMatch = found.map (fun p => vTxid.getD p c.null) ∧
      result.2.vnIndex = vnIndex ++ found := by
  have hpos : 0 < vTxid.length := length_pos_iff.mpr hne
  have hwidth := calcTreeWidth_treeHeight hpos
  have htop : 0 < calcTreeWidth vTxid.length (treeHeight vTxid.length) := by omega
  obtain ⟨hcount, hbits⟩ := traverseAndBuild_lengths c vTxid vMatch _ htop
  rw [covered_top hwidth, length_range] at hcount
  have hfound : matchedBelow vTxid vMatch (treeHeight vTxid.length) 0 =
      (range vTxid.length).filter fun p => vMatch.getD p false := by
    rw [matchedBelow, covered_top hwidth]
  have hreceived := received_build hne hbuild
  revert hcount hbits hreceived
  generalize hstored : traverseAndBuild c vTxid vMatch (treeHeight vTxid.length) 0 = stored
  intro hcount hbits hreceived found result
  have hlength : t.received.vBits.length = (stored.1.length + 7) / 8 * 8 := by
    rw [hreceived, length_append, length_replicate]
    omega
  -- the walk starts in front of the stored flags, with the padding behind them
  have hahead : Ahead t.received (t.received.start vnIndex) stored.1 stored.2 := by
    rw [hreceived]
    exact ⟨⟨_, rfl⟩, [], (append_nil _).symm⟩
  rw [← hstored] at hahead
  have hn : t.received.nTransactions = vTxid.length := by rw [hreceived]
  have hbad : t.received.fBad = false := rfl
  have hhashes : t.received.vHash = stored.2 := by rw [hreceived]
  have hwalk := traverseAndExtract_of_ahead hinj hnodup hn _ htop hahead
  rw [hstored, hfound] at hwalk
  have hresult : result = t.received.walk c vnIndex := by
    apply extractMatches_eq_walk <;> simp only [CPartialMerkleTree.walk, hn, hwalk, hhashes]
    · omega
    · exact hmax
    · exact hcount
    · omega
    · exact hbad
    · simp only [Cursor.advance, CPartialMerkleTree.start]
      omega
    · simp only [Cursor.advance, CPartialMerkleTree.start]
      omega
  rw [hresult, CPartialMerkleTree.walk, hn, hwalk, computeMerkleRoot_eq_calcHash c hne]
  exact ⟨rfl, nil_append _, rfl⟩

end Honest

/-! ### A tree from anyone -/

section Hostile

variable {c : Hasher H} {vTxid : List H}

/-- From `s` to `s'` the walk reported only transactions of the list, each with its index. -/
def Reports (c : Hasher H) (vTxid : List H) (s s' : Cursor H) : Prop :=
  ∃ found : List Nat, (∀ p ∈ found, p < vTxid.length) ∧
    s'.vMatch = s.vMatch ++ found.map (fun p => vTxid.getD p c.null) ∧
    s'.vnIndex = s.vnIndex ++ found

theorem Reports.nothing {s s' : Cursor H} (hmatch : s'.vMatch = s.vMatch)
    (hindex : s'.vnIndex = s.vnIndex) : Reports c vTxid s s' :=
  ⟨[], by simp, by simp [hmatch], by simp [hindex]⟩

theorem Reports.trans {s s' s'' : Cursor H} (h : Reports c vTxid s s')
    (h' : Reports c vTxid s' s'') : Reports c vTxid s s'' := by
  obtain ⟨found, hlt, hmatch, hindex⟩ := h
  obtain ⟨found', hlt', hmatch', hindex'⟩ := h'
  refine ⟨found ++ found', ?_, ?_, ?_⟩
  · intro p hp
    rcases mem_append.mp hp with hp | hp
    · exact hlt p hp
    · exact hlt' p hp
  · rw [hmatch', hmatch, map_append, append_assoc]
  · rw [hindex', hindex, append_assoc]

theorem takeHash_reports {t : CPartialMerkleTree H} {matched : Bool} {pos : Nat} {s : Cursor H}
    (hleaf : matched = true →
      pos < vTxid.length ∧ (takeHash c t matched pos s).1 = vTxid.getD pos c.null) :
    Reports c vTxid s (takeHash c t matched pos s).2 := by
  unfold takeHash at hleaf ⊢
  cases hget : t.vHash[s.nHashUsed]? with
  | none => exact Reports.nothing rfl rfl
  | some hash =>
    cases matched with
    | false => exact Reports.nothing rfl rfl
    | true =>
      rw [hget] at hleaf
      obtain ⟨hpos, heq⟩ := hleaf rfl
      have heq' := heq
      exact ⟨[pos], by simpa using hpos, by rw [map_singleton, ← heq']; rfl, rfl⟩

variable [DecidableEq H]

section
variable {t : CPartialMerkleTree H} (hinj : c.Injective) (hn : t.nTransactions = vTxid.length)
include hinj hn

/-- Whatever flags and hashes the walk uses, if it ends with the node of the list's own tree, it
    reports transactions of the list: the hash of a pair determines the pair. -/
theorem traverseAndExtract_reports :
    ∀ (h : Nat) {pos : Nat} {s : Cursor H}, pos < calcTreeWidth vTxid.length h →
      (traverseAndExtract c t h pos s).1 = calcHash c vTxid h pos →
      Reports c vTxid s (traverseAndExtract c t h pos s).2 := by
  intro h
  induction h with
  | zero =>
    intro pos s hpos heq
    rw [traverseAndExtract] at heq ⊢
    cases hbit : t.vBits[s.nBitsUsed]? with
    | none => exact Reports.nothing rfl rfl
    | some b =>
      simp only [hbit] at heq
      exact (Reports.nothing rfl rfl).trans (takeHash_reports fun _ => ⟨hpos, heq⟩)
  | succ h ih =>
    intro pos s hpos heq
    have hl := left_lt_calcTreeWidth hpos
    rw [traverseAndExtract] at heq ⊢
    rcases hbit : t.vBits[s.nBitsUsed]? with _ | _ | _
    · exact Reports.nothing rfl rfl
    · exact (Reports.nothing rfl rfl).trans (takeHash_reports (by simp))
    · simp only [hbit, hn, calcHash] at heq ⊢
      split_ifs at heq ⊢ with hright hsame
      · obtain ⟨hleft, hright'⟩ := hinj _ _ _ _ heq
        have h₁ := ih hl hleft
        have h₂ := ih hright hright'
        exact ((Reports.nothing rfl rfl).trans h₁).trans (h₂.trans (Reports.nothing rfl rfl))
      · obtain ⟨hleft, hright'⟩ := hinj _ _ _ _ heq
        exact ((Reports.nothing rfl rfl).trans (ih hl hleft)).trans (ih hright hright')
      · exact (Reports.nothing rfl rfl).trans (ih hl (hinj _ _ _ _ heq).1)

theorem extractMatches_reports (hnull : (computeMerkleRoot c vTxid).1 ≠ c.null) {vnIndex : List Nat}
    (hroot : (t.extractMatches c vnIndex).1 = (computeMerkleRoot c vTxid).1) :
    Reports c vTxid (t.start vnIndex) (t.extractMatches c vnIndex).2 := by
  have hresult := extractMatches_of_ne_null (by rwa [hroot])
  obtain ⟨hpos, hwalk⟩ := hresult
  have hne : vTxid ≠ [] := by
    rintro rfl
    exact hpos hn
  rw [hwalk, CPartialMerkleTree.walk, hn, computeMerkleRoot_eq_calcHash c hne] at hroot
  rw [hwalk, CPartialMerkleTree.walk, hn]
  exact traverseAndExtract_reports hinj hn _ (calcTreeWidth_pos (by omega) _) hroot

end

end Hostile

/-! ### Completeness and soundness -/

/-- **Partial Merkle trees.** The tree built for distinct txids, once sent, yields the Merkle root and
    exactly the matched txids. And whatever tree is sent, if it yields the root of a list and this is
    not the null hash, the txids it yields are in the list at the indices it yields. -/
theorem extractMatches_complete_and_sound [DecidableEq H] {c : Hasher H} (hinj : c.Injective) :
    (∀ (vTxid : List H) (vMatch : List Bool) (vnIndex : List Nat),
      vTxid ≠ [] → vTxid.length ≤ maxBlockWeight / minTransactionWeight → vTxid.Nodup →
      ∃ t, CPartialMerkleTree.build c vTxid vMatch = .ok t ∧
        let found := (range vTxid.length).filter fun p => vMatch.getD p false
        let result := t.received.extractMatches c vnIndex
        result.1 = (computeMerkleRoot c vTxid).1 ∧
          result.2.vMatch = found.map (fun p => vTxid.getD p c.null) ∧
          result.2.vnIndex = vnIndex ++ found) ∧
    ∀ (t : CPartialMerkleTree H) (vTxid : List H) (vnIndex : List Nat),
      t.nTransactions = vTxid.length → (computeMerkleRoot c vTxid).1 ≠ c.null →
      let result := t.extractMatches c vnIndex
      result.1 = (computeMerkleRoot c vTxid).1 →
      ∃ found, result.2.vnIndex = vnIndex ++ found ∧
        result.2.vMatch.map some = found.map fun p => vTxid[p]? := by
  constructor
  · intro vTxid vMatch vnIndex hne hmax hnodup
    have hpos : vTxid.length ≠ 0 := by
      intro hzero
      exact hne (length_eq_zero_iff.mp hzero)
    have hbuild : CPartialMerkleTree.build c vTxid vMatch = .ok _ := if_neg hpos
    exact ⟨_, hbuild, extractMatches_received hinj hnodup hne hmax hbuild vnIndex⟩
  · intro t vTxid vnIndex hn hnull result hroot
    obtain ⟨found, hlt, hmatch, hindex⟩ := extractMatches_reports hinj hn hnull hroot
    refine ⟨found, hindex, ?_⟩
    have hmatch' : result.2.vMatch = found.map fun p => vTxid.getD p c.null := hmatch
    rw [hmatch', map_map]
    apply map_congr_left
    intro p hp
    simp [hlt p hp]

theorem extractMatches_complete_three :
    nodeHasher.Injective ∧
      ∃ t, CPartialMerkleTree.build nodeHasher [.txid 1, .txid 2, .txid 3] [true, false, true] = .ok t ∧
        (t.received.extractMatches nodeHasher []).1 =
          (computeMerkleRoot nodeHasher [.txid 1, .txid 2, .txid 3]).1 ∧
        (t.received.extractMatches nodeHasher []).2.vMatch = [.txid 1, .txid 3] ∧
        (t.received.extractMatches nodeHasher []).2.vnIndex = [0, 2] :=
  ⟨nodeHasher_injective,
    (extractMatches_complete_and_sound nodeHasher_injective).1 [.txid 1, .txid 2, .txid 3]
      [true, false, true] [] (by decide) (by decide) (by decide)⟩

/-- A tree with one txid and a byte of flags too many. -/
def overlongTree : CPartialMerkleTree Node where
  nTransactions := 1
  vBits := bytesToBits [1, 0]
  vHash := [.txid 1]
  fBad := false

/-- A failed extraction returns the null hash with the transactions met so far, so the root of the list
    of the null txid vouches for another one. -/
theorem overlongTree_vouches_for_stranger :
    nodeHasher.Injective ∧ (∀ l r, nodeHasher.Hash l r ∉ [Node.txid 0]) ∧ [Node.txid 0].Nodup ∧
      overlongTree.nTransactions = [Node.txid 0].length ∧
      (overlongTree.extractMatches nodeHasher []).1 = (computeMerkleRoot nodeHasher [.txid 0]).1 ∧
      (overlongTree.extractMatches nodeHasher []).2.vMatch = [.txid 1] ∧
      (overlongTree.extractMatches nodeHasher []).2.vnIndex = [0] :=
  ⟨nodeHasher_injective, fun l r => by simp [nodeHasher], by decide, rfl, by decide, by decide,
    by decide⟩

end Defcoin.Merkle
