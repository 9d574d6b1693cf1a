import Defcoin.Framework.PackedBits
import Defcoin.Mweb.Block

/-! # The leaf set

  One bit for every output ever added, set while the output is unspent. A cache holds the bytes it
  has rewritten and reads the others from the set below it; the file at the bottom is rewritten when
  a cache is flushed into it. Bytes that were never written are zero.
-/

namespace Defcoin.Mweb

open PackedBits

/-- The members of `LeafSetCache`, and of `LeafSet` while updates are applied to it. -/
structure LeafSetCache where
  nextLeafIdx : Nat
  modifiedBytes : AList fun _ : Nat => UInt8

/-- `LeafSet`: the memory-mapped file, between two flushes. -/
structure LeafSet where
  nextLeafIdx : Nat
  bytes : Nat → UInt8

namespace LeafSetCache

section Operations
variable (backed : Nat → UInt8) (l : LeafSetCache)

/-- `GetByte`; `backed` is `GetByte` of the set below, or the contents of the file. -/
def getByte (byteIdx : Nat) : UInt8 :=
  (l.modifiedBytes.lookup byteIdx).getD (backed byteIdx)

/-- `SetByte` -/
def setByte (byteIdx : Nat) (value : UInt8) : LeafSetCache :=
  { l with modifiedBytes := l.modifiedBytes.insert byteIdx value }

/-- `ILeafSet::Add` -/
def add (idx : Nat) : LeafSetCache :=
  let l' := l.setByte (idx / 8) (l.getByte backed (idx / 8) ||| PackedBits.mask (idx % 8))
  if idx ≥ l'.nextLeafIdx then { l' with nextLeafIdx := idx + 1 } else l'

/-- `ILeafSet::Remove` -/
def remove (idx : Nat) : LeafSetCache :=
  l.setByte (idx / 8) (l.getByte backed (idx / 8) &&& (0xff ^^^ PackedBits.mask (idx % 8)))

/-- `ILeafSet::Contains` -/
def contains (idx : Nat) : Bool := PackedBits.contains (l.getByte backed) idx

/-- Remove `count` indices from `start` on. -/
def removeRange (start count : Nat) : LeafSetCache :=
  (List.range' start count).foldl (fun l idx => l.remove backed idx) l

/-- `ILeafSet::Rewind` -/
def rewind (numLeaves : Nat) (leavesToAdd : List Nat) : LeafSetCache :=
  let added := leavesToAdd.foldl (fun l idx => l.add backed idx) l
  { added.removeRange backed numLeaves (added.nextLeafIdx - numLeaves) with nextLeafIdx := numLeaves }

end Operations

/-- `LeafSetCache(pBacked)` -/
def new (nextLeafIdx : Nat) : LeafSetCache := { nextLeafIdx, modifiedBytes := ∅ }

/-- Write each modified byte over those of `l`. -/
def overwrite (l : LeafSetCache) (modifiedBytes : AList fun _ : Nat => UInt8) : LeafSetCache :=
  { l with modifiedBytes := modifiedBytes ∪ l.modifiedBytes }

/-- `LeafSetCache::ApplyUpdates` -/
def applyUpdates (l : LeafSetCache) (nextLeafIdx : Nat) (modifiedBytes : AList fun _ : Nat => UInt8) :
    LeafSetCache :=
  { l.overwrite modifiedBytes with nextLeafIdx }

end LeafSetCache

/-- `LeafSet::ApplyUpdates`, which ends by writing the file. -/
def LeafSet.applyUpdates (l : LeafSet) (nextLeafIdx : Nat)
    (modifiedBytes : AList fun _ : Nat => UInt8) : LeafSet :=
  let updated : LeafSetCache := (LeafSetCache.new l.nextLeafIdx).overwrite modifiedBytes
  -- a rewind leaves nothing above the new end
  let cleared := updated.removeRange l.bytes nextLeafIdx (l.nextLeafIdx - nextLeafIdx)
  { nextLeafIdx, bytes := cleared.getByte l.bytes }

/-- The bytes below the next leaf index, as `ILeafSet::Root` hashes them. -/
def leafSetRoot (cr : Crypto) (nextLeafIdx : Nat) (getByte : Nat → UInt8) : Hash :=
  cr.hash ((List.range ((nextLeafIdx + 7) / 8)).map getByte)

/-! ### What the operations do to the set -/

namespace LeafSetCache
variable (backed : Nat → UInt8) (l : LeafSetCache)

theorem getByte_setByte (k : Nat) (v : UInt8) :
    (l.setByte k v).getByte backed = store (l.getByte backed) k v := by
  funext j
  unfold getByte setByte store
  by_cases h : j = k
  · subst h
    simp [AList.lookup_insert]
  · simp [h]

@[simp] theorem getByte_new (n : Nat) : (new n).getByte backed = backed := by
  funext k
  simp [new, getByte]

@[simp] theorem contains_add (l : LeafSetCache) (i j : Nat) :
    (l.add backed i).contains backed j = (l.contains backed j || decide (j = i)) := by
  have hbytes : (l.add backed i).getByte backed =
      store (l.getByte backed) (i / 8)
        (l.getByte backed (i / 8) ||| mask (i % 8)) := by
    rw [← getByte_setByte]
    unfold add
    simp only
    split <;> rfl
  rw [contains, hbytes]
  exact contains_store_or (l.getByte backed) i j

@[simp] theorem nextLeafIdx_add (l : LeafSetCache) (i : Nat) :
    (l.add backed i).nextLeafIdx = max l.nextLeafIdx (i + 1) := by
  unfold add setByte
  simp only
  split
  · simp only
    omega
  · simp only
    omega

@[simp] theorem contains_remove (l : LeafSetCache) (i j : Nat) :
    (l.remove backed i).contains backed j = (l.contains backed j && decide (j ≠ i)) := by
  rw [contains, remove, getByte_setByte]
  exact contains_store_and (l.getByte backed) i j

theorem contains_removeRange (start count j : Nat) :
    (l.removeRange backed start count).contains backed j =
      (l.contains backed j && !decide (start ≤ j ∧ j < start + count)) := by
  unfold removeRange
  induction count generalizing l start with
  | zero =>
    have h : decide (start ≤ j ∧ j < start + 0) = false := by
      simp only [decide_eq_false_iff_not]
      omega
    rw [h]
    simp
  | succ count ih =>
    rw [List.range'_succ, List.foldl_cons, ih]
    have hiff : (start ≤ j ∧ j < start + (count + 1)) ↔
        (j = start ∨ (start + 1 ≤ j ∧ j < start + 1 + count)) := by omega
    by_cases hj : j = start
    · simp [hj]
    · simp [hiff, hj]

theorem addAll_spec (idxs : List Nat) :
    l.nextLeafIdx ≤ (idxs.foldl (fun l idx => l.add backed idx) l).nextLeafIdx ∧
      (∀ i ∈ idxs, i < (idxs.foldl (fun l idx => l.add backed idx) l).nextLeafIdx) ∧
      ∀ j, (idxs.foldl (fun l idx => l.add backed idx) l).contains backed j =
        (l.contains backed j || decide (j ∈ idxs)) := by
  induction idxs generalizing l with
  | nil => simp
  | cons i idxs ih =>
    obtain ⟨hend, hlt, hmem⟩ := ih (l.add backed i)
    rw [nextLeafIdx_add] at hend
    rw [List.foldl_cons]
    refine ⟨by omega, fun k hk => ?_, fun j => ?_⟩
    · rcases List.mem_cons.mp hk with rfl | hk
      · omega
      · exact hlt k hk
    · rw [hmem, contains_add, Bool.or_assoc]
      simp

theorem contains_rewind (numLeaves : Nat) (leavesToAdd : List Nat)
    (hend : ∀ i, l.contains backed i = true → i < l.nextLeafIdx) (j : Nat) :
    (l.rewind backed numLeaves leavesToAdd).contains backed j =
      ((l.contains backed j || decide (j ∈ leavesToAdd)) && decide (j < numLeaves)) := by
  obtain ⟨hle, hadd, hmem⟩ := addAll_spec backed l leavesToAdd
  have hbody : (l.rewind backed numLeaves leavesToAdd).contains backed j =
      ((leavesToAdd.foldl (fun l idx => l.add backed idx) l).removeRange backed numLeaves
        ((leavesToAdd.foldl (fun l idx => l.add backed idx) l).nextLeafIdx - numLeaves)).contains
          backed j := rfl
  rw [hbody, contains_removeRange, hmem]
  generalize (leavesToAdd.foldl (fun l idx => l.add backed idx) l).nextLeafIdx = n at hle hadd ⊢
  cases hj : l.contains backed j || decide (j ∈ leavesToAdd) with
  | false => rfl
  | true =>
    have hlt : j < n := by
      rcases Bool.or_eq_true_iff.mp hj with h | h
      · exact Nat.lt_of_lt_of_le (hend j h) hle
      · exact hadd j (by simpa using h)
    have hiff : (numLeaves ≤ j ∧ j < numLeaves + (n - numLeaves)) ↔ ¬(j < numLeaves) := by omega
    rw [decide_eq_decide.mpr hiff, decide_not]
    simp

theorem getByte_overwrite (modified : AList fun _ : Nat => UInt8) (k : Nat) :
    (l.overwrite modified).getByte backed k = (modified.lookup k).getD (l.getByte backed k) := by
  unfold getByte overwrite
  cases h : modified.lookup k with
  | some v =>
    have hunion : (modified ∪ l.modifiedBytes).lookup k = some v :=
      AList.mem_lookup_union.mpr (Or.inl h)
    rw [hunion]
    rfl
  | none =>
    have hk : k ∉ modified := AList.lookup_eq_none.mp h
    rw [AList.lookup_union_right hk]
    simp

theorem getByte_applyUpdates (top : LeafSetCache) :
    (l.applyUpdates top.nextLeafIdx top.modifiedBytes).getByte backed =
      top.getByte (l.getByte backed) := by
  funext k
  exact getByte_overwrite backed l top.modifiedBytes k

end LeafSetCache

theorem LeafSet.contains_applyUpdates (l : LeafSet) (top : LeafSetCache)
    (hend : ∀ i, top.contains l.bytes i = true → i < top.nextLeafIdx) (j : Nat) :
    contains (l.applyUpdates top.nextLeafIdx top.modifiedBytes).bytes j =
      top.contains l.bytes j := by
  have hover : ((LeafSetCache.new l.nextLeafIdx).overwrite top.modifiedBytes).getByte l.bytes =
      top.getByte l.bytes := by
    funext k
    rw [LeafSetCache.getByte_overwrite]
    rfl
  have hclear := LeafSetCache.contains_removeRange l.bytes
    ((LeafSetCache.new l.nextLeafIdx).overwrite top.modifiedBytes) top.nextLeafIdx
    (l.nextLeafIdx - top.nextLeafIdx) j
  rw [LeafSetCache.contains, LeafSetCache.contains, hover] at hclear
  refine hclear.trans ?_
  show (top.contains l.bytes j && _) = _
  cases hj : top.contains l.bytes j with
  | false => rfl
  | true =>
    have hlt := hend j hj
    have hout : ¬(top.nextLeafIdx ≤ j ∧ j < top.nextLeafIdx + (l.nextLeafIdx - top.nextLeafIdx)) := by
      omega
    simp [hout]

end Defcoin.Mweb
