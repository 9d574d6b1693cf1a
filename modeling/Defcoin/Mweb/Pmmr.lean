import Defcoin.Framework.PostOrder
import Defcoin.Mweb.Block

/-! # The output MMR

  A Merkle mountain range over the ids of all outputs ever added. The hash file at the bottom holds
  every node; a cache holds the nodes and leaves from its first leaf on and reads the older ones
  from below.
-/

namespace Defcoin.Mweb

open ByteCodec PostOrder List

/-- `mmr::Leaf` -/
structure Leaf where
  index : Nat
  hash : Hash
  data : Bytes
  deriving DecidableEq

section Hashing
variable (cr : Crypto)

/-- `Leaf::CalcHash` of the leaf at a position -/
def calcLeafHash (position : Nat) (data : Bytes) : Hash :=
  cr.hash (writeLE 8 position ++ serByteVector data)

/-- `Leaf::Create` -/
def Leaf.create (index : Nat) (data : Bytes) : Leaf :=
  { index, hash := calcLeafHash cr (leafPos index) data, data }

/-- `MMRUtil::CalcParentHash` -/
def calcParentHash (position : Nat) (left_hash right_hash : Hash) : Hash :=
  cr.hash (writeLE 8 position ++ left_hash.bytes ++ right_hash.bytes)

end Hashing

/-! ### Peaks and the root -/

/-- The loop of `MMRUtil::CalcPeakIndices`; the peak sizes are `2 ^ k - 1, …, 3, 1`. -/
def peaksLoop : (k numLeft sumPrevPeaks : Nat) → List Nat × Nat
  | 0, numLeft, _ => ([], numLeft)
  | k + 1, numLeft, sumPrevPeaks =>
    let peakSize := 2 ^ (k + 1) - 1
    if numLeft ≥ peakSize then
      let r := peaksLoop k (numLeft - peakSize) (sumPrevPeaks + peakSize)
      ((sumPrevPeaks + peakSize - 1) :: r.1, r.2)
    else peaksLoop k numLeft sumPrevPeaks

/-- `MMRUtil::CalcPeakIndices` -/
def calcPeakIndices (num_nodes : Nat) : Except Error (List Nat) :=
  if num_nodes = 0 then .ok []
  else
    let r := peaksLoop (bitLength num_nodes) num_nodes 0
    if r.2 = 0 then .ok r.1 else .error (.assertion "numLeft == 0")

/-- The loop of `IMMR::Root`, from the last peak to the first. -/
def bagPeaks (cr : Crypto) (num_nodes : Nat) (getHash : Nat → Hash) (peaks : List Nat) : Hash :=
  peaks.foldr (fun peak hash => if hash.isZero then getHash peak
    else calcParentHash cr num_nodes (getHash peak) hash) BigInt.zero

/-- `IMMR::Root` -/
def mmrRoot (cr : Crypto) (num_nodes : Nat) (getHash : Nat → Hash) : Except Error Hash := do
  let peak_indices ← calcPeakIndices num_nodes
  pure (bagPeaks cr num_nodes getHash peak_indices)

theorem peaksLoop_lt (k numLeft sum : Nat) :
    ∀ p ∈ (peaksLoop k numLeft sum).1, p < sum + numLeft := by
  induction k generalizing numLeft sum with
  | zero => simp [peaksLoop]
  | succ k ih =>
    have hsize : 2 ≤ 2 ^ (k + 1) := by
      have := Nat.two_pow_pos k
      omega
    intro p hp
    rw [peaksLoop] at hp
    split at hp
    · rcases mem_cons.mp hp with rfl | hp
      · omega
      · have := ih _ _ p hp
        omega
    · exact ih _ _ p hp

theorem calcPeakIndices_lt {num_nodes : Nat} {peaks : List Nat}
    (h : calcPeakIndices num_nodes = .ok peaks) : ∀ p ∈ peaks, p < num_nodes := by
  unfold calcPeakIndices at h
  split at h
  · cases h
    simp
  · simp only at h
    split at h
    · cases h
      simpa using peaksLoop_lt (bitLength num_nodes) num_nodes 0
    · cases h

theorem mmrRoot_congr (cr : Crypto) {num_nodes : Nat} {get get' : Nat → Hash}
    (h : ∀ p < num_nodes, get p = get' p) : mmrRoot cr num_nodes get = mmrRoot cr num_nodes get' := by
  unfold mmrRoot
  cases hpeaks : calcPeakIndices num_nodes with
  | error e => rfl
  | ok peaks =>
    have hbag : bagPeaks cr num_nodes get peaks = bagPeaks cr num_nodes get' peaks :=
      foldr_ext _ _ _ fun p hp _ => by rw [h p (calcPeakIndices_lt hpeaks p hp)]
    exact congrArg Except.ok hbag

/-! ### Caches -/

/-- `PMMRCache` -/
structure PMMRCache where
  firstLeaf : Nat
  leaves : List Leaf
  nodes : List Hash
  deriving DecidableEq

namespace PMMRCache

/-- `PMMRCache(pBacked)` -/
def new (nextLeafIdx : Nat) : PMMRCache := { firstLeaf := nextLeafIdx, leaves := [], nodes := [] }

/-- `GetNextLeafIdx` -/
def getNextLeafIdx (c : PMMRCache) : Nat :=
  match c.leaves.getLast? with
  | none => c.firstLeaf
  | some leaf => leaf.index + 1

/-- `GetHash`; `baseHash` is `GetHash` of the MMR below. Only nodes that are there are ever looked
    up. -/
def getHash (baseHash : Nat → Hash) (c : PMMRCache) (position : Nat) : Hash :=
  if position < leafPos c.firstLeaf then baseHash position
  else c.nodes.getD (position - leafPos c.firstLeaf) BigInt.zero

/-- `GetHash` of any position; `none` where the source asserts -/
def getHash? (baseHash : Nat → Option Hash) (c : PMMRCache) (position : Nat) : Option Hash :=
  if position < leafPos c.firstLeaf then baseHash position
  else c.nodes[position - leafPos c.firstLeaf]?

/-- `GetLeaf`; `none` where the source throws -/
def getLeaf (baseLeaf : Nat → Option Leaf) (c : PMMRCache) (leafIdx : Nat) : Option Leaf :=
  if leafIdx < c.firstLeaf then baseLeaf leafIdx
  else c.leaves[leafIdx - c.firstLeaf]?

/-- `AddLeaf`. The left child of a new parent is always older than the leaf. -/
def addLeaf (cr : Crypto) (baseHash : Nat → Hash) (c : PMMRCache) (leaf : Leaf) : PMMRCache :=
  { c with
    leaves := c.leaves ++ [leaf]
    nodes := c.nodes ++ (leaf.hash :: parentsFrom (calcParentHash cr) (c.getHash baseHash)
      (leaf.index + 2) (leafPos leaf.index + 1) leaf.hash) }

/-- `IMMR::Add`: the index of the new leaf, and the cache with it -/
def add (cr : Crypto) (baseHash : Nat → Hash) (c : PMMRCache) (data : Bytes) : Nat × PMMRCache :=
  (c.getNextLeafIdx, c.addLeaf cr baseHash (Leaf.create cr c.getNextLeafIdx data))

/-- `Rewind` -/
def rewind (c : PMMRCache) (numLeaves : Nat) : PMMRCache :=
  if numLeaves ≤ c.firstLeaf then new numLeaves
  else if c.leaves.isEmpty then c
  else
    let c' := { c with leaves := c.leaves.takeWhile fun leaf => leaf.index < numLeaves }
    { c' with nodes := c'.nodes.take (leafPos c'.getNextLeafIdx - leafPos c'.firstLeaf) }

/-- `BatchWrite`: the leaves are added anew. -/
def batchWrite (cr : Crypto) (baseHash : Nat → Hash) (c : PMMRCache) (firstLeafIdx : Nat)
    (leaves : List Leaf) : PMMRCache :=
  leaves.foldl (fun c leaf => (c.add cr baseHash leaf.data).2) (c.rewind firstLeafIdx)

/-- What `Flush` leaves behind. -/
def flushed (c : PMMRCache) : PMMRCache := new c.getNextLeafIdx

end PMMRCache

/-! ### The hash file -/

/-- `PMMR`, between two batches: the hash file and the leaves in the database. -/
structure PMMR where
  hashFile : List Hash
  leafDB : Nat → Option Bytes

namespace PMMR

/-- `GetHash` -/
def getHash (m : PMMR) (position : Nat) : Hash := m.hashFile.getD position BigInt.zero

/-- `GetHash` of any position; `none` where the source throws -/
def getHash? (m : PMMR) (position : Nat) : Option Hash := m.hashFile[position]?

/-- `GetNumLeaves` -/
def getNumLeaves (m : PMMR) : Nat := leafIndex m.hashFile.length

/-- `GetLeaf`; `none` where the source throws -/
def getLeaf (cr : Crypto) (m : PMMR) (leafIdx : Nat) : Option Leaf :=
  (m.leafDB leafIdx).map (Leaf.create cr leafIdx)

/-- `Rewind` -/
def rewind (m : PMMR) (numLeaves : Nat) : Except Error PMMR :=
  if leafPos numLeaves > m.hashFile.length then .error (.file "Tried to rewind past end")
  else .ok { m with hashFile := m.hashFile.take (leafPos numLeaves) }

/-- `AddLeaf`, and the leaf written to the database at the end of the batch -/
def addLeaf (cr : Crypto) (m : PMMR) (leaf : Leaf) : PMMR :=
  { hashFile := m.hashFile ++ (leaf.hash :: parentsFrom (calcParentHash cr) m.getHash
      (leaf.index + 2) (leafPos leaf.index + 1) leaf.hash)
    leafDB := fun i => if i = leaf.index then some leaf.data else m.leafDB i }

/-- `BatchWrite` -/
def batchWrite (cr : Crypto) (m : PMMR) (firstLeafIdx : Nat) (leaves : List Leaf) :
    Except Error PMMR := do
  let m' ← m.rewind firstLeafIdx
  pure (leaves.foldl (fun m leaf => m.addLeaf cr leaf) m')

end PMMR

/-! ### Contents -/

section Contents
variable (cr : Crypto)

def mmrNodes (data : List Bytes) : List Hash :=
  nodesUpTo (calcLeafHash cr) (calcParentHash cr) BigInt.zero (fun i => data.getD i []) data.length

/-- The leaves from index `first` on. -/
def leavesFrom (first : Nat) (data : List Bytes) : List Leaf :=
  ((data.drop first).zipIdx first).map fun p => Leaf.create cr p.2 p.1

@[simp] theorem length_mmrNodes (data : List Bytes) : (mmrNodes cr data).length = leafPos data.length :=
  length_nodesUpTo _ _

variable {first m : Nat} {data : List Bytes}

theorem take_mmrNodes (data : List Bytes) (h : m ≤ data.length) :
    (mmrNodes cr data).take (leafPos m) = mmrNodes cr (data.take m) := by
  unfold mmrNodes
  rw [take_nodesUpTo _ h, length_take, Nat.min_eq_left h]
  refine nodesUpTo_congr fun i hi => ?_
  simp [hi]

theorem mmrNodes_append (data : List Bytes) (d : Bytes) {get : Nat → Hash}
    (hget : ∀ p < leafPos data.length, get p = (mmrNodes cr data).getD p BigInt.zero) :
    mmrNodes cr (data ++ [d]) =
      mmrNodes cr data ++ newNodes (calcLeafHash cr) (calcParentHash cr) get data.length d := by
  have hold : nodesUpTo (calcLeafHash cr) (calcParentHash cr) BigInt.zero
      (fun i => (data ++ [d]).getD i []) data.length = mmrNodes cr data := by
    refine nodesUpTo_congr fun i hi => ?_
    simp [getElem?_append, hi]
  rw [mmrNodes, length_append, length_singleton, nodesUpTo, hold]
  rw [newNodes_congr (fun p hp => (hget p hp).symm)]
  simp

/-- A store holds the MMR over `data`: its size, its nodes and its leaves. -/
structure HoldsMmr (numLeaves : Nat) (getHash : Nat → Hash) (getLeaf : Nat → Option Leaf)
    (data : List Bytes) : Prop where
  size : numLeaves = data.length
  node : ∀ p < leafPos data.length, getHash p = (mmrNodes cr data).getD p BigInt.zero
  leaf : ∀ i (h : i < data.length), getLeaf i = some (Leaf.create cr i data[i])

/-! ### Lists of leaves -/

theorem leavesFrom_append (hm : first ≤ m) (h : m ≤ data.length) :
    leavesFrom cr first data = leavesFrom cr first (data.take m) ++ leavesFrom cr m data := by
  obtain ⟨k, rfl⟩ : ∃ k, m = first + k := ⟨m - first, by omega⟩
  have hdrop : (data.take (first + k)).drop first = (data.drop first).take k := by
    rw [drop_take]
    congr 1
    omega
  have hlen : ((data.drop first).take k).length = k := by
    simp
    omega
  unfold leavesFrom
  rw [hdrop, ← map_append, ← drop_drop]
  conv_lhs => rw [← take_append_drop k (data.drop first), zipIdx_append, hlen]

@[simp] theorem leavesFrom_length (data : List Bytes) : leavesFrom cr data.length data = [] := by
  simp [leavesFrom]

theorem leavesFrom_concat (h : first ≤ data.length) (d : Bytes) :
    leavesFrom cr first (data ++ [d]) = leavesFrom cr first data ++ [Leaf.create cr data.length d] := by
  rw [leavesFrom_append cr h (by simp)]
  simp [leavesFrom]

theorem getElem?_leavesFrom {i : Nat} (hfirst : first ≤ i) (h : i < data.length) :
    (leavesFrom cr first data)[i - first]? = some (Leaf.create cr i data[i]) := by
  have hidx : first + (i - first) = i := by omega
  simp [leavesFrom, hidx, h]

theorem mem_leavesFrom_index {leaf : Leaf} (h : leaf ∈ leavesFrom cr first data) :
    first ≤ leaf.index ∧ leaf.index < data.length := by
  obtain ⟨⟨d, i⟩, hmem, rfl⟩ := mem_map.mp h
  have hi := mem_zipIdx hmem
  have hlen := hi.2.1
  rw [length_drop] at hlen
  exact ⟨hi.1, by show i < _; omega⟩

theorem takeWhile_leavesFrom (hm : first ≤ m) (h : m ≤ data.length) :
    (leavesFrom cr first data).takeWhile (fun leaf => leaf.index < m) =
      leavesFrom cr first (data.take m) := by
  rw [leavesFrom_append cr hm h, takeWhile_append_of_pos]
  · have hnil : (leavesFrom cr m data).takeWhile (fun leaf => decide (leaf.index < m)) = [] := by
      cases hrest : leavesFrom cr m data with
      | nil => rfl
      | cons leaf rest =>
        have hmem : leaf ∈ leavesFrom cr m data := by simp [hrest]
        have hge := (mem_leavesFrom_index cr hmem).1
        rw [takeWhile_cons_of_neg (by simpa using hge)]
    rw [hnil, append_nil]
  · intro leaf hleaf
    have := (mem_leavesFrom_index cr hleaf).2
    rw [length_take] at this
    simp only [decide_eq_true_eq]
    omega

/-! ### What a cache holds -/

/-- A cache over an MMR with the leaves `data₀` shows `data`: it shares the leaves before its first
    one with the MMR below and holds the others itself. -/
structure PMMRCache.Extends (c : PMMRCache) (data₀ data : List Bytes) : Prop where
  first_le_base : c.firstLeaf ≤ data₀.length
  first_le : c.firstLeaf ≤ data.length
  shared : data.take c.firstLeaf = data₀.take c.firstLeaf
  leaves : c.leaves = leavesFrom cr c.firstLeaf data
  nodes : c.nodes = (mmrNodes cr data).drop (leafPos c.firstLeaf)

end Contents

namespace PMMRCache
variable {cr : Crypto} {c : PMMRCache} {data₀ data : List Bytes}

theorem extends_new (data : List Bytes) : (new data.length).Extends cr data data where
  first_le_base := Nat.le_refl _
  first_le := Nat.le_refl _
  shared := rfl
  leaves := (leavesFrom_length cr data).symm
  nodes := by
    symm
    show drop (leafPos data.length) (mmrNodes cr data) = []
    rw [drop_eq_nil_iff, length_mmrNodes]

theorem getNextLeafIdx_of_leaves (hle : c.firstLeaf ≤ data.length)
    (hleaves : c.leaves = leavesFrom cr c.firstLeaf data) : c.getNextLeafIdx = data.length := by
  unfold getNextLeafIdx
  rw [hleaves]
  rcases eq_nil_or_concat data with rfl | ⟨init, d, rfl⟩
  · simp [leavesFrom] at hle ⊢
    exact hle
  · by_cases hfirst : c.firstLeaf ≤ init.length
    · rw [concat_eq_append, leavesFrom_concat cr hfirst]
      simp [Leaf.create]
    · have heq : c.firstLeaf = (init.concat d).length := by
        rw [length_concat] at hle ⊢
        omega
      rw [heq, leavesFrom_length]
      simp

theorem Extends.getNextLeafIdx_eq (h : c.Extends cr data₀ data) : c.getNextLeafIdx = data.length :=
  getNextLeafIdx_of_leaves h.first_le h.leaves

theorem Extends.getHash?_eq {baseHash : Nat → Option Hash} (h : c.Extends cr data₀ data)
    (hbase : ∀ p < leafPos data₀.length, baseHash p = (mmrNodes cr data₀)[p]?) :
    ∀ p < leafPos data.length, c.getHash? baseHash p = (mmrNodes cr data)[p]? := by
  intro p hp
  have hle := leafPos_strictMono.monotone h.first_le_base
  unfold getHash?
  by_cases hold : p < leafPos c.firstLeaf
  · have hshared : (mmrNodes cr data).take (leafPos c.firstLeaf) =
        (mmrNodes cr data₀).take (leafPos c.firstLeaf) := by
      rw [take_mmrNodes cr data h.first_le, take_mmrNodes cr data₀ h.first_le_base, h.shared]
    have hp' := congrArg (fun l => l[p]?) hshared
    simp only [getElem?_take, hold, if_true] at hp'
    rw [if_pos hold, hbase p (by omega), hp']
  · rw [if_neg hold, h.nodes, getElem?_drop]
    congr 1
    omega

variable {n : Nat} {baseHash : Nat → Hash} {baseLeaf : Nat → Option Leaf}

section
variable (h : c.Extends cr data₀ data) (hbase : HoldsMmr cr n baseHash baseLeaf data₀)
include h hbase

theorem Extends.holds : HoldsMmr cr c.getNextLeafIdx (c.getHash baseHash) (c.getLeaf baseLeaf) data := by
  refine ⟨h.getNextLeafIdx_eq, fun p hp => ?_, fun i hi => ?_⟩
  · have hnode : c.getHash? (fun q => some (baseHash q)) p = (mmrNodes cr data)[p]? := by
      apply h.getHash?_eq _ p hp
      intro q hq
      have hq' : q < (mmrNodes cr data₀).length := by rwa [length_mmrNodes]
      rw [hbase.node q hq, getD_eq_getElem _ _ hq', getElem?_eq_getElem hq']
    rw [getD_eq_getElem?_getD, ← hnode]
    unfold getHash getHash?
    split
    · rfl
    · rw [getD_eq_getElem?_getD]
  · unfold getLeaf
    split
    · next hold =>
      have hi₀ := Nat.lt_of_lt_of_le hold h.first_le_base
      have hp' := congrArg (fun l => l[i]?) h.shared
      simp only [getElem?_take, hold, if_true, getElem?_eq_getElem hi,
        getElem?_eq_getElem hi₀, Option.some.injEq] at hp'
      rw [hbase.leaf i hi₀, hp']
    · next hnew =>
      rw [h.leaves]
      exact getElem?_leavesFrom cr (by omega) hi

theorem Extends.add (d : Bytes) :
    (c.add cr baseHash d).1 = data.length ∧ (c.add cr baseHash d).2.Extends cr data₀ (data ++ [d]) := by
  have hnext := h.getNextLeafIdx_eq
  have hle := leafPos_strictMono.monotone h.first_le
  refine ⟨hnext, h.first_le_base, ?_, ?_, ?_, ?_⟩
  · show c.firstLeaf ≤ (data ++ [d]).length
    have := h.first_le
    simp
    omega
  · show (data ++ [d]).take c.firstLeaf = _
    rw [take_append_of_le_length h.first_le]
    exact h.shared
  · show c.leaves ++ [_] = leavesFrom cr c.firstLeaf (data ++ [d])
    rw [leavesFrom_concat cr h.first_le, h.leaves, hnext]
  · have hnodes := mmrNodes_append cr data d (h.holds hbase).node
    show c.nodes ++ newNodes (calcLeafHash cr) (calcParentHash cr) (c.getHash baseHash)
      c.getNextLeafIdx d = (mmrNodes cr (data ++ [d])).drop (leafPos c.firstLeaf)
    rw [hnodes, drop_append_of_le_length (by rw [length_mmrNodes]; exact hle), h.nodes, hnext]

end

theorem Extends.rewind (h : c.Extends cr data₀ data) {m : Nat} (hm : m ≤ data.length) :
    (c.rewind m).Extends cr data₀ (data.take m) := by
  have hlen : (data.take m).length = m := by
    rw [length_take]
    omega
  unfold PMMRCache.rewind
  split
  · next hfirst =>
    refine ⟨hfirst.trans h.first_le_base, by show m ≤ _; omega, ?_, ?_, ?_⟩
    · have := congrArg (take m) h.shared
      rw [take_take, take_take, Nat.min_eq_left hfirst] at this
      show (data.take m).take m = _
      rw [take_take, Nat.min_self, this]
      rfl
    · have hnil := leavesFrom_length cr (data.take m)
      rw [hlen] at hnil
      exact hnil.symm
    · show [] = _
      rw [eq_comm, drop_eq_nil_iff, length_mmrNodes, hlen]
      exact Nat.le_refl _
  · next hfirst =>
    have hfirst' : c.firstLeaf ≤ m := by omega
    split
    · next hempty =>
      -- nothing was added here, so there is nothing to drop
      have hnil : c.leaves = [] := isEmpty_iff.mp hempty
      have hlast := h.getNextLeafIdx_eq
      rw [getNextLeafIdx, hnil] at hlast
      simp only [getLast?_nil] at hlast
      omega
    · have hleaves : c.leaves.takeWhile (fun leaf => decide (leaf.index < m)) =
          leavesFrom cr c.firstLeaf (data.take m) := by
        rw [h.leaves]
        exact takeWhile_leavesFrom cr hfirst' hm
      have hnext : getNextLeafIdx { c with leaves := c.leaves.takeWhile fun leaf => leaf.index < m } =
          m := by
        apply (getNextLeafIdx_of_leaves _ hleaves).trans hlen
        show c.firstLeaf ≤ _
        omega
      refine ⟨h.first_le_base, by show c.firstLeaf ≤ _; omega, ?_, hleaves, ?_⟩
      · rw [take_take, Nat.min_eq_left hfirst']
        exact h.shared
      · show c.nodes.take (leafPos (getNextLeafIdx _) - leafPos c.firstLeaf) = _
        rw [hnext, h.nodes, ← drop_take, take_mmrNodes cr data hm]

theorem Extends.batchWrite {top : PMMRCache} {data₁ : List Bytes} (h : c.Extends cr data₀ data₁)
    (hbase : HoldsMmr cr n baseHash baseLeaf data₀) (htop : top.Extends cr data₁ data) :
    (c.batchWrite cr baseHash top.firstLeaf top.leaves).Extends cr data₀ data := by
  -- each leaf written extends the rewound leaves by one
  have hadd : ∀ ds (c' : PMMRCache) shown, c'.Extends cr data₀ shown →
      ∀ ls : List Leaf, ls.map Leaf.data = ds →
      (ls.foldl (fun c leaf => (c.add cr baseHash leaf.data).2) c').Extends cr data₀ (shown ++ ds) := by
    intro ds
    induction ds with
    | nil =>
      intro c' shown hc' ls hls
      obtain rfl : ls = [] := map_eq_nil_iff.mp hls
      simpa using hc'
    | cons d ds ih =>
      intro c' shown hc' ls hls
      obtain ⟨leaf, rest, rfl, rfl, rfl⟩ := map_eq_cons_iff.mp hls
      have := ih _ _ (hc'.add hbase leaf.data).2 rest rfl
      simpa using this
  have hdata : top.leaves.map Leaf.data = data.drop top.firstLeaf := by
    rw [htop.leaves, leavesFrom, map_map]
    exact zipIdx_map_fst _ _
  have := hadd _ _ _ (h.rewind htop.first_le_base) top.leaves hdata
  rwa [← htop.shared, take_append_drop] at this

end PMMRCache

/-! ### What the hash file holds -/

namespace PMMR
variable {cr : Crypto} {m : PMMR} {data₀ data : List Bytes}

/-- The file and the database hold the MMR over `data`; entries of the database above its end may be
    left over from before a rewind. -/
structure Holds (cr : Crypto) (m : PMMR) (data : List Bytes) : Prop where
  hashFile : m.hashFile = mmrNodes cr data
  leafDB : ∀ i (h : i < data.length), m.leafDB i = some data[i]

theorem Holds.holdsMmr (h : m.Holds cr data) :
    HoldsMmr cr m.getNumLeaves m.getHash (m.getLeaf cr) data where
  size := by rw [getNumLeaves, h.hashFile, length_mmrNodes, leafIndex_leafPos]
  node := fun p _ => by rw [getHash, h.hashFile]
  leaf := fun i hi => by rw [getLeaf, h.leafDB i hi, Option.map_some]

theorem Holds.addLeaf (h : m.Holds cr data) (d : Bytes) :
    (m.addLeaf cr (Leaf.create cr data.length d)).Holds cr (data ++ [d]) where
  hashFile := by
    rw [mmrNodes_append cr data d h.holdsMmr.node]
    show m.hashFile ++ newNodes (calcLeafHash cr) (calcParentHash cr) m.getHash data.length d = _
    rw [h.hashFile]
  leafDB := fun i hi => by
    show (if i = data.length then some d else m.leafDB i) = _
    split
    · next heq => simp [heq]
    · next hne =>
      have hlt : i < data.length := by
        rw [length_append, length_singleton] at hi
        omega
      rw [h.leafDB i hlt, getElem_append_left hlt]

theorem Holds.rewind (h : m.Holds cr data) {n : Nat} (hn : n ≤ data.length) :
    ∃ m', m.rewind n = .ok m' ∧ m'.Holds cr (data.take n) := by
  have hle := leafPos_strictMono.monotone hn
  refine ⟨_, if_neg (by rw [h.hashFile, length_mmrNodes]; omega), ?_, fun i hi => ?_⟩
  · rw [h.hashFile, take_mmrNodes cr data hn]
  · rw [length_take] at hi
    rw [h.leafDB i (by omega), getElem_take]

theorem Holds.batchWrite {top : PMMRCache} (h : m.Holds cr data₀) (htop : top.Extends cr data₀ data) :
    ∃ m', m.batchWrite cr top.firstLeaf top.leaves = .ok m' ∧ m'.Holds cr data := by
  have hadd : ∀ (ds shown : List Bytes) (m' : PMMR), m'.Holds cr shown →
      (((ds.zipIdx shown.length).map fun p => Leaf.create cr p.2 p.1).foldl
        (fun m leaf => m.addLeaf cr leaf) m').Holds cr (shown ++ ds) := by
    intro ds
    induction ds with
    | nil => simp
    | cons d ds ih =>
      intro shown m' hm'
      have := ih (shown ++ [d]) _ (hm'.addLeaf d)
      rw [length_append, append_assoc] at this
      exact this
  obtain ⟨m', hm', hholds⟩ := h.rewind htop.first_le_base
  refine ⟨top.leaves.foldl (fun m leaf => m.addLeaf cr leaf) m', ?_, ?_⟩
  · rw [PMMR.batchWrite, hm']
    rfl
  · have hlen : (data₀.take top.firstLeaf).length = top.firstLeaf := by
      rw [length_take]
      have := htop.first_le_base
      omega
    have := hadd (data.drop top.firstLeaf) _ m' hholds
    rw [hlen, ← htop.shared, take_append_drop] at this
    rw [htop.leaves]
    exact this

end PMMR

end Defcoin.Mweb
