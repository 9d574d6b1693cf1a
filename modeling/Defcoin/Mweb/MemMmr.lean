import Mathlib.Data.List.Induction
import Defcoin.Mweb.Pmmr

/-! # The MMR in memory

  `MemMMR` keeps all leaves and all nodes in two vectors. It is the reference for the layered MMR of
  the outputs, and blocks use it for the kernel root. Reads answer `none` where the source asserts.
-/

namespace Defcoin.Mweb

open ByteCodec PostOrder

/-- `MemMMR` -/
structure MemMMR where
  leaves : List Leaf
  hashes : List Hash
  deriving DecidableEq

namespace MemMMR

/-- `MemMMR()` -/
def empty : MemMMR := { leaves := [], hashes := [] }

/-- `GetNumLeaves` -/
def getNumLeaves (m : MemMMR) : Nat := m.leaves.length

/-- `GetNumNodes` -/
def getNumNodes (m : MemMMR) : Nat := leafPos m.getNumLeaves

/-- `GetLeaf` -/
def getLeaf (m : MemMMR) (leafIdx : Nat) : Option Leaf := m.leaves[leafIdx]?

/-- `GetHash` -/
def getHash (m : MemMMR) (position : Nat) : Option Hash := m.hashes[position]?

section Hashing
variable (cr : Crypto)

/-- `AddLeaf`. There are fewer parents than leaves, so the loop over them ends by itself. -/
def addLeaf (m : MemMMR) (leaf : Leaf) : MemMMR where
  leaves := m.leaves ++ [leaf]
  hashes := growFrom (calcParentHash cr) BigInt.zero (leaf.index + 2) (leafPos leaf.index + 1)
    (m.hashes ++ [leaf.hash])

/-- `IMMR::Add` -/
def add (m : MemMMR) (data : Bytes) : MemMMR := m.addLeaf cr (Leaf.create cr m.getNumLeaves data)

/-- `IMMR::Root` -/
def root (m : MemMMR) : Except Error Hash :=
  mmrRoot cr m.getNumNodes fun p => (m.getHash p).getD BigInt.zero

def ofLeaves (data : List Bytes) : MemMMR := data.foldl (fun m d => m.add cr d) empty

theorem ofLeaves_append (data : List Bytes) (d : Bytes) :
    ofLeaves cr (data ++ [d]) = (ofLeaves cr data).add cr d := by
  simp [ofLeaves]

theorem ofLeaves_eq (data : List Bytes) :
    ofLeaves cr data = { leaves := leavesFrom cr 0 data, hashes := mmrNodes cr data } := by
  induction data using List.reverseRecOn with
  | nil => rfl
  | append_singleton data d ih =>
    have hlen : (leavesFrom cr 0 data).length = data.length := by simp [leavesFrom]
    obtain ⟨t, ht, hnext⟩ := leafPos_succ data.length
    rw [ofLeaves_append, ih, add, addLeaf, getNumLeaves, hlen, leavesFrom_concat cr (Nat.zero_le _),
      mmrNodes_append cr data d fun p _ => rfl]
    congr 1
    refine (growFrom_eq (length_mmrNodes cr data) ht hnext (data.length + 2) 0
      [calcLeafHash cr (leafPos data.length) d] _ (Nat.zero_le t) rfl).trans ?_
    rw [List.append_assoc]
    rfl

end Hashing

end MemMMR

/-! ### Roots are always defined -/

theorem peaksLoop_rest (k numLeft sum : Nat) : (peaksLoop k numLeft sum).2 = (descend k numLeft).1 := by
  induction k generalizing numLeft sum with
  | zero => rfl
  | succ k ih =>
    rw [peaksLoop, descend]
    split
    · exact ih _ _
    · exact ih _ _

theorem calcPeakIndices_leafPos (n : Nat) : ∃ peaks, calcPeakIndices (leafPos n) = .ok peaks := by
  unfold calcPeakIndices
  by_cases hzero : leafPos n = 0
  · exact ⟨[], if_pos hzero⟩
  · have hrest : (peaksLoop (bitLength (leafPos n)) (leafPos n) 0).2 = 0 := by
      rw [peaksLoop_rest]
      exact height_leafPos n
    refine ⟨(peaksLoop (bitLength (leafPos n)) (leafPos n) 0).1, ?_⟩
    rw [if_neg hzero]
    exact if_pos hrest

theorem mmrRoot_leafPos (cr : Crypto) (n : Nat) (getHash : Nat → Hash) :
    ∃ hash, mmrRoot cr (leafPos n) getHash = .ok hash := by
  obtain ⟨_, hpeaks⟩ := calcPeakIndices_leafPos n
  exact ⟨_, by rw [mmrRoot, hpeaks]; rfl⟩

end Defcoin.Mweb
