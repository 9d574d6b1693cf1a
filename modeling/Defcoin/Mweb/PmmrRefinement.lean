import Defcoin.Framework.Machine
import Defcoin.Mweb.MemMmr

/-! # The layered MMR refines the one in memory

  `IMMR` is a stack of caches over the hash file. The top layer takes leaves, is rewound, is flushed
  into the layer below or gets a fresh layer on top; every layer below changes only when it is
  flushed into.
-/

namespace Defcoin.Mweb

open ByteCodec PostOrder MemMMR Machine

/-! ### Stacks of MMRs -/

/-- An `IMMR` of the layered kind. -/
inductive IMMR where
  | pmmr (m : PMMR)
  | cache (base : IMMR) (c : PMMRCache)

namespace IMMR

/-- `GetNextLeafIdx`, which `GetNumLeaves` equals -/
def getNextLeafIdx : IMMR → Nat
  | pmmr m => m.getNumLeaves
  | cache _ c => c.getNextLeafIdx

/-- `GetNumNodes` -/
def getNumNodes (s : IMMR) : Nat := leafPos s.getNextLeafIdx

/-- `GetHash` of a node that is there -/
def getHash : IMMR → Nat → Hash
  | pmmr m => m.getHash
  | cache base c => c.getHash base.getHash

/-- `GetHash` of any position -/
def getHash? : IMMR → Nat → Option Hash
  | pmmr m => m.getHash?
  | cache base c => c.getHash? base.getHash?

section Hashing
variable (cr : Crypto)

/-- `GetLeaf` -/
def getLeaf : IMMR → Nat → Option Leaf
  | pmmr m => m.getLeaf cr
  | cache base c => c.getLeaf base.getLeaf

/-- `Root` -/
def root (s : IMMR) : Except Error Hash := mmrRoot cr s.getNumNodes s.getHash

/-- `BatchWrite` -/
def batchWrite : IMMR → (firstLeafIdx : Nat) → List Leaf → Except Error IMMR
  | pmmr m, firstLeafIdx, leaves => (m.batchWrite cr firstLeafIdx leaves).map pmmr
  | cache base c, firstLeafIdx, leaves =>
    .ok (cache base (c.batchWrite cr base.getHash firstLeafIdx leaves))

/-- Flush every layer, from a batch for the topmost one down to the hash file. -/
def flushAll : IMMR → (firstLeafIdx : Nat) → List Leaf → Except Error PMMR
  | pmmr m, firstLeafIdx, leaves => m.batchWrite cr firstLeafIdx leaves
  | cache base c, firstLeafIdx, leaves =>
    let c' := c.batchWrite cr base.getHash firstLeafIdx leaves
    flushAll base c'.firstLeaf c'.leaves

end Hashing

end IMMR

/-- A stack whose top layer is a cache. -/
structure PMMRStack where
  base : IMMR
  top : PMMRCache

namespace PMMRStack

/-- The stack as an MMR. -/
def toIMMR (s : PMMRStack) : IMMR := .cache s.base s.top

/-- `PMMRCache(pBacked)` -/
def push (base : IMMR) : PMMRStack := { base, top := .new base.getNextLeafIdx }

end PMMRStack

inductive MmrOp where
  | add (data : Bytes)
  | rewind (numLeaves : Nat)
  | flush
  | push

/-- One operation; `Add` answers with the index of the leaf. -/
def PMMRStack.step (cr : Crypto) (s : PMMRStack) : MmrOp → Except Error (Option Nat × PMMRStack)
  | .add data =>
    let r := s.top.add cr s.base.getHash data
    .ok (some r.1, { s with top := r.2 })
  | .rewind numLeaves => .ok (none, { s with top := s.top.rewind numLeaves })
  | .flush => do
    let base ← s.base.batchWrite cr s.top.firstLeaf s.top.leaves
    pure (none, { base, top := s.top.flushed })
  | .push => .ok (none, .push s.toIMMR)

/-- Stacks under `MmrOp`. -/
def pmmrMachine (cr : Crypto) : Machine PMMRStack MmrOp (Option Nat) Error where
  step := PMMRStack.step cr

/-! ### The list of leaves -/

def leavesStep (data : List Bytes) : MmrOp → Option Nat × List Bytes
  | .add d => (some data.length, data ++ [d])
  | .rewind numLeaves => (none, data.take numLeaves)
  | .flush => (none, data)
  | .push => (none, data)

def MmrOp.Allowed (data : List Bytes) : MmrOp → Prop
  | .rewind numLeaves => numLeaves ≤ data.length
  | _ => True

/-- Every read of what is there gives what the MMR in memory gives. -/
structure IMMR.Agrees (cr : Crypto) (s : IMMR) (m : MemMMR) : Prop where
  numLeaves : s.getNextLeafIdx = m.getNumLeaves
  numNodes : s.getNumNodes = m.getNumNodes
  leaf : ∀ i < m.getNumLeaves, ∃ leaf, s.getLeaf cr i = some leaf ∧ m.getLeaf i = some leaf
  node : ∀ p < m.getNumNodes, ∃ hash, s.getHash? p = some hash ∧ m.getHash p = some hash
  root : ∃ hash, s.root cr = .ok hash ∧ m.root cr = .ok hash

/-! ### Invariant -/

variable {cr : Crypto}

/-- Each layer holds the tail of its leaves and shares the others with the layer below. -/
inductive IMMR.Shows (cr : Crypto) : IMMR → List Bytes → Prop where
  | pmmr {m data} : m.Holds cr data → Shows cr (.pmmr m) data
  | cache {base c data₀ data} :
    Shows cr base data₀ → c.Extends cr data₀ data → Shows cr (.cache base c) data

namespace IMMR.Shows

variable {s : IMMR} {data data₀ : List Bytes}

theorem holdsMmr (h : s.Shows cr data) :
    HoldsMmr cr s.getNextLeafIdx s.getHash (s.getLeaf cr) data := by
  induction h with
  | pmmr hm => exact hm.holdsMmr
  | cache _ hc ih => exact hc.holds ih

theorem getHash?_eq (h : s.Shows cr data) :
    ∀ p < leafPos data.length, s.getHash? p = (mmrNodes cr data)[p]? := by
  induction h with
  | pmmr hm =>
    intro p _
    rw [IMMR.getHash?, PMMR.getHash?, hm.hashFile]
  | cache _ hc ih => exact hc.getHash?_eq ih

section
variable {top : PMMRCache} (h : s.Shows cr data₀) (htop : top.Extends cr data₀ data)
include h htop

theorem batchWrite : ∃ s', s.batchWrite cr top.firstLeaf top.leaves = .ok s' ∧ s'.Shows cr data := by
  cases h with
  | pmmr hm =>
    obtain ⟨m', hm', hholds⟩ := hm.batchWrite htop
    exact ⟨.pmmr m', by rw [IMMR.batchWrite, hm']; rfl, .pmmr hholds⟩
  | cache hbase hc => exact ⟨_, rfl, .cache hbase (hc.batchWrite hbase.holdsMmr htop)⟩

theorem flushAll : ∃ m, s.flushAll cr top.firstLeaf top.leaves = .ok m ∧ m.Holds cr data := by
  induction h generalizing top with
  | pmmr hm => exact hm.batchWrite htop
  | cache hbase hc ih => exact ih (hc.batchWrite hbase.holdsMmr htop)

end

theorem agrees (h : s.Shows cr data) : s.Agrees cr (.ofLeaves cr data) := by
  have hsize : (MemMMR.ofLeaves cr data).getNumLeaves = data.length := by
    simp [MemMMR.ofLeaves_eq, MemMMR.getNumLeaves, leavesFrom]
  have hnodes : (MemMMR.ofLeaves cr data).getNumNodes = leafPos data.length := by
    rw [MemMMR.getNumNodes, hsize]
  have hnum : s.getNumNodes = leafPos data.length := by
    rw [IMMR.getNumNodes, h.holdsMmr.size]
  refine ⟨h.holdsMmr.size.trans hsize.symm, hnum.trans hnodes.symm, ?_, ?_, ?_⟩
  · intro i hi
    rw [hsize] at hi
    refine ⟨_, h.holdsMmr.leaf i hi, ?_⟩
    rw [MemMMR.ofLeaves_eq]
    exact getElem?_leavesFrom cr (Nat.zero_le i) hi
  · intro p hp
    rw [hnodes] at hp
    have hlt : p < (mmrNodes cr data).length := by rwa [length_mmrNodes]
    refine ⟨(mmrNodes cr data)[p], ?_, ?_⟩
    · rw [h.getHash?_eq p hp, List.getElem?_eq_getElem hlt]
    · rw [MemMMR.ofLeaves_eq]
      exact List.getElem?_eq_getElem hlt
  · obtain ⟨hash, hroot⟩ := mmrRoot_leafPos cr data.length s.getHash
    refine ⟨hash, by rw [IMMR.root, hnum, hroot], ?_⟩
    rw [MemMMR.root, hnodes, ← hroot]
    refine mmrRoot_congr cr fun p hp => ?_
    rw [h.holdsMmr.node p hp, MemMMR.ofLeaves_eq]
    rfl

end IMMR.Shows

namespace PMMRStack

def Shows (cr : Crypto) (s : PMMRStack) (data : List Bytes) : Prop :=
  ∃ data₀, s.base.Shows cr data₀ ∧ s.top.Extends cr data₀ data

variable {s : PMMRStack} {data : List Bytes}

theorem shows_push {base : IMMR} (h : base.Shows cr data) : (push base).Shows cr data := by
  refine ⟨data, h, ?_⟩
  rw [push, h.holdsMmr.size]
  exact PMMRCache.extends_new data

theorem Shows.getLeaf_eq (h : s.Shows cr data) (i : Nat) :
    s.toIMMR.getLeaf cr i = (ofLeaves cr data).getLeaf i := by
  obtain ⟨_, hbase, htop⟩ := h
  have hmem : (ofLeaves cr data).getLeaf i = (leavesFrom cr 0 data)[i]? := by
    rw [ofLeaves_eq, getLeaf]
  rw [hmem]
  by_cases hi : i < data.length
  · exact ((htop.holds hbase.holdsMmr).leaf i hi).trans (getElem?_leavesFrom cr (Nat.zero_le i) hi).symm
  · have hfirst := htop.first_le
    have hend : (leavesFrom cr s.top.firstLeaf data)[i - s.top.firstLeaf]? = none := by
      simp [leavesFrom]
      omega
    rw [toIMMR, IMMR.getLeaf, PMMRCache.getLeaf, if_neg (by omega), htop.leaves, hend]
    simp [leavesFrom]
    omega

theorem Shows.toIMMR (h : s.Shows cr data) : s.toIMMR.Shows cr data := by
  obtain ⟨_, hbase, htop⟩ := h
  exact .cache hbase htop

theorem step_shows (s : PMMRStack) (data : List Bytes) (op : MmrOp) (h : s.Shows cr data)
    (hop : op.Allowed data) :
    ∃ s', s.step cr op = .ok ((leavesStep data op).1, s') ∧ s'.Shows cr (leavesStep data op).2 := by
  have hfull := h.toIMMR
  obtain ⟨data₀, hbase, htop⟩ := h
  cases op with
  | add d =>
    obtain ⟨hidx, hadd⟩ := htop.add hbase.holdsMmr d
    refine ⟨{ s with top := (s.top.add cr s.base.getHash d).2 }, ?_, data₀, hbase, hadd⟩
    rw [step, hidx]
    rfl
  | rewind numLeaves => exact ⟨_, rfl, data₀, hbase, htop.rewind hop⟩
  | flush =>
    obtain ⟨base, hwrite, hshows⟩ := hbase.batchWrite htop
    refine ⟨{ base, top := s.top.flushed }, by rw [step, hwrite]; rfl, data, hshows, ?_⟩
    show (PMMRCache.new s.top.getNextLeafIdx).Extends cr data data
    rw [htop.getNextLeafIdx_eq]
    exact PMMRCache.extends_new data
  | push => exact ⟨_, rfl, shows_push hfull⟩

end PMMRStack

/-- **Refinement**: with one layer over any hash file, every run answers as the list of leaves says;
    the top layer then reads as the MMR in memory, and so does the hash file once all is flushed. -/
theorem pmmrStack_refines_memMmr (cr : Crypto) (m : PMMR) (data : List Bytes) (hm : m.Holds cr data)
    (ops : List MmrOp) (hops : AbsGuarded leavesStep (fun data op => op.Allowed data) data ops) :
    ∃ s, (pmmrMachine cr).run (.push (.pmmr m)) ops =
        .ok ((absRun leavesStep data ops).1, s) ∧
      s.toIMMR.Agrees cr (.ofLeaves cr (absRun leavesStep data ops).2) ∧
      (∀ i, s.toIMMR.getLeaf cr i =
        (ofLeaves cr (absRun leavesStep data ops).2).getLeaf i) ∧
      ∃ m', s.base.flushAll cr s.top.firstLeaf s.top.leaves = .ok m' ∧
        (IMMR.pmmr m').Agrees cr (.ofLeaves cr (absRun leavesStep data ops).2) := by
  obtain ⟨s, hrun, hs⟩ := run_refines (M := pmmrMachine cr) PMMRStack.step_shows ops _ _
    (PMMRStack.shows_push (.pmmr hm)) hops
  have hfull := hs.toIMMR
  have hleaf := hs.getLeaf_eq
  obtain ⟨_, hbase, htop⟩ := hs
  obtain ⟨m', hflush, hm'⟩ := hbase.flushAll htop
  exact ⟨s, hrun, hfull.agrees, hleaf, m', hflush, IMMR.Shows.agrees (.pmmr hm')⟩

/-- Two layers over an empty hash file: the upper one is flushed, and a rewind then goes back behind
    the first leaf of the upper one. -/
theorem pmmrStack_refines_memMmr_rewound :
    ∃ s, (pmmrMachine emptyBlockCrypto).run (.push (.pmmr { hashFile := [], leafDB := fun _ => none }))
        [.add [1], .add [2], .push, .add [3], .flush, .rewind 1] =
          .ok ([some 0, some 1, none, some 2, none, none], s) ∧
      s.toIMMR.Agrees emptyBlockCrypto (.ofLeaves emptyBlockCrypto [[1]]) := by
  obtain ⟨s, hrun, hagrees, -⟩ := pmmrStack_refines_memMmr emptyBlockCrypto
    { hashFile := [], leafDB := fun _ => none } [] ⟨rfl, nofun⟩
    [.add [1], .add [2], .push, .add [3], .flush, .rewind 1]
    ⟨trivial, trivial, trivial, trivial, trivial, show 1 ≤ 3 by decide, trivial⟩
  exact ⟨s, hrun, hagrees⟩

end Defcoin.Mweb
