import Defcoin.Consensus.BlockTree
import Defcoin.Relay.CompactBlock

/-! # The index of block headers

  `AddToBlockIndex` enters a header under its hash: it finds the parent, counts the height and lets
  `BuildSkip` set the skip pointer with the entries that are there already.
-/

namespace Defcoin

open Function Relay BlockMap CBlockHeader

/-! ### AddToBlockIndex -/

/-- The members of `BlockManager` that lookups and walks use; an entry is known by its hash. -/
structure BlockManager where
  m_block_index : List Uint256
  entries : BlockMap Uint256

namespace BlockManager

def empty : BlockManager := ⟨[], fun _ => none, fun _ => none, fun _ => 0, fun _ => 0, fun _ => 0⟩

end BlockManager

namespace BlockMap
variable (m : BlockMap Uint256)

/-- `CBlockIndex(block)` -/
def newEntry (hash : Uint256) (block : CBlockHeader) : BlockMap Uint256 where
  pprev := update m.pprev hash none
  pskip := update m.pskip hash none
  nHeight := update m.nHeight hash 0
  nVersion := update m.nVersion hash block.nVersion
  nTime := update m.nTime hash block.nTime.toNat

/-- `pprev` and `nHeight` of an entry whose parent was found. -/
def link (hash prev : Uint256) : BlockMap Uint256 :=
  { m with pprev := update m.pprev hash (some prev), nHeight := update m.nHeight hash (m.nHeight prev + 1) }

/-- `CBlockIndex::BuildSkip` -/
def buildSkip (hash : Uint256) : BlockMap Uint256 :=
  match m.pprev hash with
  | none => m
  | some prev => { m with pskip := update m.pskip hash (m.getAncestor prev (getSkipHeight (m.nHeight hash))) }

end BlockMap

namespace BlockManager
variable (H : CBlockHeader → Uint256)

/-- `BlockManager::AddToBlockIndex` -/
def addToBlockIndex (s : BlockManager) (block : CBlockHeader) : BlockManager :=
  if H block ∈ s.m_block_index then s
  else if block.hashPrevBlock ∈ H block :: s.m_block_index then
    ⟨H block :: s.m_block_index,
      ((s.entries.newEntry (H block) block).link (H block) block.hashPrevBlock).buildSkip (H block)⟩
  else ⟨H block :: s.m_block_index, s.entries.newEntry (H block) block⟩

def build (headers : List CBlockHeader) : BlockManager := headers.foldl (addToBlockIndex H) empty

end BlockManager

/-! ### Walks that do not see the new entry -/

namespace BlockMap
variable {ι : Type} {m m' : BlockMap ι}

/-- `m'` has the entries of `S` as `m` has them, and no pointer of theirs leaves `S`. -/
structure AgreeOn (S : ι → Prop) (m m' : BlockMap ι) : Prop where
  pprev : ∀ p, S p → m'.pprev p = m.pprev p
  pskip : ∀ p, S p → m'.pskip p = m.pskip p
  nHeight : ∀ p, S p → m'.nHeight p = m.nHeight p
  pprev_closed : ∀ p q, S p → m.pprev p = some q → S q
  pskip_closed : ∀ p q, S p → m.pskip p = some q → S q

/-- `m'` has all entries but one as `m` has them. -/
structure SameBut (hash : ι) (m m' : BlockMap ι) : Prop where
  pprev : ∀ p, p ≠ hash → m'.pprev p = m.pprev p
  pskip : ∀ p, p ≠ hash → m'.pskip p = m.pskip p
  nHeight : ∀ p, p ≠ hash → m'.nHeight p = m.nHeight p

theorem AgreeOn.ancestorWalk {S : ι → Prop} (h : AgreeOn S m m') (height fuel heightWalk : Nat) {p : ι}
    (hp : S p) : m'.ancestorWalk height fuel heightWalk p = m.ancestorWalk height fuel heightWalk p := by
  induction fuel generalizing heightWalk p with
  | zero => rfl
  | succ fuel ih =>
    rw [BlockMap.ancestorWalk, BlockMap.ancestorWalk, h.pprev p hp, h.pskip p hp]
    -- the two walks take the same pointer, to an entry of `S`
    have hbind : ∀ o w, (∀ q, o = some q → S q) →
        o.bind (m'.ancestorWalk height fuel w) = o.bind (m.ancestorWalk height fuel w) := by
      intro o w ho
      cases o with
      | none => rfl
      | some q => exact ih w (ho q rfl)
    dsimp only
    rw [hbind _ _ (fun q => h.pskip_closed p q hp), hbind _ _ (fun q => h.pprev_closed p q hp)]

theorem AgreeOn.getAncestor {S : ι → Prop} (h : AgreeOn S m m') {p : ι} (hp : S p) (height : Int) :
    m'.getAncestor p height = m.getAncestor p height := by
  rw [BlockMap.getAncestor, BlockMap.getAncestor, h.nHeight p hp, h.ancestorWalk _ _ _ hp]

/-- Following `pprev` a number of times. -/
def back (m : BlockMap ι) : Nat → ι → Option ι
  | 0, p => some p
  | n + 1, p => (m.pprev p).bind (back m n)

end BlockMap

namespace BlockMap.SkipTree
variable {ι : Type} {m : BlockMap ι}

theorem up_eq_back (t : m.SkipTree) (n : Nat) (p : ι) : t.forest.up n p = m.back n p := by
  induction n generalizing p with
  | zero => rfl
  | succ n ih =>
    rw [Forest.up, show t.forest.up n = m.back n from funext ih]
    rfl

theorem getAncestor_spec (t : m.SkipTree) (p : ι) (height : Int) :
    (0 ≤ height → height ≤ m.nHeight p →
      ∃ q, m.getAncestor p height = some q ∧ m.back (m.nHeight p - height.toNat) p = some q) ∧
    (height < 0 ∨ m.nHeight p < height → m.getAncestor p height = none) := by
  constructor
  · intro hpos hle
    obtain ⟨n, rfl⟩ := Int.eq_ofNat_of_zero_le hpos
    have hn : n ≤ t.forest.height p := Int.ofNat_le.mp hle
    obtain ⟨q, hq, _⟩ := Forest.exists_ancestor hn
    refine ⟨q, (t.getAncestor_eq p n).trans hq, ?_⟩
    rw [← t.up_eq_back, ← hq, Forest.ancestor, if_pos hn]
    rfl
  · intro hout
    unfold getAncestor
    rw [if_pos (by omega)]

end BlockMap.SkipTree

/-! ### Every index that is built -/

namespace BlockManager

/-- What `AddToBlockIndex` keeps true. -/
structure Built (s : BlockManager) : Prop extends s.entries.SkipTree where
  /-- Parents are known, and so are children. -/
  known : ∀ p q, s.entries.pprev p = some q → p ∈ s.m_block_index ∧ q ∈ s.m_block_index

namespace Built
variable {s : BlockManager} (hs : Built s)
include hs

theorem getAncestor_known {p q : Uint256} {height : Nat} (hp : p ∈ s.m_block_index)
    (hq : s.entries.getAncestor p height = some q) : q ∈ s.m_block_index := by
  have hbranch := (hs.toSkipTree.getAncestor_eq p height).symm.trans hq
  exact Forest.branch_rule (R := fun q p => p ∈ s.m_block_index → q ∈ s.m_block_index) (fun _ h => h)
    (fun _ _ _ hpq hqr hr => hpq (hqr hr)) (fun p q hpq _ => (hs.known p q hpq).2) hbranch hp

theorem pskip_known (p q : Uint256) (hq : s.entries.pskip p = some q) : q ∈ s.m_block_index := by
  obtain ⟨r, hr, hq⟩ := hs.buildSkip p q hq
  exact hs.getAncestor_known (hs.known p r hr).2 hq

section
variable {hash : Uint256} {m' : BlockMap Uint256} (hnew : hash ∉ s.m_block_index)
  (hsame : s.entries.SameBut hash m')
include hnew hsame

theorem agreeOn : s.entries.AgreeOn (· ∈ s.m_block_index) m' where
  pprev p hp := hsame.pprev p (ne_of_mem_of_not_mem hp hnew)
  pskip p hp := hsame.pskip p (ne_of_mem_of_not_mem hp hnew)
  nHeight p hp := hsame.nHeight p (ne_of_mem_of_not_mem hp hnew)
  pprev_closed p q _ h := (hs.known p q h).2
  pskip_closed p q _ := hs.pskip_known p q

theorem insert (hroot : m'.pprev hash = none → m'.nHeight hash = 0)
    (hchild : ∀ q, m'.pprev hash = some q → q ∈ s.m_block_index ∧ m'.nHeight hash = s.entries.nHeight q + 1)
    (hskip : m'.pskip hash = (m'.pprev hash).bind fun q => s.entries.getAncestor q (getSkipHeight (m'.nHeight hash))) :
    Built ⟨hash :: s.m_block_index, m'⟩ := by
  have hagree := hs.agreeOn hnew hsame
  -- the parent of any entry was known before
  have hparent : ∀ p q, m'.pprev p = some q → q ∈ s.m_block_index := by
    intro p q hq
    by_cases hp : p = hash
    · exact (hchild q (hp ▸ hq)).1
    · exact (hs.known p q (hsame.pprev p hp ▸ hq)).2
  refine ⟨⟨?_, ?_, ?_⟩, ?_⟩
  · intro p hp
    by_cases heq : p = hash
    · exact heq ▸ hroot (heq ▸ hp)
    · exact (hsame.nHeight p heq).trans (hs.height_genesis p (hsame.pprev p heq ▸ hp))
  · intro p q hq
    rw [hagree.nHeight q (hparent p q hq)]
    by_cases heq : p = hash
    · exact heq ▸ (hchild q (heq ▸ hq)).2
    · exact (hsame.nHeight p heq).trans (hs.height_child p q (hsame.pprev p heq ▸ hq))
  · intro p q hq
    have hold : ∃ r, m'.pprev p = some r ∧ s.entries.getAncestor r (getSkipHeight (m'.nHeight p)) = some q := by
      by_cases heq : p = hash
      · rw [heq, hskip] at hq
        rw [heq]
        exact Option.bind_eq_some_iff.mp hq
      · rw [hsame.pskip p heq] at hq
        rw [hsame.pprev p heq, hsame.nHeight p heq]
        exact hs.buildSkip p q hq
    obtain ⟨r, hr, hq⟩ := hold
    exact ⟨r, hr, (hagree.getAncestor (hparent p r hr) _).trans hq⟩
  · intro p q hq
    refine ⟨?_, List.mem_cons_of_mem _ (hparent p q hq)⟩
    by_cases heq : p = hash
    · exact heq ▸ List.mem_cons_self
    · exact List.mem_cons_of_mem _ (hs.known p q (hsame.pprev p heq ▸ hq)).1

end

theorem addToBlockIndex {H : CBlockHeader → Uint256} {block : CBlockHeader}
    (hself : H block ≠ block.hashPrevBlock) : Built (s.addToBlockIndex H block) := by
  unfold BlockManager.addToBlockIndex
  split_ifs with hdup hprev
  · exact hs
  · have hmem := (List.mem_cons.mp hprev).resolve_left (Ne.symm hself)
    have hlinked : s.entries.SameBut (H block)
        ((s.entries.newEntry (H block) block).link (H block) block.hashPrevBlock) := by
      constructor <;> intro p hp <;> simp [link, newEntry, hp]
    have hbuilt : ((s.entries.newEntry (H block) block).link (H block) block.hashPrevBlock).pprev (H block)
        = some block.hashPrevBlock := update_self ..
    have hsame : s.entries.SameBut (H block)
        (((s.entries.newEntry (H block) block).link (H block) block.hashPrevBlock).buildSkip (H block)) := by
      unfold buildSkip
      constructor <;> intro p hp <;> simp [link, newEntry, hp]
    unfold buildSkip at hsame ⊢
    rw [hbuilt] at hsame ⊢
    refine hs.insert hdup hsame ?_ ?_ ?_
    · intro h
      cases hbuilt.symm.trans h
    · intro q hq
      cases hbuilt.symm.trans hq
      refine ⟨hmem, ?_⟩
      simp [link, newEntry, Ne.symm hself]
    · simp only [hbuilt, update_self]
      exact (hs.agreeOn hdup hlinked).getAncestor hmem _
  · refine hs.insert hdup ?_ ?_ ?_ ?_
    · constructor <;> intro p hp <;> simp [newEntry, hp]
    · intro _
      exact update_self ..
    · intro q hq
      simp [newEntry] at hq
    · simp [newEntry]

end Built

theorem built_empty : Built empty where
  height_genesis _ _ := rfl
  height_child _ _ h := nomatch h
  buildSkip _ _ h := nomatch h
  known _ _ h := nomatch h

theorem built_build {H : CBlockHeader → Uint256} {headers : List CBlockHeader}
    (hself : ∀ b ∈ headers, H b ≠ b.hashPrevBlock) : Built (build H headers) := by
  refine List.foldlRecOn headers _ built_empty ?_
  intro s hs b hb
  exact hs.addToBlockIndex (hself b hb)

/-- **Skip pointers**: on every index that `AddToBlockIndex` builds, `GetAncestor` follows `pprev`
    from the entry's height to the given one, and refuses other heights. -/
theorem getAncestor_build (H : CBlockHeader → Uint256) (headers : List CBlockHeader)
    (hself : ∀ b ∈ headers, H b ≠ b.hashPrevBlock) (p : Uint256) (height : Int) :
    (0 ≤ height → height ≤ (build H headers).entries.nHeight p →
      ∃ q, (build H headers).entries.getAncestor p height = some q ∧
        (build H headers).entries.back ((build H headers).entries.nHeight p - height.toNat) p = some q) ∧
    (height < 0 ∨ (build H headers).entries.nHeight p < height →
      (build H headers).entries.getAncestor p height = none) :=
  (built_build hself).toSkipTree.getAncestor_spec p height

/-- Three headers in a row, named by their Merkle roots. -/
def threeHeaders : List CBlockHeader := [⟨1, 0, 1, 0, 0, 0⟩, ⟨1, 1, 2, 0, 0, 0⟩, ⟨1, 2, 3, 0, 0, 0⟩]

theorem getAncestor_build_three :
    (build hashMerkleRoot threeHeaders).entries.getAncestor 3 0 = some 1 ∧
      (build hashMerkleRoot threeHeaders).entries.back
        ((build hashMerkleRoot threeHeaders).entries.nHeight 3 - Int.toNat 0) 3 = some 1 := by
  have hfirst : (build hashMerkleRoot threeHeaders).entries.getAncestor 3 0 = some 1 := by decide +kernel
  obtain ⟨q, hq, hback⟩ := (getAncestor_build hashMerkleRoot threeHeaders (by decide) 3 0).1 (by decide)
    (by decide +kernel)
  cases hfirst.symm.trans hq
  exact ⟨hfirst, hback⟩

end BlockManager
end Defcoin
