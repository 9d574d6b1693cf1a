import Defcoin.Mweb.CurveLaws
import Defcoin.Mweb.Flush

/-! # Undoing the last block in a fresh layer

  A reorganisation applies the undo data of a block in a new cache over the view that has the block,
  and flushes that cache. The view is then as it was before the block, unless the block was the first
  one: a cache without a best header is not flushed.
-/

namespace Defcoin.Mweb

open ByteCodec PostOrder CoinsView CoinsViewCache

/-! ### Observations -/

structure Observation where
  bestHeader : Option Header
  getUTXO : Hash → Except Error (Option UTXO)
  containsLeaf : Nat → Bool
  nextLeafIdx : Nat
  leaves : List (Option Leaf)
  numLeaves : Nat
  outputRoot : Except Error Hash
  leafsetRoot : Hash

def CoinsView.observe (cr : Crypto) (v : CoinsView) : Observation where
  bestHeader := v.getBestHeader
  getUTXO := v.getUTXO
  containsLeaf := PackedBits.contains v.getByte
  nextLeafIdx := v.getNextLeafIdx
  leaves := (List.range v.getNumLeaves).map (v.getLeaf cr)
  numLeaves := v.getNumLeaves
  outputRoot := v.outputRoot cr
  leafsetRoot := v.leafsetRoot cr

variable {cr : Crypto}

theorem CoinsView.Shows.observe_eq {v v' : CoinsView} {s : CoinsState} (h : v.Shows cr s)
    (h' : v'.Shows cr s) : v.observe cr = v'.observe cr := by
  have hleaves : ∀ {w : CoinsView}, w.Shows cr s → (List.range w.getNumLeaves).map (w.getLeaf cr) =
      (List.range s.leaves.length).map fun i => some (Leaf.create cr i (s.leaves.getD i [])) := by
    intro w hw
    rw [hw.mmr.size]
    refine List.map_congr_left fun i hi => ?_
    have hlt : i < s.leaves.length := List.mem_range.mp hi
    rw [hw.mmr.leaf i hlt, List.getD_eq_getElem?_getD, List.getElem?_eq_getElem hlt]
    rfl
  unfold observe
  congr 1
  · rw [h.header, h'.header]
  · funext id
    rw [h.utxo, h'.utxo]
  · rw [h.byte, h'.byte]
  · rw [h.next, h'.next]
  · rw [hleaves h, hleaves h']
  · rw [h.mmr.size, h'.mmr.size]
  · rw [h.outputRoot_eq, h'.outputRoot_eq]
  · rw [h.leafsetRoot_eq, h'.leafsetRoot_eq]

/-! ### Reachable stacks -/

/-- `CoinsViewDB::Open` in an empty directory. -/
def emptyDB : CoinsViewDB where
  header := none
  coinDB := fun _ => none
  leafSet := { nextLeafIdx := 0, bytes := fun _ => 0 }
  outputPMMR := { hashFile := [], leafDB := fun _ => none }

/-- The stacks that adding and dropping layers, applying blocks to the top layer and flushing it
    lead to. -/
inductive Reachable (cr : Crypto) : CoinsView → Prop where
  | empty : Reachable cr (.db emptyDB)
  | push {v : CoinsView} : Reachable cr v → Reachable cr (.cache v (CoinsViewCache.new v))
  | discard {base : CoinsView} {c : CoinsViewCache} : Reachable cr (.cache base c) → Reachable cr base
  | applyBlock {base v : CoinsView} {c : CoinsViewCache} {block : Block} {allow : Bool}
      {undo : BlockUndo} : Reachable cr (.cache base c) →
      c.applyBlock cr base block allow = .ok (undo, v) → Reachable cr v
  | flush {base base' : CoinsView} {c c' : CoinsViewCache} : Reachable cr (.cache base c) →
      c.flush cr base = .ok (base', c') → Reachable cr (.cache base' c')

theorem emptyDB_rep : (db emptyDB).Rep cr
    { header := none, utxos := fun _ => none, unspent := fun _ => false, leaves := [] } := by
  refine ⟨⟨⟨?_, ?_, ?_, ?_⟩, ?_, fun _ => ⟨rfl, fun _ => rfl⟩⟩, rfl, rfl, rfl, ?_, rfl, ?_⟩
  any_goals simp
  exact PackedBits.eq_pack fun i => by simp [emptyDB, PackedBits.contains, PackedBits.bit]

/-- Every layer of a reachable stack shows a state that its header commits to: one case for each
    operation. -/
theorem Reachable.rep {v : CoinsView} (h : Reachable cr v) : ∃ s, v.Rep cr s := by
  induction h with
  | empty => exact ⟨_, emptyDB_rep⟩
  | push _ ih =>
    obtain ⟨s, hs⟩ := ih
    exact ⟨s, hs.push⟩
  | discard _ ih =>
    obtain ⟨s, _, s₀, hs₀, _⟩ := ih
    exact ⟨s₀, hs₀⟩
  | applyBlock _ hok ih =>
    obtain ⟨s, hs⟩ := ih
    obtain ⟨s', _, _, hrep, _⟩ := CoinsViewCache.applyBlock_spec hs hok
    exact ⟨s', hrep⟩
  | @flush base base' c c' _ hok ih =>
    obtain ⟨s, hs⟩ := ih
    by_cases hheader : c.header = none
    · rw [CoinsViewCache.flush, if_pos (by simp [hheader])] at hok
      cases hok
      exact ⟨s, hs⟩
    · obtain ⟨_, hflush, _, hrep, _⟩ := CoinsViewCache.flush_spec hs hheader
      rw [hflush] at hok
      cases hok
      exact ⟨s, hrep⟩

/-! ### Undoing -/

/-- `UndoBlock` in a new cache over `v`, which is then flushed: the view `v` afterwards. -/
def undoInFreshLayer (cr : Crypto) (v : CoinsView) (undo : BlockUndo) : Except Error CoinsView := do
  let fresh ← (CoinsViewCache.new v).undoBlock cr v undo
  let (v', _) ← fresh.flush cr v
  pure v'

section
variable {base v : CoinsView} {c : CoinsViewCache} {block : Block} {allow : Bool} {undo : BlockUndo}
  {s : CoinsState}

section
variable (h : (cache base c).Rep cr s) (happly : c.applyBlock cr base block allow = .ok (undo, v))
include h happly

theorem exists_undone : ∃ s' fresh, v.Rep cr s' ∧ Applied cr s block allow undo s' ∧
    (new v).undoBlock cr v undo = .ok fresh ∧ fresh.Over cr v s' s ∧ fresh.header = c.header := by
  obtain ⟨s', _, _, hrep, happlied, _⟩ := applyBlock_spec h happly
  obtain ⟨fresh, hundo, hover⟩ :=
    (new_over hrep.shows).undoBlock hrep.shows h.wf happlied
  exact ⟨s', fresh, hrep, happlied, hundo, hover, hover.header.trans h.shows.header.symm⟩

theorem undoInFreshLayer_of_header (hheader : c.header ≠ none) :
    ∃ v', undoInFreshLayer cr v undo = .ok v' ∧ v'.Rep cr s := by
  obtain ⟨s', _, hrep, _, hundo, hover, hfresh⟩ := exists_undone h happly
  obtain ⟨v', hflush, hrep', _⟩ := flush_spec ⟨h.wf, s', hrep, hover⟩ (hfresh ▸ hheader)
  refine ⟨v', ?_, hrep'⟩
  simp only [undoInFreshLayer, hundo, bind, Except.bind, hflush]
  rfl

/-- Without a previous header, the flush of the undone layer leaves the view as the block left it. -/
theorem undoInFreshLayer_of_no_header (hheader : c.header = none) :
    undoInFreshLayer cr v undo = .ok v ∧ v.getBestHeader = some block.header := by
  obtain ⟨_, fresh, hrep, happlied, hundo, _, hfresh⟩ := exists_undone h happly
  refine ⟨?_, hrep.shows.header.trans happlied.header⟩
  have hflush : fresh.flush cr v = .ok (v, fresh) := by
    rw [flush, if_pos (by simp [hfresh, hheader])]
  simp only [undoInFreshLayer, hundo, bind, Except.bind, hflush]
  rfl

end

/-- Undoing a block in a fresh layer gives back the view before it exactly when that view had a best
    header. -/
theorem undoInFreshLayer_restores_iff (hreach : Reachable cr (.cache base c))
    (happly : c.applyBlock cr base block allow = .ok (undo, v)) :
    (undoInFreshLayer cr v undo).map (observe cr) = .ok ((cache base c).observe cr) ↔
      (cache base c).getBestHeader ≠ none := by
  obtain ⟨_, hrep⟩ := hreach.rep
  constructor
  · intro hrestored hnone
    obtain ⟨hundo, hheader⟩ := undoInFreshLayer_of_no_header hrep happly hnone
    rw [hundo] at hrestored
    have := congrArg Observation.bestHeader (Except.ok.inj hrestored)
    rw [observe, observe] at this
    simp only [hheader, hnone] at this
    cases this
  · intro hheader
    obtain ⟨_, hundo, hrep'⟩ := undoInFreshLayer_of_header hrep happly hheader
    rw [hundo]
    exact congrArg Except.ok (hrep'.shows.observe_eq hrep.shows)

end

/-! ### Blocks without inputs, outputs and kernels -/

/-- A block that changes nothing. -/
def emptyBlock (height : BitVec 31) : Block where
  header :=
    { height, outputRoot := BigInt.zero, kernelRoot := BigInt.zero
      leafsetRoot := emptyBlockCrypto.hash [], kernelOffset := BigInt.zero
      stealthOffset := BigInt.zero, outputMMRSize := 0, kernelMMRSize := 0 }
  body :=
    { inputs := [], outputs := [], kernels := [], inputs_size := by decide,
      outputs_size := by decide, outputs_wf := by simp }

def emptyCache : CoinsViewCache := CoinsViewCache.new (.db emptyDB)

/-! ### Blocks that create and spend coins -/

/-- 10 coins are pegged in, into two outputs. -/
def pegInBody : TxBody where
  inputs := []
  outputs := [11, 12].map numberOutput
  kernels := [numberKernel (some 10) [] 13]
  inputs_size := Nat.zero_le _
  outputs_size := by decide
  outputs_wf := numberOutput_wf _

/-- The first of them is spent, for another output and a peg-out of 5 coins. -/
def spendBody : TxBody where
  inputs := [numberInput 11]
  outputs := [20].map numberOutput
  kernels := [numberKernel none [⟨5, [0x51]⟩] 14]
  inputs_size := by decide
  outputs_size := by decide
  outputs_wf := numberOutput_wf _

def numberBlock (height : BitVec 31) (body : TxBody) (outputRoot leafsetRoot : Hash) (outputMMRSize : BitVec 64) :
    Block where
  header :=
    { height, outputRoot, kernelRoot := BigInt.zero, leafsetRoot, kernelOffset := BigInt.zero
      stealthOffset := BigInt.zero, outputMMRSize, kernelMMRSize := 1 }
  body

/-- The first block. -/
def pegInBlock : Block :=
  numberBlock 1 pegInBody (numberCrypto.hash (2 :: List.replicate 15 0 ++ [32, 11])) (numberCrypto.hash [192]) 2

/-- The second block. -/
def spendBlock : Block :=
  numberBlock 2 spendBody (numberCrypto.hash (4 :: List.replicate 7 0 ++ 2 :: List.replicate 15 0 ++ [32, 11]))
    (numberCrypto.hash [96]) 3

theorem blocks_applied : ∃ undo c,
    emptyCache.applyBlock numberCrypto (.db emptyDB) pegInBlock false = .ok (undo, .cache (.db emptyDB) c) ∧
      c.header = some pegInBlock.header ∧
      (cache (.db emptyDB) c).getUTXO ((numberOutput 11).getOutputID numberCrypto) =
        .ok (some ⟨1, 0, numberOutput 11⟩) ∧
      ∃ undo' v, c.applyBlock numberCrypto (.db emptyDB) spendBlock false = .ok (undo', v) ∧
        undo'.coinsSpent.length = 1 ∧ undo'.coinsAdded.length = 1 :=
  ⟨_, _, rfl, rfl, rfl, _, _, rfl, rfl, rfl⟩

/-- The first block is applied and undone, and its header and its coins stay. -/
theorem firstBlock_not_undone : Reachable numberCrypto (.cache (.db emptyDB) emptyCache) ∧
      ∃ undo v, emptyCache.applyBlock numberCrypto (.db emptyDB) pegInBlock false = .ok (undo, v) ∧
        (undoInFreshLayer numberCrypto v undo).map (observe numberCrypto) ≠
          .ok ((cache (.db emptyDB) emptyCache).observe numberCrypto) := by
  refine ⟨.push .empty, _, _, rfl, fun hrestored => ?_⟩
  have hheader := congrArg (fun r => r.map Observation.bestHeader) hrestored
  have : some pegInBlock.header = none := Except.ok.inj hheader
  cases this

/-- The second block is applied and undone: the coin that it spent is back, and its own is gone. -/
theorem secondBlock_undone : ∃ undo c undo' v,
    emptyCache.applyBlock numberCrypto (.db emptyDB) pegInBlock false = .ok (undo, .cache (.db emptyDB) c) ∧
      c.applyBlock numberCrypto (.db emptyDB) spendBlock false = .ok (undo', v) ∧
      undo'.coinsSpent.length = 1 ∧ undo'.coinsAdded.length = 1 ∧
      (undoInFreshLayer numberCrypto v undo').map (observe numberCrypto) =
        .ok ((cache (.db emptyDB) c).observe numberCrypto) := by
  obtain ⟨undo, c, hfirst, hheader, -, undo', v, hsecond, hspent, hadded⟩ := blocks_applied
  refine ⟨undo, c, undo', v, hfirst, hsecond, hspent, hadded, ?_⟩
  apply (undoInFreshLayer_restores_iff (.applyBlock (.push .empty) hfirst) hsecond).mpr
  rw [getBestHeader, hheader]
  exact Option.some_ne_none _

end Defcoin.Mweb
