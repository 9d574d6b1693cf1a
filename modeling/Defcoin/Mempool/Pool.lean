import Defcoin.Framework.Closure
import Defcoin.Mempool.Entry

/-! # The memory pool (txmempool.cpp)

  Entries are known by their hashes, and sets of entries are ordered by them. What the pool keeps
  for fee estimation, for relay and to measure its memory is left out.
-/

namespace Defcoin.Mempool

/-- `CTxMemPool` -/
structure CTxMemPool where
  mapTx : AList (fun _ : Uint256 => CTxMemPoolEntry)
  /-- The pool transaction that spends an output. -/
  mapNextTx : OutputIndex → Option Uint256
  /-- The pool transaction that creates an extension block output. -/
  mapTxOutputs_MWEB : Mweb.Hash → Option Uint256
  /-- The fee deltas; 0 where there is none. -/
  mapDeltas : Uint256 → Int
  totalTxSize : Int

/-- `setEntries::insert` -/
def insertEntry (hash : Uint256) (set : List Uint256) : List Uint256 :=
  OrderedSet.insert Uint256.memcmpKey hash set

namespace CTxMemPool

def empty : CTxMemPool where
  mapTx := ∅
  mapNextTx := fun _ => none
  mapTxOutputs_MWEB := fun _ => none
  mapDeltas := fun _ => 0
  totalTxSize := 0

section
variable (p : CTxMemPool) (hash : Uint256)

/-- `mapTx.find` -/
def entry : Option CTxMemPoolEntry := p.mapTx.lookup hash

/-- `exists` -/
def contains : Bool := (p.entry hash).isSome

def size : Nat := p.mapTx.keys.length

variable (f : CTxMemPoolEntry → Except Fault CTxMemPoolEntry)

/-- `mapTx.modify` -/
def modify (hash : Uint256) :
    Except Fault CTxMemPool :=
  match p.entry hash with
  | none => .error (.undefinedBehavior "mapTx.modify")
  | some e => (f e).map fun e => { p with mapTx := p.mapTx.insert hash e }

/-- `mapTx.modify` of each entry of a set. -/
def modifyAll (hashes : List Uint256) : Except Fault CTxMemPool :=
  hashes.foldlM (fun p hash => p.modify f hash) p

/-! ### Links -/

/-- `GetMemPoolParentsConst` -/
def parents : List Uint256 :=
  ((p.entry hash).map CTxMemPoolEntry.m_parents).getD []

/-- `GetMemPoolChildrenConst` -/
def children : List Uint256 :=
  ((p.entry hash).map CTxMemPoolEntry.m_children).getD []

variable (add : Bool)

def link (hash : Uint256) (set : List Uint256) : List Uint256 :=
  if add then insertEntry hash set else set.filter (· ≠ hash)

/-- `UpdateChild` -/
def updateChild (child : Uint256) (p : CTxMemPool) (hash : Uint256) :
    Except Fault CTxMemPool :=
  p.modify (fun e => .ok { e with m_children := link add child e.m_children }) hash

/-- `UpdateParent` -/
def updateParent (parent : Uint256) (p : CTxMemPool) (hash : Uint256) :
    Except Fault CTxMemPool :=
  p.modify (fun e => .ok { e with m_parents := link add parent e.m_parents }) hash

/-- `CalculateMemPoolAncestors` without limits, for an entry of the pool. -/
def calculateMemPoolAncestors : List Uint256 :=
  OrderedSet.closure Uint256.memcmpKey p.parents p.size (p.parents hash) []

/-- `CalculateDescendants` -/
def calculateDescendants (setDescendants : List Uint256) :
    List Uint256 :=
  OrderedSet.closure Uint256.memcmpKey p.children p.size
    (if hash ∈ setDescendants then [] else [hash]) setDescendants

/-- `CalculateDescendants` of several entries into one set. -/
def calculateAllDescendants (hashes : List Uint256) : List Uint256 :=
  hashes.foldl (fun set hash => p.calculateDescendants hash set) []

/-! ### Totals -/

def own : Totals := ((p.entry hash).map CTxMemPoolEntry.own).getD 0

/-- The same, for the totals over descendants. -/
def ownDescendant : DescendantTotals := fun q => p.own hash q.1

/-- `UpdateAncestorsOf` -/
def updateAncestorsOf (p : CTxMemPool) (hash : Uint256) (setAncestors : List Uint256) :
    Except Fault CTxMemPool := do
  let p ← (p.parents hash).foldlM (updateChild add hash) p
  let updateCount : Int := if add then 1 else -1
  let modify := updateCount • p.ownDescendant hash
  p.modifyAll (·.updateDescendantState modify) setAncestors

/-- `UpdateEntryForAncestors` -/
def updateEntryForAncestors (setAncestors : List Uint256) :
    Except Fault CTxMemPool :=
  p.modify (·.updateAncestorState (setAncestors.map p.own).sum) hash

/-! ### Adding -/

/-- The spends of the inputs, entered where there is none yet. -/
def insertSpends (inputs : List OutputIndex) (map : OutputIndex → Option Uint256) :
    OutputIndex → Option Uint256 := fun index =>
  match map index with
  | some spender => some spender
  | none => if index ∈ inputs then some hash else none

def insertOutputs (ids : List Mweb.Hash) (map : Mweb.Hash → Option Uint256) :
    Mweb.Hash → Option Uint256 := fun id =>
  match map id with
  | some creator => some creator
  | none => if id ∈ ids then some hash else none

def parentOf : OutputIndex → Option Uint256
  | .outpoint prevout => some prevout.hash
  | .mweb id => p.mapTxOutputs_MWEB id

/-- `setParentTransactions` of `addUnchecked` -/
def setParentTransactions (tx : CTransaction) : List Uint256 :=
  ((getInputs tx).filterMap p.parentOf).foldl (fun set hash => insertEntry hash set) []

/-- The entry with the fee delta that waits for it. -/
def prioritised (e : CTxMemPoolEntry) : CTxMemPoolEntry :=
  let delta := p.mapDeltas e.tx.hash
  if delta ≠ 0 then e.updateFeeDelta delta else e

variable (cr : Mweb.Crypto)

/-- The part of `addUnchecked` that enters the transaction into the maps. -/
def enter (p : CTxMemPool) (e : CTxMemPoolEntry) : CTxMemPool :=
  { p with
    mapTx := if p.contains e.tx.hash then p.mapTx else p.mapTx.insert e.tx.hash (p.prioritised e)
    mapNextTx := insertSpends e.tx.hash (getInputs e.tx) p.mapNextTx
    mapTxOutputs_MWEB := insertOutputs e.tx.hash (getOutputIDs cr e.tx) p.mapTxOutputs_MWEB }

/-- `addUnchecked` -/
def addUnchecked (p : CTxMemPool) (e : CTxMemPoolEntry) (setAncestors : List Uint256) :
    Except Fault CTxMemPool := do
  let hash := e.tx.hash
  let entered := p.enter cr e
  -- the parents are looked up before the outputs are entered
  let parents := (p.setParentTransactions e.tx).filter fun h => entered.contains h
  let p ← parents.foldlM (fun p parent => updateParent true parent p hash) entered
  let p ← updateAncestorsOf true p hash setAncestors
  let p ← updateEntryForAncestors p hash setAncestors
  .ok { p with totalTxSize := p.totalTxSize + e.txSize }

/-! ### Removing -/

def eraseEntry (p : CTxMemPool) (hash : Uint256) (e : CTxMemPoolEntry) : CTxMemPool :=
  { p with
    mapTx := p.mapTx.erase hash
    mapNextTx := fun index => if index ∈ getInputs e.tx then none else p.mapNextTx index
    mapTxOutputs_MWEB := fun id =>
      if id ∈ getOutputIDs cr e.tx then none else p.mapTxOutputs_MWEB id
    totalTxSize := p.totalTxSize - e.txSize }

/-- `removeUnchecked` -/
def removeUnchecked (cr : Mweb.Crypto) (p : CTxMemPool) (hash : Uint256) : Except Fault CTxMemPool :=
  match p.entry hash with
  | none => .error (.undefinedBehavior "removeUnchecked")
  | some e => .ok (p.eraseEntry cr hash e)

/-- `UpdateChildrenForRemoval` -/
def updateChildrenForRemoval : Except Fault CTxMemPool :=
  (p.children hash).foldlM (updateParent false hash) p

/-- The first loop of `UpdateForRemoveFromMempool`, for one entry: the descendants lose an
    ancestor. -/
def updateDescendantsForRemoval : Except Fault CTxMemPool :=
  p.modifyAll (·.updateAncestorState (-p.own hash))
    ((p.calculateDescendants hash []).filter (· ≠ hash))

/-- The first loop of `UpdateForRemoveFromMempool`, if it is wanted. -/
def updateDescendantsForRemovals (entriesToRemove : List Uint256)
    (updateDescendants : Bool) : Except Fault CTxMemPool :=
  if updateDescendants then entriesToRemove.foldlM updateDescendantsForRemoval p else .ok p

/-- The second loop of `UpdateForRemoveFromMempool`, for one entry: the ancestors lose a
    descendant. -/
def updateAncestorsForRemoval : Except Fault CTxMemPool :=
  updateAncestorsOf false p hash (p.calculateMemPoolAncestors hash)

/-- `UpdateForRemoveFromMempool` -/
def updateForRemoveFromMempool (entriesToRemove : List Uint256)
    (updateDescendants : Bool) : Except Fault CTxMemPool := do
  let p ← p.updateDescendantsForRemovals entriesToRemove updateDescendants
  let p ← entriesToRemove.foldlM updateAncestorsForRemoval p
  entriesToRemove.foldlM updateChildrenForRemoval p

/-- `RemoveStaged` -/
def removeStaged (p : CTxMemPool) (stage : List Uint256) (updateDescendants : Bool) :
    Except Fault CTxMemPool := do
  let p ← p.updateForRemoveFromMempool stage updateDescendants
  stage.foldlM (removeUnchecked cr) p

/-- The entries that `removeRecursive` starts from. -/
def recursiveRoots (p : CTxMemPool) (origTx : CTransaction) : List Uint256 :=
  if p.contains origTx.hash then [origTx.hash]
  else ((getOutputs cr origTx).filterMap p.mapNextTx).foldl (fun set hash => insertEntry hash set) []

/-- `removeRecursive` -/
def removeRecursive (p : CTxMemPool) (origTx : CTransaction) : Except Fault CTxMemPool :=
  let roots := p.recursiveRoots cr origTx
  if roots.all fun hash => p.contains hash then
    p.removeStaged cr (p.calculateAllDescendants roots) false
  else .error (.assertion "nextit != mapTx.end()")

/-- `ClearPrioritisation` -/
def clearPrioritisation : CTxMemPool :=
  { p with mapDeltas := Function.update p.mapDeltas hash 0 }

/-- `removeConflicts`, for one input. -/
def removeConflict (tx : CTransaction) (p : CTxMemPool) (input : OutputIndex) :
    Except Fault CTxMemPool :=
  match p.mapNextTx input with
  | none => .ok p
  | some spender =>
    match p.entry spender with
    | none => .error (.undefinedBehavior "*it->second")
    | some conflict =>
      if spender = tx.hash then .ok p
      else (p.clearPrioritisation spender).removeRecursive cr conflict.tx

/-- `removeConflicts` -/
def removeConflicts (p : CTxMemPool) (tx : CTransaction) : Except Fault CTxMemPool :=
  (getInputs tx).foldlM (removeConflict cr tx) p

def removeIncluded (p : CTxMemPool) (hash : Uint256) : Except Fault CTxMemPool :=
  if p.contains hash then p.removeStaged cr [hash] true else .ok p

/-- `removeForBlock`, for one transaction. -/
def removeForBlockTx (p : CTxMemPool) (tx : CTransaction) : Except Fault CTxMemPool := do
  let p ← p.removeIncluded cr tx.hash
  let p ← p.removeConflicts cr tx
  .ok (p.clearPrioritisation tx.hash)

/-- The pool transactions that have a kernel in common with the block. -/
def kernelMatches (p : CTxMemPool) (block_kernels : List Mweb.Hash) :
    List CTransaction :=
  (p.mapTx.entries.map fun e => e.2.tx).filter fun tx =>
    (getKernelIDs cr tx).any fun id => decide (id ∈ block_kernels)

/-- `removeForBlock`, with the kernels of the extension block if there is one. -/
def removeForBlock (p : CTxMemPool) (vtx : List CTransaction)
    (block_kernels : Option (List Mweb.Hash)) : Except Fault CTxMemPool :=
  let matched := (block_kernels.map fun kernels => p.kernelMatches cr kernels).getD []
  (vtx ++ matched).foldlM (removeForBlockTx cr) p

/-- `PrioritiseTransaction` -/
def prioritiseTransaction (nFeeDelta : Int) :
    Except Fault CTxMemPool :=
  let delta := p.mapDeltas hash + nFeeDelta
  let p := { p with mapDeltas := Function.update p.mapDeltas hash delta }
  if p.contains hash then do
    let p ← p.modify (fun e => .ok (e.updateFeeDelta delta)) hash
    let p ← p.modifyAll (·.updateDescendantState fun q => CTxMemPoolEntry.feeChange nFeeDelta q.1)
      (p.calculateMemPoolAncestors hash)
    p.modifyAll (·.updateAncestorState (CTxMemPoolEntry.feeChange nFeeDelta))
      ((p.calculateDescendants hash []).filter (· ≠ hash))
  else .ok p

/-! ### After a reorganisation -/

/-- `cacheMap` -/
abbrev CacheMap := Uint256 → Option (List Uint256)

/-- The traversal of `UpdateForDescendants` -/
def descendantsFrom (cachedDescendants : CacheMap) : List Uint256 :=
  OrderedSet.cachedClosure Uint256.memcmpKey p.children cachedDescendants p.size (p.children hash) []

end

/-- `cachedDescendants[updateIt].insert`, for each descendant. -/
def remember (cachedDescendants : CacheMap) (hash : Uint256) (counted : List Uint256) : CacheMap :=
  if counted = [] then cachedDescendants
  else Function.update cachedDescendants hash
    (some (counted.foldl (fun set h => insertEntry h set) ((cachedDescendants hash).getD [])))

/-- `UpdateForDescendants` -/
def updateForDescendants (setExclude : List Uint256) (p : CTxMemPool) (cachedDescendants : CacheMap)
    (hash : Uint256) : Except Fault (CTxMemPool × CacheMap) := do
  let counted := (p.descendantsFrom hash cachedDescendants).filter (· ∉ setExclude)
  let modify := (counted.map p.ownDescendant).sum
  let p ← p.modifyAll (·.updateAncestorState (p.own hash)) counted
  let p ← p.modify (·.updateDescendantState modify) hash
  .ok (p, remember cachedDescendants hash counted)

def linkChild (hash : Uint256) (p : CTxMemPool) (child : Uint256) : Except Fault CTxMemPool := do
  let p ← p.updateChild true child hash
  p.updateParent true hash child

variable (cr : Mweb.Crypto) (setAlreadyIncluded : List Uint256)

/-- `UpdateTransactionsFromBlock` links the children of an entry, once each, unless they are in the
    block. -/
def linkChildren (p : CTxMemPool)
    (e : CTxMemPoolEntry) : Except Fault CTxMemPool :=
  let spenders := (getOutputs cr e.tx).filterMap p.mapNextTx
  if spenders.all fun h => p.contains h then
    (spenders.dedup.filter (· ∉ setAlreadyIncluded)).foldlM (linkChild e.tx.hash) p
  else .error (.assertion "childIter != mapTx.end()")

/-- `UpdateTransactionsFromBlock`, for one transaction. -/
def updateTransactionFromBlock (s : CTxMemPool × CacheMap) (hash : Uint256) : Except Fault (CTxMemPool × CacheMap) :=
  match s.1.entry hash with
  | none => .ok s
  | some e => do
    let p ← s.1.linkChildren cr setAlreadyIncluded e
    updateForDescendants setAlreadyIncluded p s.2 hash

/-- `UpdateTransactionsFromBlock` -/
def updateTransactionsFromBlock (p : CTxMemPool) (vHashesToUpdate : List Uint256) :
    Except Fault CTxMemPool :=
  (vHashesToUpdate.reverse.foldlM (updateTransactionFromBlock cr vHashesToUpdate) (p, fun _ => none)).map
    Prod.fst

end CTxMemPool

end Defcoin.Mempool
