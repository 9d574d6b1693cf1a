import Mathlib.Data.Fintype.Prod
import Defcoin.Primitives

/-! # The address manager

  `CAddrMan`: known peers, each in up to eight slots of the new table or in one slot of the tried
  table. Maps from ids and from addresses, a random order, reference counts and two counters go with
  the tables.

  Buckets and classifications are functions of the address here. Random draws and clock readings are
  arguments.
-/

namespace Defcoin.Addrman

/-! ### Addresses -/

/-- `CNetAddr`: an address without a port. -/
structure CNetAddr where
  m_net : Nat
  m_addr : List UInt8
deriving DecidableEq

/-- `CService` -/
structure CService extends CNetAddr where
  port : Nat
deriving DecidableEq

/-- `CAddress` -/
structure CAddress extends CService where
  nTime : Nat
  nServices : UInt64
deriving DecidableEq

/-- `CAddrInfo`; a position that was never set is the largest there is. -/
structure CAddrInfo extends CAddress where
  nLastTry : Int
  nLastCountAttempt : Int
  source : CNetAddr
  nLastSuccess : Int
  nAttempts : Nat
  nRefCount : Int
  fInTried : Bool
  nRandomPos : Nat
deriving DecidableEq

/-- `CAddrInfo(addrIn, addrSource)` -/
def CAddrInfo.ofAddress (addrIn : CAddress) (addrSource : CNetAddr) : CAddrInfo :=
  { addrIn with
    nLastTry := 0, nLastCountAttempt := 0, source := addrSource, nLastSuccess := 0, nAttempts := 0,
    nRefCount := 0, fInTried := false, nRandomPos := 2 ^ 32 - 1 }

/-- `CNetAddr()` -/
def CNetAddr.default : CNetAddr := { m_net := 2, m_addr := List.replicate 16 0 }

/-- `CAddrInfo()` -/
def CAddrInfo.default : CAddrInfo :=
  .ofAddress { CNetAddr.default with port := 0, nTime := 100000000, nServices := 0 } CNetAddr.default

/-- Conversion to `uint32_t`. -/
def toUint32 (n : Int) : Nat := (n % 2 ^ 32).toNat

/-- `IsTerrible` -/
def CAddrInfo.isTerrible (info : CAddrInfo) (nNow : Int) : Bool :=
  if info.nLastTry ≠ 0 ∧ info.nLastTry ≥ nNow - 60 then false
  else if (info.nTime : Int) > nNow + 10 * 60 then true
  else if info.nTime = 0 ∨ nNow - info.nTime > 30 * 24 * 60 * 60 then true
  else if info.nLastSuccess = 0 ∧ info.nAttempts ≥ 3 then true
  else if nNow - info.nLastSuccess > 7 * 24 * 60 * 60 ∧ info.nAttempts ≥ 10 then true
  else false

/-! ### Tables -/

def ADDRMAN_TRIED_BUCKET_COUNT : Nat := 256
def ADDRMAN_NEW_BUCKET_COUNT : Nat := 1024
def ADDRMAN_BUCKET_SIZE : Nat := 64
def ADDRMAN_NEW_BUCKETS_PER_ADDRESS : Int := 8
def ADDRMAN_SET_TRIED_COLLISION_SIZE : Nat := 10
def ADDRMAN_REPLACEMENT_HOURS : Int := 4
def ADDRMAN_TEST_WINDOW : Int := 40 * 60

abbrev TriedBucket := Fin ADDRMAN_TRIED_BUCKET_COUNT
abbrev NewBucket := Fin ADDRMAN_NEW_BUCKET_COUNT
abbrev BucketPosition := Fin ADDRMAN_BUCKET_SIZE

/-- The functions of an address, for a fixed key and a fixed map of autonomous systems. -/
structure Hashes where
  getTriedBucket : CService → TriedBucket
  getNewBucket : CNetAddr → CNetAddr → NewBucket
  getBucketPosition : CService → Bool → Nat → BucketPosition
  isRoutable : CNetAddr → Bool
  isValid : CNetAddr → Bool

def Hashes.triedSlot (h : Hashes) (addr : CService) : TriedBucket × BucketPosition :=
  let bucket := h.getTriedBucket addr
  (bucket, h.getBucketPosition addr false bucket)

def Hashes.slotIn (h : Hashes) (addr : CService) (bucket : NewBucket) : NewBucket × BucketPosition :=
  (bucket, h.getBucketPosition addr true bucket)

/-- The slot of the new table where an address belongs, given its source. -/
def Hashes.newSlot (h : Hashes) (addr : CService) (source : CNetAddr) : NewBucket × BucketPosition :=
  h.slotIn addr (h.getNewBucket addr.toCNetAddr source)

/-- `CAddrMan`; an empty slot holds -1. -/
structure CAddrMan where
  nIdCount : Int
  mapInfo : AList fun _ : Int => CAddrInfo
  mapAddr : AList fun _ : CNetAddr => Int
  vRandom : List Int
  nTried : Int
  vvTried : TriedBucket × BucketPosition → Int
  nNew : Int
  vvNew : NewBucket × BucketPosition → Int
  nLastGood : Int
  m_tried_collisions : List Int

namespace CAddrMan

/-- `CAddrMan()` -/
def new : CAddrMan where
  nIdCount := 0
  mapInfo := ∅
  mapAddr := ∅
  vRandom := []
  nTried := 0
  vvTried _ := -1
  nNew := 0
  vvNew _ := -1
  nLastGood := 1
  m_tried_collisions := []

/-- A failed assertion stops the program. -/
def assert (p : Prop) [Decidable p] (expr : String) : Except Fault Unit :=
  if p then .ok () else .error (.assertion expr)

section
variable (s : CAddrMan)

/-- An entry that an assertion says to be there. -/
def infoOf (nId : Int) : Except Fault CAddrInfo :=
  match s.mapInfo.lookup nId with
  | some info => .ok info
  | none => .error (.assertion "mapInfo.count(nId) == 1")

/-- `mapInfo[nId]`, which makes an entry if there is none. -/
def infoAt (nId : Int) : CAddrInfo × CAddrMan :=
  match s.mapInfo.lookup nId with
  | some info => (info, s)
  | none => (.default, { s with mapInfo := s.mapInfo.insert nId .default })

def setInfo (nId : Int) (info : CAddrInfo) : CAddrMan :=
  { s with mapInfo := s.mapInfo.insert nId info }

/-- `Find` -/
def find (addr : CNetAddr) : Option (Int × CAddrInfo) :=
  (s.mapAddr.lookup addr).bind fun nId => (s.mapInfo.lookup nId).map fun info => (nId, info)

/-- `Create` -/
def create (addr : CAddress) (addrSource : CNetAddr) : Int × CAddrMan :=
  let nId := s.nIdCount
  (nId, { s with
    nIdCount := s.nIdCount + 1,
    mapInfo := s.mapInfo.insert nId
      { CAddrInfo.ofAddress addr addrSource with nRandomPos := s.vRandom.length },
    mapAddr := s.mapAddr.insert addr.toCNetAddr nId,
    vRandom := s.vRandom ++ [nId] })

/-- `SwapRandom` -/
def swapRandom (nRndPos1 nRndPos2 : Nat) : Except Fault CAddrMan :=
  if nRndPos1 = nRndPos2 then .ok s
  else match s.vRandom[nRndPos1]?, s.vRandom[nRndPos2]? with
    | some nId1, some nId2 => do
      let info1 ← s.infoOf nId1
      let info2 ← s.infoOf nId2
      .ok { s with
        mapInfo := (s.mapInfo.insert nId1 { info1 with nRandomPos := nRndPos2 }).insert nId2
          { info2 with nRandomPos := nRndPos1 },
        vRandom := (s.vRandom.set nRndPos1 nId2).set nRndPos2 nId1 }
    | _, _ => .error (.assertion "nRndPos1 < vRandom.size() && nRndPos2 < vRandom.size()")

/-- The end of `Delete` and of `Remove_`: an entry leaves the order and the maps. -/
def unlist (nId : Int) (info : CAddrInfo) : Except Fault CAddrMan := do
  let s ← s.swapRandom info.nRandomPos (s.vRandom.length - 1)
  .ok { s with
    vRandom := s.vRandom.dropLast, mapAddr := s.mapAddr.erase info.toCNetAddr,
    mapInfo := s.mapInfo.erase nId }

/-- `Delete` -/
def delete (nId : Int) : Except Fault CAddrMan := do
  let info ← s.infoOf nId
  assert (info.fInTried = false) "!info.fInTried"
  assert (info.nRefCount = 0) "info.nRefCount == 0"
  let s ← s.unlist nId info
  .ok { s with nNew := s.nNew - 1 }

/-- A slot of the new table becomes empty, and its entry has one reference less. -/
def takeSlot (nId : Int) (info : CAddrInfo) (slot : NewBucket × BucketPosition) : CAddrMan :=
  { s.setInfo nId { info with nRefCount := info.nRefCount - 1 } with
    vvNew := Function.update s.vvNew slot (-1) }

/-- A slot of the new table is given to an entry, which then has `nRefCount` references. -/
def giveSlot (nId : Int) (info : CAddrInfo) (nRefCount : Int)
    (slot : NewBucket × BucketPosition) : CAddrMan :=
  { s.setInfo nId { info with nRefCount } with vvNew := Function.update s.vvNew slot nId }

/-- `ClearNew` -/
def clearNew (slot : NewBucket × BucketPosition) : Except Fault CAddrMan :=
  if s.vvNew slot = -1 then .ok s
  else do
    let nIdDelete := s.vvNew slot
    let (infoDelete, s) := s.infoAt nIdDelete
    assert (infoDelete.nRefCount > 0) "infoDelete.nRefCount > 0"
    let s := s.takeSlot nIdDelete infoDelete slot
    if infoDelete.nRefCount - 1 = 0 then s.delete nIdDelete else .ok s

/-- All slots of a table, in the order of the loops. -/
def allSlots (buckets size : Nat) : List (Fin buckets × Fin size) :=
  (List.finRange buckets).flatMap fun bucket => (List.finRange size).map fun pos => (bucket, pos)

variable (h : Hashes)

/-- The slot that `Remove_` empties: the entry's own, or else the first that holds it. -/
def triedRef (s : CAddrMan) (nId : Int) (info : CAddrInfo) :
    Option (TriedBucket × BucketPosition) :=
  if s.vvTried (h.triedSlot info.toCService) = nId then some (h.triedSlot info.toCService)
  else (allSlots _ _).find? fun slot => s.vvTried slot = nId

/-- A slot of the tried table becomes empty, and its entry is not in that table any more. -/
def leaveTried (nId : Int) (info : CAddrInfo) (slot : TriedBucket × BucketPosition) : CAddrMan :=
  { s.setInfo nId { info with fInTried := false } with
    vvTried := Function.update s.vvTried slot (-1), nTried := s.nTried - 1 }

def enterTried (nId : Int) (info : CAddrInfo) (slot : TriedBucket × BucketPosition) : CAddrMan :=
  { s.setInfo nId { info with fInTried := true } with
    vvTried := Function.update s.vvTried slot nId, nTried := s.nTried + 1 }

/-- `m_tried_collisions.erase(nId)` -/
def eraseCollision (nId : Int) : CAddrMan :=
  { s with m_tried_collisions := s.m_tried_collisions.erase nId }

section
variable (s : CAddrMan)

section
variable (nId : Int)

/-- `Remove_` for an entry of the tried table. -/
def removeTried (info : CAddrInfo) : Except Fault CAddrMan :=
  match s.triedRef h nId info with
  | none => .error (.assertion "removed_tried_ref")
  | some slot => do
    let s := s.leaveTried nId info slot
    assert (info.nRefCount = 0) "info.nRefCount == 0"
    (s.eraseCollision nId).unlist nId { info with fInTried := false }

/-- `Remove_` for an entry of the new table. -/
def removeNew : Except Fault CAddrMan := do
  let new_refs := (allSlots _ _).filter fun slot => s.vvNew slot = nId
  let s ← new_refs.foldlM clearNew s
  let s := s.eraseCollision nId
  match s.mapInfo.lookup nId with
  | none => .ok s
  | some info => do
    assert (info.nRefCount = 0) "mapInfo[nId].nRefCount == 0"
    s.delete nId

/-- `Remove_` -/
def remove_ : Except Fault (Bool × CAddrMan) :=
  match s.mapInfo.lookup nId with
  | none => .ok (false, s)
  | some info =>
    if info.fInTried then (s.removeTried h nId info).map (true, ·) else (s.removeNew nId).map (true, ·)

/-- `MakeTried` takes an entry out of a bucket of the new table. -/
def leaveNew (s : CAddrMan) (bucket : NewBucket) : Except Fault CAddrMan := do
  let info ← s.infoOf nId
  let slot := h.slotIn info.toCService bucket
  if s.vvNew slot = nId then .ok (s.takeSlot nId info slot) else .ok s

/-- `MakeTried` moves what is in the way back to the new table. -/
def evict (slot : TriedBucket × BucketPosition) : Except Fault CAddrMan :=
  if s.vvTried slot = -1 then .ok s
  else do
    let nIdEvict := s.vvTried slot
    let infoOld ← s.infoOf nIdEvict
    let s := s.leaveTried nIdEvict infoOld slot
    let newSlot := h.newSlot infoOld.toCService infoOld.source
    let s ← s.clearNew newSlot
    assert (s.vvNew newSlot = -1) "vvNew[nUBucket][nUBucketPos] == -1"
    let infoOld ← s.infoOf nIdEvict
    .ok { s.giveSlot nIdEvict infoOld 1 newSlot with nNew := s.nNew + 1 }

/-- `MakeTried` -/
def makeTried : Except Fault CAddrMan := do
  let s ← (List.finRange _).foldlM (leaveNew h nId) s
  let s := { s with nNew := s.nNew - 1 }
  let info ← s.infoOf nId
  assert (info.nRefCount = 0) "info.nRefCount == 0"
  let slot := h.triedSlot info.toCService
  let s ← s.evict h slot
  assert (s.vvTried slot = -1) "vvTried[nKBucket][nKBucketPos] == -1"
  let info ← s.infoOf nId
  .ok (s.enterTried nId info slot)

/-! ### The operations -/

/-- Some bucket of the new table holds the entry; the search begins at a random one. -/
def inNewBucket (addr : CService) (nRnd : NewBucket) : Bool :=
  (List.finRange ADDRMAN_NEW_BUCKET_COUNT).any fun n => s.vvNew (h.slotIn addr (n + nRnd)) = nId

/-- `m_tried_collisions.insert(nId)`, while there is room. -/
def addCollision : CAddrMan :=
  if s.m_tried_collisions.length < ADDRMAN_SET_TRIED_COLLISION_SIZE ∧ nId ∉ s.m_tried_collisions then
    { s with m_tried_collisions := s.m_tried_collisions.orderedInsert (· ≤ ·) nId }
  else s

/-- How `Good_` updates an entry. -/
def markGood (nTime : Int) (info : CAddrInfo) : CAddrInfo :=
  { info with nLastSuccess := nTime, nLastTry := nTime, nAttempts := 0 }

/-- The end of `Good_`: an entry of the new table is moved, or waits for the one in its way. -/
def promote (info : CAddrInfo) (test_before_evict : Bool)
    (nRnd : NewBucket) : Except Fault CAddrMan :=
  if info.fInTried then .ok s
  else if ¬s.inNewBucket h nId info.toCService nRnd then .ok s
  else if test_before_evict ∧ s.vvTried (h.triedSlot info.toCService) ≠ -1 then .ok (s.addCollision nId)
  else s.makeTried h nId

end

/-- `Good_`; `nRnd` is the random bucket. -/
def good_ (addr : CService) (test_before_evict : Bool) (nTime : Int)
    (nRnd : NewBucket) : Except Fault CAddrMan :=
  let s := { s with nLastGood := nTime }
  match s.find addr.toCNetAddr with
  | none => .ok s
  | some (nId, info) =>
    -- the exact same service, including the port
    if info.toCService ≠ addr then .ok s
    else (s.setInfo nId (markGood nTime info)).promote h nId (markGood nTime info) test_before_evict nRnd

end

/-- The clock readings and the random draw of an `Add_`. -/
structure AddDraws where
  nNow : Int
  nNowTerrible : Int
  nRnd : Nat

/-- How `Add_` updates an entry that is there. -/
def updateFound (addr : CAddress) (nTimePenalty nNow : Int) (info : CAddrInfo) : CAddrInfo :=
  let fCurrentlyOnline := nNow - addr.nTime < 24 * 60 * 60
  let nUpdateInterval : Int := if fCurrentlyOnline then 60 * 60 else 24 * 60 * 60
  let nTime :=
    if addr.nTime ≠ 0 ∧ (info.nTime = 0 ∨ (info.nTime : Int) < addr.nTime - nUpdateInterval - nTimePenalty) then
      toUint32 (max 0 (addr.nTime - nTimePenalty))
    else info.nTime
  { info with nTime, nServices := info.nServices ||| addr.nServices }

/-- Whether `Add_` goes on to give another slot to an entry that is there. -/
def mayAddSlot (addr : CAddress) (nRnd : Nat) (info : CAddrInfo) : Bool :=
  if addr.nTime = 0 ∨ (info.nTime ≠ 0 ∧ addr.nTime ≤ info.nTime) then false
  else if info.fInTried then false
  else if info.nRefCount = ADDRMAN_NEW_BUCKETS_PER_ADDRESS then false
  else
    -- previous nRefCount == N: 2^N times harder to increase it
    let nFactor := 2 ^ info.nRefCount.toNat
    !(nFactor > 1 && nRnd % nFactor != 0)

/-- Whether an entry with `nRefCount` references may take a slot of the new table. -/
def mayInsert (nRefCount : Int) (slot : NewBucket × BucketPosition) (nNow : Int) :
    Bool × CAddrMan :=
  if s.vvNew slot = -1 then (true, s)
  else
    let (infoExisting, s) := s.infoAt (s.vvNew slot)
    (infoExisting.isTerrible nNow || (infoExisting.nRefCount > 1 && nRefCount == 0), s)

/-- The end of `Add_`: the entry gets the slot if it is free or can be freed. -/
def placeNew (nId : Int) (slot : NewBucket × BucketPosition) (nNow : Int) :
    Except Fault CAddrMan :=
  if s.vvNew slot = nId then .ok s
  else do
    let info ← s.infoOf nId
    let (fInsert, s) := s.mayInsert info.nRefCount slot nNow
    if fInsert then do
      let s ← s.clearNew slot
      let info ← s.infoOf nId
      .ok (s.giveSlot nId info (info.nRefCount + 1) slot)
    else if info.nRefCount = 0 then s.delete nId
    else .ok s

section
variable (s : CAddrMan)

/-- `Add_` for an entry that is there. -/
def addFound (nId : Int) (info : CAddrInfo) (addr : CAddress) (source : CNetAddr)
    (nTimePenalty : Int) (d : AddDraws) : Except Fault CAddrMan :=
  let info := updateFound addr nTimePenalty d.nNow info
  let s := s.setInfo nId info
  if ¬mayAddSlot addr d.nRnd info then .ok s
  else s.placeNew nId (h.newSlot info.toCService source) d.nNowTerrible

variable (addr : CAddress) (source : CNetAddr) (nTimePenalty : Int)

/-- `Add_` for an address without an entry. -/
def addCreated (d : AddDraws) : Except Fault CAddrMan := do
  let (nId, s) := s.create addr source
  let info ← s.infoOf nId
  let s := s.setInfo nId { info with nTime := toUint32 (max 0 (info.nTime - nTimePenalty)) }
  let s := { s with nNew := s.nNew + 1 }
  s.placeNew nId (h.newSlot addr.toCService source) d.nNowTerrible

/-- `Add_` -/
def add_ (d : AddDraws) : Except Fault (Bool × CAddrMan) :=
  if ¬h.isRoutable addr.toCNetAddr then .ok (false, s)
  else
    -- no penalty for a source's self-announcement
    let nTimePenalty := if addr.toCNetAddr = source then 0 else nTimePenalty
    match s.find addr.toCNetAddr with
    | some (nId, info) => (s.addFound h nId info addr source nTimePenalty d).map (false, ·)
    | none => (s.addCreated h addr source nTimePenalty d).map (true, ·)

/-- The clock readings and the random draw of an `AddAndMarkGood_`. -/
structure GoodDraws where
  nNow : Int
  nNowGood : Int
  nRnd : NewBucket

/-- `AddAndMarkGood_` finds the entry or makes it. -/
def findOrCreate (nNow : Int) : Int × CAddrMan :=
  match s.find addr.toCNetAddr with
  | none =>
    let (nId, s) := s.create addr addr.toCNetAddr
    let (info, s) := s.infoAt nId
    let nTime := if addr.nTime ≠ 0 then addr.nTime else toUint32 nNow
    let s := s.setInfo nId { info with nTime, nServices := addr.nServices }
    (nId, { s with nNew := s.nNew + 1 })
  | some (nId, info) =>
    let nTime := if addr.nTime ≠ 0 ∧ (info.nTime = 0 ∨ info.nTime < addr.nTime) then addr.nTime
      else info.nTime
    (nId, s.setInfo nId { info with nTime, nServices := info.nServices ||| addr.nServices })

/-- `AddAndMarkGood_` gives a slot to an entry that has none. -/
def ensureSlot (nId : Int) (addr : CNetAddr) : Except Fault CAddrMan := do
  let info ← s.infoOf nId
  if info.fInTried = false ∧ info.nRefCount = 0 then
    let slot := h.newSlot info.toCService addr
    let s ← s.clearNew slot
    let info ← s.infoOf nId
    .ok (s.giveSlot nId info 1 slot)
  else .ok s

/-- `AddAndMarkGood_` -/
def addAndMarkGood_ (d : GoodDraws) :
    Except Fault (Bool × CAddrMan) :=
  if ¬h.isRoutable addr.toCNetAddr then .ok (false, s)
  else do
    let (nId, s) := s.findOrCreate addr d.nNow
    let s ← s.ensureSlot h nId addr.toCNetAddr
    -- the peer just completed a successful handshake
    let s ← s.good_ h addr.toCService false d.nNowGood d.nRnd
    .ok (true, s)

/-- The first part of the operations that replace: an entry with the same address and another port
    is removed. -/
def removeSameIP : Except Fault CAddrMan :=
  match s.find addr.toCNetAddr with
  | some (nId, info) =>
    if info.port ≠ addr.port then (s.remove_ h nId).map Prod.snd else .ok s
  | none => .ok s

/-- `AddReplacingSameIP` -/
def addReplacingSameIP (d : AddDraws) : Except Fault (Bool × CAddrMan) := do
  let s ← s.removeSameIP h addr
  s.add_ h addr source nTimePenalty d

/-- `AddAndMarkGoodReplacingSameIP` -/
def addAndMarkGoodReplacingSameIP (d : GoodDraws) :
    Except Fault (Bool × CAddrMan) := do
  let s ← s.removeSameIP h addr
  s.addAndMarkGood_ h addr d

end

variable (addr : CService)

/-- Change an entry, if it is for the exact same service. -/
def updateExact (f : CAddrInfo → CAddrInfo) : CAddrMan :=
  match s.find addr.toCNetAddr with
  | none => s
  | some (nId, info) => if info.toCService ≠ addr then s else s.setInfo nId (f info)

/-- `Attempt_` -/
def attempt_ (fCountFailure : Bool) (nTime : Int) : CAddrMan :=
  s.updateExact addr fun info =>
    let info := { info with nLastTry := nTime }
    if fCountFailure ∧ info.nLastCountAttempt < s.nLastGood then
      { info with nLastCountAttempt := nTime, nAttempts := info.nAttempts + 1 }
    else info

/-- `Connected_` -/
def connected_ (nTime : Int) : CAddrMan :=
  s.updateExact addr fun info =>
    if nTime - info.nTime > 20 * 60 then { info with nTime := toUint32 nTime } else info

/-- `SetServices_` -/
def setServices_ (nServices : UInt64) : CAddrMan :=
  s.updateExact addr fun info => { info with nServices }

/-- Whether a colliding entry is to be moved to the tried table now, and whether it is done with;
    `clock` gives the readings in their order. -/
def resolveOne (clock : Nat → Int) (nRnd : NewBucket) (s : CAddrMan) (id_new : Int) :
    Except Fault CAddrMan :=
  match s.mapInfo.lookup id_new with
  | none => .ok (s.eraseCollision id_new)
  | some info_new =>
    let slot := h.triedSlot info_new.toCService
    if ¬h.isValid info_new.toCNetAddr then .ok (s.eraseCollision id_new)
    else if s.vvTried slot ≠ -1 then
      let (info_old, s) := s.infoAt (s.vvTried slot)
      if clock 0 - info_old.nLastSuccess < ADDRMAN_REPLACEMENT_HOURS * (60 * 60) then .ok (s.eraseCollision id_new)
      else if clock 1 - info_old.nLastTry < ADDRMAN_REPLACEMENT_HOURS * (60 * 60) then
        -- at least 60 seconds to connect successfully
        if clock 2 - info_old.nLastTry > 60 then
          (s.good_ h info_new.toCService false (clock 3) nRnd).map fun s => s.eraseCollision id_new
        else .ok s
      else if clock 2 - info_new.nLastSuccess > ADDRMAN_TEST_WINDOW then
        (s.good_ h info_new.toCService false (clock 3) nRnd).map fun s => s.eraseCollision id_new
      else .ok s
    else (s.good_ h info_new.toCService false (clock 0) nRnd).map fun s => s.eraseCollision id_new

/-- `ResolveCollisions_`, with the clock and the random draw for each colliding entry. -/
def resolveCollisions_ (s : CAddrMan) (clock : Int → Nat → Int) (nRnd : Int → NewBucket) :
    Except Fault CAddrMan :=
  s.m_tried_collisions.foldlM (fun s id_new => resolveOne h (clock id_new) (nRnd id_new) s id_new) s

/-- `SelectTriedCollision_`; `nRnd` picks the colliding entry. -/
def selectTriedCollision_ (s : CAddrMan) (nRnd : Nat) : CAddrInfo × CAddrMan :=
  match s.m_tried_collisions[nRnd % s.m_tried_collisions.length]? with
  | none => (.default, s)
  | some id_new =>
    match s.mapInfo.lookup id_new with
    | none => (.default, s.eraseCollision id_new)
    | some newInfo => s.infoAt (s.vvTried (h.triedSlot newInfo.toCService))

/-- A loop of `Select_` over the slots that the draws lead to, each with the outcome of its chance;
    no result if it goes on. -/
def selectLoop {σ : Type} (s : CAddrMan) (table : σ → Int) : List (σ × Bool) →
    Except Fault (Option CAddrInfo)
  | [] => .ok none
  | (slot, accepted) :: probes =>
    if table slot = -1 then selectLoop s table probes
    else do
      let info ← s.infoOf (table slot)
      if accepted then .ok (some info) else selectLoop s table probes

/-- `Select_` -/
def select_ (newOnly randbool : Bool)
    (triedProbes : List ((TriedBucket × BucketPosition) × Bool))
    (newProbes : List ((NewBucket × BucketPosition) × Bool)) : Except Fault (Option CAddrInfo) :=
  if s.vRandom.length = 0 then .ok (some .default)
  else if newOnly ∧ s.nNew = 0 then .ok (some .default)
  else if ¬newOnly ∧ s.nTried > 0 ∧ (s.nNew = 0 ∨ randbool = false) then
    s.selectLoop s.vvTried triedProbes
  else s.selectLoop s.vvNew newProbes

end

/-- The loop of `GetAddr_` from position `n` on. -/
def getAddrLoop (nNodes : Nat) (nNow : Nat → Int) (nRnd : Nat → Nat) : Nat → Nat → CAddrMan →
    List CAddress → Except Fault (List CAddress × CAddrMan)
  | 0, _, s, vAddr => .ok (vAddr, s)
  | rounds + 1, n, s, vAddr =>
    if vAddr.length ≥ nNodes then .ok (vAddr, s)
    else do
      let nRndPos := nRnd n % (s.vRandom.length - n) + n
      let s ← s.swapRandom n nRndPos
      match s.vRandom[n]? with
      | none => .error (.undefinedBehavior "vRandom[n]")
      | some nId =>
        let ai ← s.infoOf nId
        let vAddr := if ai.isTerrible (nNow n) then vAddr else vAddr ++ [ai.toCAddress]
        getAddrLoop nNodes nNow nRnd rounds (n + 1) s vAddr

/-- `GetAddr_` -/
def getAddr_ (s : CAddrMan) (max_addresses max_pct : Nat) (nNow : Nat → Int) (nRnd : Nat → Nat) :
    Except Fault (List CAddress × CAddrMan) :=
  let nNodes := if max_pct ≠ 0 then max_pct * s.vRandom.length / 100 else s.vRandom.length
  let nNodes := if max_addresses ≠ 0 then min nNodes max_addresses else nNodes
  getAddrLoop nNodes nNow nRnd s.vRandom.length 0 s []

end CAddrMan

end Defcoin.Addrman
