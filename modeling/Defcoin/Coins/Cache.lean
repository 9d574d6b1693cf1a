import Defcoin.Framework.FiniteMap
import Defcoin.Primitives

/-! # The coin cache

  `CCoinsViewCache` layers over a base view, as in `coins.cpp`. A layer keeps entries with two
  flags: DIRTY (may differ from the parent) and FRESH (the parent has no unspent coin). Reading
  caches what the layers below answered, so reads return the changed stack too.

  The memory accounting and the MWEB view of each layer are not part of this module.
-/

namespace Defcoin

/-! ### Entries and maps -/

/-- `CCoinsCacheEntry`: a coin with its DIRTY and FRESH flags. -/
structure CCoinsCacheEntry where
  coin : Coin
  dirty : Bool
  fresh : Bool
  deriving DecidableEq

/-- `CCoinsMap` -/
abbrev CCoinsMap := AList (fun _ : COutPoint => CCoinsCacheEntry)

/-- What the bottom of a stack of layers offers: `CCoinsView::GetCoin`, `CCoinsView::GetBestBlock`
    and `CCoinsView::BatchWrite`. -/
class CoinsBase (B : Type) where
  getCoin : B → COutPoint → Option Coin
  getBestBlock : B → Uint256
  batchWrite : B → CCoinsMap → Uint256 → Except Fault B

/-- A view: the base, or a cache layer over a view. -/
inductive CCoinsView (B : Type) where
  | base (b : B)
  | cache (parent : CCoinsView B) (cacheCoins : CCoinsMap) (hashBlock : Uint256)

/-- `CCoinsViewCache`: the top layer of a stack, with the view it is backed by. -/
structure CCoinsViewCache (B : Type) where
  base : CCoinsView B
  cacheCoins : CCoinsMap
  hashBlock : Uint256

variable {B : Type}

/-- The layer as a view, for a layer above it. -/
def CCoinsViewCache.toView (s : CCoinsViewCache B) : CCoinsView B :=
  .cache s.base s.cacheCoins s.hashBlock

/-- `CCoinsViewCache(CCoinsView* baseIn)`: a new layer without entries. -/
def CCoinsViewCache.new (baseIn : CCoinsView B) : CCoinsViewCache B :=
  { base := baseIn, cacheCoins := ∅, hashBlock := 0 }

/-! ### Reading -/

/-- The entry `FetchCoin` makes of a coin the parent returned. -/
def CCoinsCacheEntry.fetched (tmp : Coin) : CCoinsCacheEntry :=
  -- the parent only has an empty entry: our version counts as fresh
  { coin := tmp, dirty := false, fresh := tmp.isSpent }

/-- The body of `FetchCoin`, given what `base->GetCoin` answers and how it leaves the base. -/
def CCoinsViewCache.fetchStep (s : CCoinsViewCache B) (outpoint : COutPoint)
    (fromBase : Option Coin × CCoinsView B) : Option CCoinsCacheEntry × CCoinsViewCache B :=
  match s.cacheCoins.lookup outpoint with
  | some e => (some e, s)
  | none =>
    match fromBase with
    | (none, base') => (none, { s with base := base' })
    | (some tmp, base') =>
      (some (.fetched tmp),
        { s with base := base', cacheCoins := s.cacheCoins.insert outpoint (.fetched tmp) })

def CCoinsCacheEntry.unspent? (e : CCoinsCacheEntry) : Option Coin :=
  if e.coin.isSpent then none else some e.coin

section Ops
variable [CoinsBase B]

/-- `GetCoin`: the coin if the call returns true, and the stack after the call. -/
def CCoinsView.getCoin : CCoinsView B → COutPoint → Option Coin × CCoinsView B
  | .base b, outpoint => (CoinsBase.getCoin b outpoint, .base b)
  | .cache p cc h, outpoint =>
    let r := CCoinsViewCache.fetchStep ⟨p, cc, h⟩ outpoint (p.getCoin outpoint)
    (r.1.bind CCoinsCacheEntry.unspent?, r.2.toView)

/-- `GetBestBlock`, which caches the answer of the layers below. -/
def CCoinsView.getBestBlock : CCoinsView B → Uint256 × CCoinsView B
  | .base b => (CoinsBase.getBestBlock b, .base b)
  | .cache p cc h =>
    if h.isNull then
      (p.getBestBlock.1, .cache p.getBestBlock.2 cc p.getBestBlock.1)
    else (h, .cache p cc h)

namespace CCoinsViewCache

variable (s : CCoinsViewCache B) (outpoint : COutPoint)

/-- `FetchCoin` -/
def fetchCoin :
    Option CCoinsCacheEntry × CCoinsViewCache B :=
  s.fetchStep outpoint (s.base.getCoin outpoint)

/-- `CCoinsViewCache::GetCoin` -/
def getCoin : Option Coin × CCoinsViewCache B :=
  let r := s.fetchCoin outpoint
  (r.1.bind CCoinsCacheEntry.unspent?, r.2)

/-- `CCoinsViewCache::HaveCoin` on an outpoint. -/
def haveCoin : Bool × CCoinsViewCache B :=
  let r := s.fetchCoin outpoint
  (match r.1 with
    | none => false
    | some e => !e.coin.isSpent, r.2)

/-- `CCoinsViewCache::AccessCoin` -/
def accessCoin : Coin × CCoinsViewCache B :=
  let r := s.fetchCoin outpoint
  (match r.1 with
    | none => coinEmpty
    | some e => e.coin, r.2)

/-- `CCoinsViewCache::GetBestBlock` -/
def getBestBlock : Uint256 × CCoinsViewCache B :=
  if s.hashBlock.isNull then
    (s.base.getBestBlock.1, { s with base := s.base.getBestBlock.2, hashBlock := s.base.getBestBlock.1 })
  else (s.hashBlock, s)

/-- `CCoinsViewCache::SetBestBlock` -/
def setBestBlock (hashBlockIn : Uint256) : CCoinsViewCache B :=
  { s with hashBlock := hashBlockIn }

/-! ### Adding and spending -/

/-- The entry `cacheCoins.emplace(outpoint, ())` finds or makes. -/
def emplaced : CCoinsCacheEntry :=
  match s.cacheCoins.lookup outpoint with
  | some e => e
  | none => { coin := coinEmpty, dirty := false, fresh := false }

/-- `CCoinsViewCache::AddCoin` -/
def addCoin (coin : Coin)
    (possible_overwrite : Bool) : Except Fault (CCoinsViewCache B) :=
  if coin.isSpent then .error (.assertion "!coin.IsSpent()")
  else if coin.out.scriptPubKey.isUnspendable then .ok s
  else
    let it := s.emplaced outpoint
    if !possible_overwrite && !it.coin.isSpent then
      .error (.logicError
        "Attempted to overwrite an unspent coin (when possible_overwrite is false)")
    else
      -- a spent DIRTY entry still has to reach the parent, so it cannot become FRESH
      let fresh := !possible_overwrite && !it.dirty
      let e : CCoinsCacheEntry := { coin := coin, dirty := true, fresh := it.fresh || fresh }
      .ok { s with cacheCoins := s.cacheCoins.insert outpoint e }

/-- `CCoinsViewCache::SpendCoin`: whether an entry was found, the coin moved out of it, and the
    layer after the call. -/
def spendCoin :
    Option Coin × CCoinsViewCache B :=
  match s.fetchCoin outpoint with
  | (none, s') => (none, s')
  | (some e, s') =>
    if e.fresh then (some e.coin, { s' with cacheCoins := s'.cacheCoins.erase outpoint })
    else
      let cleared : CCoinsCacheEntry := { e with coin := coinEmpty, dirty := true }
      (some e.coin, { s' with cacheCoins := s'.cacheCoins.insert outpoint cleared })

/-- `CCoinsViewCache::Uncache` on an outpoint. -/
def uncache : CCoinsViewCache B :=
  match s.cacheCoins.lookup outpoint with
  | some e =>
    if !e.dirty && !e.fresh then { s with cacheCoins := s.cacheCoins.erase outpoint } else s
  | none => s

end CCoinsViewCache

/-! ### Writing back -/

/-- What the loop body of `CCoinsViewCache::BatchWrite` leaves in the parent for one entry of the
    child, from what the parent holds. -/
def CCoinsCacheEntry.merge (itUs : Option CCoinsCacheEntry) (it : CCoinsCacheEntry) :
    Except Fault (Option CCoinsCacheEntry) :=
  if !it.dirty then .ok itUs
  else
    match itUs with
    | none =>
      -- both spent and FRESH in the child: nothing to tell the parent
      if it.fresh && it.coin.isSpent then .ok none
      else .ok (some { coin := it.coin, dirty := true, fresh := it.fresh })
    | some us =>
      if it.fresh && !us.coin.isSpent then
        .error (.logicError "FRESH flag misapplied to coin that exists in parent cache")
      else if us.fresh && it.coin.isSpent then .ok none
      else .ok (some { us with coin := it.coin, dirty := true })

/-- `BatchWrite` into a view. -/
def CCoinsView.batchWrite (v : CCoinsView B) (mapCoins : CCoinsMap) (hashBlock : Uint256) :
    Except Fault (CCoinsView B) :=
  match v with
  | .base b => (CoinsBase.batchWrite b mapCoins hashBlock).map .base
  | .cache p cc _ =>
    (FiniteMap.mergeEntries CCoinsCacheEntry.merge cc mapCoins.entries).map
      (fun cc' => .cache p cc' hashBlock)

/-- `CCoinsViewCache::Flush` -/
def CCoinsViewCache.flush (s : CCoinsViewCache B) : Except Fault (CCoinsViewCache B) :=
  (s.base.batchWrite s.cacheCoins s.hashBlock).map
    (fun base' => { base := base', cacheCoins := ∅, hashBlock := s.hashBlock })

/-- Flush every layer of a stack in turn, from the top, and return the base. -/
def CCoinsView.flushAll (v : CCoinsView B) : Except Fault B :=
  match v with
  | .base b => .ok b
  | .cache p cc h => flushOnto p cc h
where
  /-- Write a layer's entries into the view below it, then flush that view. -/
  flushOnto : CCoinsView B → CCoinsMap → Uint256 → Except Fault B
    | .base b, cc, h => CoinsBase.batchWrite b cc h
    | .cache p ccp _, cc, h =>
      match FiniteMap.mergeEntries CCoinsCacheEntry.merge ccp cc.entries with
      | .error e => .error e
      | .ok ccp' => flushOnto p ccp' h

end Ops

end Defcoin
