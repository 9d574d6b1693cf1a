import Defcoin.Coins.Supply
import Defcoin.Consensus.ConnectBlock

/-! # Connecting blocks to the chain state

  The chain state is the tip with the views of the coins. `ConnectTip` connects a block on a new
  layer over these views and flushes the layer into them. Between blocks the chain state's own
  caches may be flushed, and new ones put over them.
-/

namespace Defcoin

section State
variable {B : Type} [CoinsBase B]

/-- The members of `CChainState` that blocks are connected to. -/
structure ChainState (B : Type) where
  /-- `m_chain.Tip()` -/
  tip : Option ChainIndex
  /-- `CoinsTip()` -/
  coins : CCoinsView B
  /-- `CoinsTip().GetMWEBView()` -/
  mweb : Mweb.CoinsView

/-- `CCoinsViewCache view(&CoinsTip())` -/
def ChainState.newView (s : ChainState B) : UtxoView B :=
  { coins := .new s.coins, mwebBase := s.mweb, mweb := .new s.mweb }

/-- The entry of a block whose index members `ConnectBlock` left as `index`. -/
def ChainIndex.connected (pindex : ChainIndex) (index : CBlockIndex) : ChainIndex where
  index :=
    { pindex.index with
      haveMWEB := index.haveMWEB
      mweb_header := index.mweb_header
      hogex_hash := index.hogex_hash
      mweb_amount := index.mweb_amount }
  ancestors := pindex.ancestors
  linked := by
    obtain ⟨i, ancestors, linked⟩ := pindex
    cases ancestors with
    | nil => exact List.isChain_singleton _
    | cons p rest => exact List.isChain_cons_cons.mpr (List.isChain_cons_cons.mp linked)

/-- `ConnectTip` for a block that it has read: the chain state if the block is accepted. -/
def ChainState.connectTip (env : Env) (s : ChainState B) (block : CBlock) (pindexNew : ChainIndex) :
    BlockCheck (ChainState B) := do
  let r ← connectBlock env block pindexNew s.newView false
  let view ← orFault (r.view.flush env)
  pure { tip := some (pindexNew.connected r.index), coins := view.coins.base, mweb := view.mwebBase }

end State

/-- An entry as `AddToBlockIndex` makes it: nothing of an extension block yet, and height 0 if it
    has no parent. -/
structure ChainIndex.NewEntry (pindex : ChainIndex) : Prop where
  height : pindex.pprev = none → pindex.index.nHeight = 0
  haveMWEB : pindex.index.haveMWEB = false
  mweb_header : pindex.index.mweb_header = none
  mweb_amount : pindex.index.mweb_amount = 0

/-- The chain states that connecting blocks leads to, from no blocks and no coins. -/
inductive ChainState.Reachable (env : Env) : ChainState CoinsTable → Prop where
  | start (mweb : Mweb.CoinsView) : Reachable env ⟨none, .base CoinsTable.empty, mweb⟩
  | connect {s s' : ChainState CoinsTable} {block : CBlock} {pindex : ChainIndex} :
      Reachable env s → pindex.pprev = s.tip → pindex.NewEntry →
      s.connectTip env block pindex = .ok s' → Reachable env s'
  /-- a new cache over the views -/
  | push {s : ChainState CoinsTable} : Reachable env s →
      Reachable env ⟨s.tip, .cache s.coins ∅ 0, .cache s.mweb (.new s.mweb)⟩
  /-- the topmost cache is flushed -/
  | flush {tip : Option ChainIndex} {view view' : UtxoView CoinsTable} :
      Reachable env ⟨tip, view.coins.toView, view.mwebView⟩ → view.flush env = .ok view' →
      Reachable env ⟨tip, view'.coins.toView, view'.mwebView⟩

end Defcoin
