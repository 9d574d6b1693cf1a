import Defcoin.Framework.Machine
import Defcoin.Coins.View

/-! # The coin cache refines plain maps

  The concrete machine is a stack of `CCoinsViewCache` layers over a base map, driven by the
  operations of the top layer, by flushing it, and by pushing and discarding layers. The abstract
  machine keeps one plain map per layer and knows no flags. Both answer every run in the same way.
-/

namespace Defcoin

open CCoinsView CCoinsViewCache Machine Except

/-! ### The base map -/

/-- A base that keeps a plain map of unspent coins. -/
structure CoinsBaseMap where
  coins : CoinMap
  unspent : ∀ o c, coins o = some c → c.isSpent = false

namespace CoinsBaseMap

/-- Write the dirty entries: spent coins are erased, all others stored. -/
def batchWrite (b : CoinsBaseMap) (mapCoins : CCoinsMap) : CoinsBaseMap where
  coins := b.coins.writtenBack mapCoins
  unspent := by
    intro o c h
    unfold CoinMap.writtenBack at h
    split at h
    · split at h
      · obtain ⟨hs, rfl⟩ := CCoinsCacheEntry.unspent?_eq_some.mp h
        exact hs
      · exact b.unspent o c h
    · exact b.unspent o c h

instance : CoinsBase CoinsBaseMap where
  getCoin b := b.coins
  getBestBlock _ := 0
  batchWrite b m _ := .ok (b.batchWrite m)

def empty : CoinsBaseMap where
  coins _ := none
  unspent := by simp

end CoinsBaseMap

/-! ### Operations -/

inductive CoinsOp where
  | getCoin (o : COutPoint)
  | haveCoin (o : COutPoint)
  | accessCoin (o : COutPoint)
  | addCoin (o : COutPoint) (coin : Coin) (possible_overwrite : Bool)
  | spendCoin (o : COutPoint)
  | uncache (o : COutPoint)
  | flush
  | push
  | discard

inductive CoinsAnswer where
  | coin? (r : Option Coin)
  | have (r : Bool)
  | coin (c : Coin)
  | done
  deriving DecidableEq

section Concrete
variable {B : Type} [CoinsBase B]

/-- One operation on the top layer; `moveout` starts as an empty coin. -/
def CCoinsViewCache.step (s : CCoinsViewCache B) :
    CoinsOp → Except Fault (CoinsAnswer × CCoinsView B)
  | .getCoin o => .ok (.coin? (s.getCoin o).1, (s.getCoin o).2.toView)
  | .haveCoin o => .ok (.have (s.haveCoin o).1, (s.haveCoin o).2.toView)
  | .accessCoin o => .ok (.coin (s.accessCoin o).1, (s.accessCoin o).2.toView)
  | .addCoin o c ow => (s.addCoin o c ow).map fun s' => (.done, s'.toView)
  | .spendCoin o =>
    .ok (.coin ((s.spendCoin o).1.getD coinEmpty), (s.spendCoin o).2.toView)
  | .uncache o => .ok (.done, (s.uncache o).toView)
  | .flush => s.flush.map fun s' => (.done, s'.toView)
  | .push => .ok (.done, (new s.toView).toView)
  | .discard => .ok (.done, s.base)

/-- The concrete machine; only `push` makes sense without a layer. -/
def coinsMachine (B : Type) [CoinsBase B] : Machine (CCoinsView B) CoinsOp CoinsAnswer Fault where
  step v op :=
    match v, op with
    | .cache p cc h, op => step ⟨p, cc, h⟩ op
    | .base b, .push => .ok (.done, (new (.base b)).toView)
    | .base _, _ => .error (.assertion "no cache layer")

def CCoinsView.Documented : CCoinsView B → Prop
  | .base _ => True
  | .cache p cc _ => p.Documented ∧ ∀ o e, cc.lookup o = some e → e.documented = true

theorem CCoinsView.Wf.documented {v : CCoinsView B} (hv : v.Wf) : v.Documented := by
  induction v with
  | base b => trivial
  | cache p cc h ih => exact ⟨ih hv.1, fun o e he => (hv.2 o e he).documented⟩

end Concrete

/-! ### The abstract machine

    The state lists one map per layer, the top first and the base last. -/

def plainStep (ms : List CoinMap) (op : CoinsOp) : CoinsAnswer × List CoinMap :=
  match op, ms with
  | .getCoin o, m :: rest => (.coin? (m o), m :: rest)
  | .haveCoin o, m :: rest => (.have (m o).isSome, m :: rest)
  | .accessCoin o, m :: rest => (.coin ((m o).getD coinEmpty), m :: rest)
  | .addCoin o c _, m :: rest => (.done, m.add o c :: rest)
  | .spendCoin o, m :: rest => (.coin ((m o).getD coinEmpty), m.set o none :: rest)
  | .flush, m :: _ :: rest => (.done, m :: m :: rest)
  | .push, m :: rest => (.done, m :: m :: rest)
  | .discard, _ :: rest => (.done, rest)
  | _, ms => (.done, ms)

/-- What the callers promise: operations other than `push` need a layer, added coins are unspent, and
    unspent coins are replaced with `possible_overwrite` only. -/
def CoinsOp.Allowed (ms : List CoinMap) (op : CoinsOp) : Prop :=
  match op with
  | .push => True
  | .addCoin o c ow =>
    2 ≤ ms.length ∧ c.isSpent = false ∧ (ow = false → ∀ m, ms.head? = some m → m o = none)
  | _ => 2 ≤ ms.length

/-! ### Refinement -/

section Refinement
variable {B : Type} [CoinsBase B]

/-- A base writes back as the plain map does, whatever the block hash. -/
def WritesBack (B : Type) [CoinsBase B] : Prop :=
  ∀ (b : B) (m : CCoinsMap) (h : Uint256), ∃ b', CoinsBase.batchWrite b m h = .ok b' ∧
    CoinsBase.getCoin b' = CoinMap.writtenBack (CoinsBase.getCoin b) m ∧
    ∀ o c, CoinsBase.getCoin b' o = some c → c.isSpent = false

theorem CoinsBaseMap.writesBack : WritesBack CoinsBaseMap :=
  fun b m _ => ⟨b.batchWrite m, rfl, rfl, (b.batchWrite m).unspent⟩

theorem CCoinsViewCache.batchWrite_spec (hB : WritesBack B) {s : CCoinsViewCache B} (hs : s.Wf) :
    ∃ base', s.base.batchWrite s.cacheCoins s.hashBlock = .ok base' ∧ base'.Wf ∧
      base'.layers = s.view :: s.base.layers.tail := by
  have hwb := hs.writtenBack
  obtain ⟨base, cc, h⟩ := s
  cases base with
  | base b =>
    obtain ⟨b', hb', hget, hunspent⟩ := hB b cc h
    refine ⟨.base b', by simp [batchWrite, hb', Except.map], hunspent, ?_⟩
    simp only [layers, hget]
    rw [← hwb]
    rfl
  | cache p ccp hp =>
    obtain ⟨cc', hcc', hbec⟩ := mergeEntries_spec (s := ⟨p, ccp, hp⟩) hs.1 hs.2
    refine ⟨.cache p cc' h, by simp only [batchWrite, hcc', Except.map], hbec.wf, ?_⟩
    exact congrArg₂ List.cons (hbec.view.trans hwb) rfl

theorem CCoinsViewCache.flush_spec (hB : WritesBack B) {s : CCoinsViewCache B} (hs : s.Wf) :
    ∃ s', s.flush = .ok s' ∧ s'.Wf ∧ s'.toView.layers = s.view :: s.view :: s.base.layers.tail := by
  obtain ⟨base', hb, hwf, hlayers⟩ := batchWrite_spec hB hs
  refine ⟨⟨base', ∅, s.hashBlock⟩, by simp only [flush, hb, Except.map], ⟨hwf, by simp⟩, ?_⟩
  have hview : base'.view = s.view := (List.cons.inj ((base'.head_layers).symm.trans hlayers)).1
  show _ :: base'.layers = _
  congr 1

/-- The relation between the two machines. -/
def CCoinsView.Refines (v : CCoinsView B) (ms : List CoinMap) : Prop := v.Wf ∧ v.layers = ms

theorem CCoinsViewCache.new_refines {v : CCoinsView B} (hv : v.Wf) :
    (new v).toView.Refines (v.view :: v.layers) := by
  refine ⟨⟨hv, ?_⟩, rfl⟩
  intro o e he
  cases (AList.lookup_empty o).symm.trans he

theorem coinsMachine_step_refines (hB : WritesBack B) (v : CCoinsView B) (ms : List CoinMap)
    (op : CoinsOp) (hR : v.Refines ms) (hop : op.Allowed ms) :
    ∃ v', (coinsMachine B).step v op = .ok ((plainStep ms op).1, v') ∧
      v'.Refines (plainStep ms op).2 := by
  obtain ⟨hwf, rfl⟩ := hR
  cases v with
  | base b =>
    cases op with
    | push => exact ⟨_, rfl, new_refines hwf⟩
    | addCoin o c ow => exact absurd hop.1 (by simp [layers])
    | _ => exact absurd hop (by simp [CoinsOp.Allowed, layers])
  | cache p cc h =>
    -- what an operation that changes only the top map has to deliver
    have hbecomes : ∀ {s' : CCoinsViewCache B} {m : CoinMap},
        CCoinsViewCache.Becomes ⟨p, cc, h⟩ s' m → s'.toView.Refines (m :: p.layers) :=
      fun hb => ⟨hb.wf, congrArg₂ List.cons hb.view hb.layers_base⟩
    let s : CCoinsViewCache B := ⟨p, cc, h⟩
    have hs : s.Wf := hwf
    cases op with
    | getCoin o =>
      obtain ⟨hans, hsteps⟩ := getCoin_spec hs o
      exact ⟨_, congrArg (fun r => ok (CoinsAnswer.coin? r, _)) hans,
        hbecomes hsteps.toBecomes⟩
    | haveCoin o =>
      obtain ⟨hans, hsteps⟩ := haveCoin_spec hs o
      exact ⟨_, congrArg (fun r => ok (CoinsAnswer.have r, _)) hans,
        hbecomes hsteps.toBecomes⟩
    | accessCoin o =>
      obtain ⟨hans, hsteps⟩ := accessCoin_spec hs o
      exact ⟨_, congrArg (fun r => ok (CoinsAnswer.coin r, _)) hans,
        hbecomes hsteps.toBecomes⟩
    | addCoin o c ow =>
      obtain ⟨_, hc, ho⟩ := hop
      obtain ⟨s', hs', hsteps⟩ := addCoin_spec hs hc
        (fun how => ho how _ rfl)
      refine ⟨s'.toView, ?_, hbecomes hsteps.toBecomes⟩
      show (s.addCoin o c ow).map _ = _
      rw [hs']
      rfl
    | spendCoin o =>
      obtain ⟨hans, _, hsteps⟩ := spendCoin_spec hs o
      exact ⟨_, congrArg (fun r => ok (CoinsAnswer.coin r, _)) hans,
        hbecomes hsteps.toBecomes⟩
    | uncache o => exact ⟨_, rfl, hbecomes (uncache_spec hs o)⟩
    | flush =>
      obtain ⟨s', hs', hwf', hlayers⟩ := flush_spec hB hs
      refine ⟨s'.toView, ?_, hwf', ?_⟩
      · show s.flush.map _ = _
        rw [hs', layers, p.head_layers]
        rfl
      · rw [hlayers, layers, p.head_layers]
        rfl
    | push => exact ⟨_, rfl, new_refines hwf⟩
    | discard => exact ⟨_, rfl, hwf.1, rfl⟩

theorem flushAll_spec (hB : WritesBack B) {v : CCoinsView B} (hv : v.Wf) :
    ∃ b, v.flushAll = .ok b ∧ CoinsBase.getCoin b = v.view := by
  cases v with
  | base b => exact ⟨b, rfl, rfl⟩
  | cache p cc h =>
    show ∃ b, flushAll.flushOnto p cc h = .ok b ∧ _
    -- the layer below takes over the map, so the induction goes down the stack
    induction p generalizing cc h with
    | base b =>
      obtain ⟨b', hb', hget, _⟩ := hB b cc h
      exact ⟨b', hb', hget.trans (CCoinsViewCache.Wf.writtenBack (s := ⟨.base b, cc, h⟩) hv)⟩
    | cache p ccp hp ih =>
      obtain ⟨cc', hcc', hbec⟩ :=
        mergeEntries_spec (s := ⟨p, ccp, hp⟩) hv.1 hv.2
      obtain ⟨b, hb, hget⟩ := ih cc' h hbec.wf
      refine ⟨b, by simp only [flushAll.flushOnto, hcc', hb], ?_⟩
      calc CoinsBase.getCoin b = view ⟨p, cc', hp⟩ := hget
        _ = _ := hbec.view
        _ = _ := CCoinsViewCache.Wf.writtenBack (s := ⟨.cache p ccp hp, cc, h⟩) hv

end Refinement

/-- **Coin cache refinement.** From any base map, the stack of caches never faults on the operations
    that the callers may make and answers as the plain maps do; its entries are in documented states,
    and flushing all layers leaves the plain map of the top layer. -/
theorem coinsMachine_refines_plain (b : CoinsBaseMap) (ops : List CoinsOp)
    (hops : AbsGuarded plainStep CoinsOp.Allowed [b.coins] ops) :
    ∃ v, (coinsMachine CoinsBaseMap).run (.base b) ops =
        .ok ((absRun plainStep [b.coins] ops).1, v) ∧
      v.layers = (absRun plainStep [b.coins] ops).2 ∧ v.Documented ∧
      ∃ b', v.flushAll = .ok b' ∧
        (absRun plainStep [b.coins] ops).2.head? = some b'.coins := by
  obtain ⟨v, hrun, hwf, hlayers⟩ := run_refines
    (coinsMachine_step_refines CoinsBaseMap.writesBack) ops (.base b) [b.coins] ⟨b.unspent, rfl⟩ hops
  obtain ⟨b', hb', hget⟩ := flushAll_spec CoinsBaseMap.writesBack hwf
  refine ⟨v, hrun, hlayers, hwf.documented, b', hb', ?_⟩
  rw [← hlayers, v.head_layers, ← hget]
  rfl

/-- One coin added in a layer, spent in a layer above it, and flushed down. -/
def addSpendFlush : List CoinsOp :=
  let o : COutPoint := ⟨1, 0⟩
  let c : Coin := ⟨⟨coinUnit, []⟩, false, 1, false⟩
  [.push, .addCoin o c false, .push, .spendCoin o, .flush, .discard, .haveCoin o]

theorem coinsMachine_refines_plain_addSpendFlush :
    AbsGuarded plainStep CoinsOp.Allowed [CoinsBaseMap.empty.coins] addSpendFlush ∧
    ∃ v, (coinsMachine CoinsBaseMap).run (.base CoinsBaseMap.empty) addSpendFlush =
        .ok ([.done, .done, .done, .coin ⟨⟨coinUnit, []⟩, false, 1, false⟩, .done, .done,
          .have false], v) ∧ v.Documented := by
  have hops : AbsGuarded plainStep CoinsOp.Allowed [CoinsBaseMap.empty.coins]
      addSpendFlush := by
    simp [addSpendFlush, AbsGuarded, CoinsOp.Allowed, plainStep, CoinsBaseMap.empty,
      Coin.isSpent, CTxOut.isNull, coinUnit]
  obtain ⟨v, hrun, _, hdoc, _⟩ := coinsMachine_refines_plain CoinsBaseMap.empty addSpendFlush hops
  refine ⟨hops, v, hrun.trans ?_, hdoc⟩
  simp [addSpendFlush, absRun, plainStep, CoinMap.add, CScript.isUnspendable]

end Defcoin
