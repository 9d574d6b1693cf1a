import Defcoin.Coins.Cache

/-! # What a stack of cache layers means

  A stack of layers stands for a map from outpoints to unspent coins: the topmost entry decides, and
  without an entry the layers below do. The flags of an entry are facts about the map below its
  layer; `EntryOk` states them, and every operation of the cache keeps them.
-/

namespace Defcoin

open CCoinsCacheEntry FiniteMap CCoinsView AList Function Bool

/-- A plain map from outpoints to coins. -/
abbrev CoinMap := COutPoint → Option Coin

/-- The plain map after outpoint `o` was given the value `r`. -/
def CoinMap.set (m : CoinMap) (o : COutPoint) (r : Option Coin) : CoinMap := Function.update m o r

@[simp] theorem CoinMap.set_self (m : CoinMap) (o : COutPoint) (r : Option Coin) :
    m.set o r o = r := update_self ..

theorem CoinMap.set_ne (m : CoinMap) {o k : COutPoint} (h : k ≠ o) (r : Option Coin) :
    m.set o r k = m k := update_of_ne h ..

@[simp] theorem CoinMap.set_set (m : CoinMap) (o : COutPoint) (r r' : Option Coin) :
    (m.set o r).set o r' = m.set o r' := update_idem ..

theorem CoinMap.set_eq_self {m : CoinMap} {o : COutPoint} {r : Option Coin} (h : m o = r) :
    m.set o r = m := by
  subst h
  exact update_eq_self o m

variable {B : Type} [CoinsBase B]

/-- What a layer shows for an outpoint: the coin of its entry, or else what is below. -/
def CCoinsCacheEntry.shown (below : Option Coin) : Option CCoinsCacheEntry → Option Coin
  | some e => e.unspent?
  | none => below

@[simp] theorem CCoinsCacheEntry.shown_some (below : Option Coin) (e : CCoinsCacheEntry) :
    shown below (some e) = e.unspent? := rfl

@[simp] theorem CCoinsCacheEntry.shown_none (below : Option Coin) : shown below none = below := rfl

/-- The map a view stands for. -/
def CCoinsView.view : CCoinsView B → CoinMap
  | .base b => CoinsBase.getCoin b
  | .cache p cc _ => fun o => shown (p.view o) (cc.lookup o)

def CCoinsView.layers : CCoinsView B → List CoinMap
  | .base b => [CoinsBase.getCoin b]
  | .cache p cc h => (CCoinsView.cache p cc h).view :: p.layers

def CCoinsView.bottom : CCoinsView B → B
  | .base b => b
  | .cache p _ _ => p.bottom

/-- The states of an entry that `coins.h` documents as valid. -/
def CCoinsCacheEntry.documented (e : CCoinsCacheEntry) : Bool :=
  match e.coin.isSpent, e.fresh, e.dirty with
  | false, true, true => true
  | false, false, true => true
  | false, false, false => true
  | true, true, false => true
  | true, false, true => true
  | _, _, _ => false

/-- An entry is sound over what the map below its layer holds for the outpoint. -/
structure EntryOk (below : Option Coin) (e : CCoinsCacheEntry) : Prop where
  documented : e.documented = true
  /-- spent coins are cleared -/
  cleared : e.coin.isSpent = true → e.coin = coinEmpty
  fresh_below : e.fresh = true → below = none
  clean_below : e.dirty = false → e.unspent? = below

/-- Every entry of every layer is sound, and the base holds unspent coins only. -/
def CCoinsView.Wf : CCoinsView B → Prop
  | .base b => ∀ o c, CoinsBase.getCoin b o = some c → c.isSpent = false
  | .cache p cc _ => p.Wf ∧ ∀ o e, cc.lookup o = some e → EntryOk (p.view o) e

/-- The map the top layer stands for. -/
def CCoinsViewCache.view (s : CCoinsViewCache B) : CoinMap := s.toView.view

def CCoinsViewCache.Wf (s : CCoinsViewCache B) : Prop := s.toView.Wf

/-! ### Entries -/

namespace CCoinsCacheEntry

theorem unspent?_eq_some {e : CCoinsCacheEntry} {c : Coin} :
    e.unspent? = some c ↔ e.coin.isSpent = false ∧ e.coin = c := by
  unfold unspent?
  split <;> simp_all

theorem unspent?_eq_none {e : CCoinsCacheEntry} : e.unspent? = none ↔ e.coin.isSpent = true := by
  unfold unspent?
  split <;> simp_all

end CCoinsCacheEntry

theorem EntryOk.coin_eq {below : Option Coin} {e : CCoinsCacheEntry} (h : EntryOk below e) :
    e.coin = e.unspent?.getD coinEmpty := by
  unfold unspent?
  split
  · next hs => exact h.cleared hs
  · rfl

theorem EntryOk.fetched {tmp : Coin} (h : tmp.isSpent = false) :
    EntryOk (some tmp) (.fetched tmp) where
  documented := by simp [CCoinsCacheEntry.documented, CCoinsCacheEntry.fetched, h]
  cleared := by simp [CCoinsCacheEntry.fetched, h]
  fresh_below := by simp [CCoinsCacheEntry.fetched, h]
  clean_below := by simp [CCoinsCacheEntry.fetched, CCoinsCacheEntry.unspent?, h]

/-! ### Views -/

namespace CCoinsView

variable {cc : CCoinsMap} {p v : CCoinsView B} {o : COutPoint}

theorem view_cache_of_lookup {h : Uint256} {e : CCoinsCacheEntry} (hl : cc.lookup o = some e) :
    (cache p cc h).view o = e.unspent? := by
  simp [view, hl]

theorem view_cache_of_lookup_none {h : Uint256} (hl : cc.lookup o = none) :
    (cache p cc h).view o = p.view o := by
  simp [view, hl]

theorem head_layers (v : CCoinsView B) : v.layers = v.view :: v.layers.tail := by
  cases v <;> rfl

def BaseUnspent (v : CCoinsView B) : Prop :=
  ∀ o c, CoinsBase.getCoin v.bottom o = some c → c.isSpent = false

theorem BaseUnspent.unspent (hv : v.BaseUnspent) {c : Coin} (h : v.view o = some c) : c.isSpent = false := by
  induction v with
  | base b => exact hv o c h
  | cache p cc hb ih =>
    cases hl : cc.lookup o with
    | some e =>
      rw [view_cache_of_lookup hl] at h
      obtain ⟨hs, rfl⟩ := unspent?_eq_some.mp h
      exact hs
    | none =>
      rw [view_cache_of_lookup_none hl] at h
      exact ih hv h

theorem Wf.baseUnspent (hv : v.Wf) : v.BaseUnspent := by
  induction v with
  | base b => exact hv
  | cache p cc hb ih => exact ih hv.1

end CCoinsView

/-! ### Reading

    All that a read can do to a stack is to leave copies of coins in the
    layers above them. -/

/-- The entries a layer may have for an outpoint before and after reads, over what is below. -/
inductive Copied (below : Option Coin) : Option CCoinsCacheEntry → Option CCoinsCacheEntry → Prop where
  | same (r : Option CCoinsCacheEntry) : Copied below r r
  | fetched {tmp : Coin} : below = some tmp → tmp.isSpent = false → Copied below none (some (.fetched tmp))

namespace Copied
variable {below : Option Coin} {r r' r'' : Option CCoinsCacheEntry}

theorem shown_eq (h : Copied below r r') : shown below r' = shown below r := by
  cases h with
  | same r => rfl
  | fetched hb hu =>
    rw [hb]
    exact unspent?_eq_some.mpr ⟨hu, rfl⟩

theorem trans (h : Copied below r r') (h' : Copied below r' r'') : Copied below r r'' := by
  cases h with
  | same r => exact h'
  | fetched hb hu =>
    cases h' with
    | same r => exact .fetched hb hu

theorem eq_some {e : CCoinsCacheEntry} (h : Copied below (some e) r') : r' = some e := by
  cases h
  rfl

theorem entryOk (h : Copied below r r') (hr : ∀ e, r = some e → EntryOk below e) :
    ∀ e, r' = some e → EntryOk below e := by
  cases h with
  | same r => exact hr
  | fetched hb hu =>
    intro e he
    cases he
    rw [hb]
    exact EntryOk.fetched hu

end Copied

/-- `v'` is `v` after reads; the block hashes of the layers may have been looked up, too. -/
inductive CCoinsView.Reads : CCoinsView B → CCoinsView B → Prop where
  | base (b : B) : Reads (.base b) (.base b)
  | cache {p p' : CCoinsView B} {cc cc' : CCoinsMap} {h h' : Uint256} :
      Reads p p' → (∀ o, Copied (p.view o) (cc.lookup o) (cc'.lookup o)) →
      Reads (.cache p cc h) (.cache p' cc' h')

namespace CCoinsView.Reads
variable {v v' v'' : CCoinsView B}

theorem refl (v : CCoinsView B) : v.Reads v := by
  induction v with
  | base b => exact .base b
  | cache p cc h ih => exact .cache ih fun o => .same _

variable (h : v.Reads v')
include h

theorem view_eq : v'.view = v.view := by
  induction h with
  | base b => rfl
  | cache _ hcopy ih =>
    funext o
    simp only [view, ih]
    exact (hcopy o).shown_eq

theorem layers_eq : v'.layers = v.layers := by
  induction h with
  | base b => rfl
  | cache hp hcopy ih => exact congrArg₂ List.cons (view_eq (.cache hp hcopy)) ih

theorem bottom_eq : v'.bottom = v.bottom := by
  induction h with
  | base b => rfl
  | cache _ _ ih => exact ih

theorem trans (h' : v'.Reads v'') : v.Reads v'' := by
  induction h generalizing v'' with
  | base b => exact h'
  | cache hp hcopy ih =>
    cases h' with
    | cache hp' hcopy' =>
      rw [hp.view_eq] at hcopy'
      exact .cache (ih hp') fun o => (hcopy o).trans (hcopy' o)

theorem wf (hv : v.Wf) : v'.Wf := by
  induction h with
  | base b => exact hv
  | cache hp hcopy ih =>
    refine ⟨ih hv.1, ?_⟩
    rw [hp.view_eq]
    intro o
    exact (hcopy o).entryOk (hv.2 o)

end CCoinsView.Reads

/-- What `FetchCoin` does to a layer: it reads, and the outpoint then has an entry unless no layer
    has a coin for it. -/
structure FetchedFrom (s : CCoinsViewCache B) (o : COutPoint) (r : Option CCoinsCacheEntry)
    (s' : CCoinsViewCache B) : Prop where
  reads : s.toView.Reads s'.toView
  lookup_self : s'.cacheCoins.lookup o = r
  answer : r.bind unspent? = s.view o

namespace CCoinsViewCache

variable {e : CCoinsCacheEntry} {o : COutPoint} {s : CCoinsViewCache B}

theorem view_of_lookup (hl : s.cacheCoins.lookup o = some e) : s.view o = e.unspent? :=
  view_cache_of_lookup hl

theorem view_of_lookup_none (hl : s.cacheCoins.lookup o = none) : s.view o = s.base.view o :=
  view_cache_of_lookup_none hl

theorem Wf.entryOk (hs : s.Wf) (hl : s.cacheCoins.lookup o = some e) :
    EntryOk (s.base.view o) e := hs.2 o e hl

theorem fetchStep_spec (hs : s.base.BaseUnspent) (o : COutPoint) {base' : CCoinsView B}
    (hbase : s.base.Reads base') : FetchedFrom s o (s.fetchStep o (s.base.view o, base')).1
      (s.fetchStep o (s.base.view o, base')).2 := by
  obtain ⟨p, cc, h⟩ := s
  cases hl : cc.lookup o with
  | some e =>
    have hstep : fetchStep ⟨p, cc, h⟩ o (p.view o, base') = (some e, ⟨p, cc, h⟩) := by
      simp [fetchStep, hl]
    rw [hstep]
    exact ⟨.refl _, hl, (view_of_lookup hl).symm⟩
  | none =>
    have hshow : (⟨p, cc, h⟩ : CCoinsViewCache B).view o = p.view o := view_of_lookup_none hl
    cases hb : p.view o with
    | none =>
      have hstep : fetchStep ⟨p, cc, h⟩ o (none, base') = (none, ⟨base', cc, h⟩) := by
        simp [fetchStep, hl]
      rw [hstep]
      exact ⟨.cache hbase fun k => .same _, hl, by rw [hshow, hb]; rfl⟩
    | some tmp =>
      have hunspent := BaseUnspent.unspent hs hb
      have hstep : fetchStep ⟨p, cc, h⟩ o (some tmp, base') =
          (some (.fetched tmp), ⟨base', cc.insert o (.fetched tmp), h⟩) := by
        simp [fetchStep, hl]
      rw [hstep]
      refine ⟨.cache hbase ?_, lookup_insert cc, ?_⟩
      · intro k
        by_cases hk : k = o
        · subst hk
          rw [hl, lookup_insert]
          exact .fetched hb hunspent
        · rw [lookup_insert_ne hk]
          exact .same _
      · rw [hshow, hb]
        exact unspent?_eq_some.mpr ⟨hunspent, rfl⟩

end CCoinsViewCache

theorem CCoinsView.getCoin_reads {v : CCoinsView B} (hv : v.BaseUnspent) (o : COutPoint) :
    (v.getCoin o).1 = v.view o ∧ v.Reads (v.getCoin o).2 := by
  induction v with
  | base b => exact ⟨rfl, .base b⟩
  | cache p cc h ih =>
    obtain ⟨hans, hreads⟩ := ih hv
    have hpair : p.getCoin o = (p.view o, (p.getCoin o).2) := Prod.ext hans rfl
    have hstep := CCoinsViewCache.fetchStep_spec (s := ⟨p, cc, h⟩) hv o hreads
    rw [getCoin, hpair]
    exact ⟨hstep.answer, hstep.reads⟩

theorem CCoinsView.getBestBlock_reads (v : CCoinsView B) : v.Reads v.getBestBlock.2 := by
  induction v with
  | base b => exact .base b
  | cache p cc h ih =>
    unfold getBestBlock
    split
    · exact .cache ih fun o => .same _
    · exact .refl _

namespace CCoinsViewCache

def Reads (s s' : CCoinsViewCache B) : Prop := s.toView.Reads s'.toView

def BaseUnspent (s : CCoinsViewCache B) : Prop := s.toView.BaseUnspent

variable {s s' : CCoinsViewCache B}

theorem Wf.baseUnspent (hs : s.Wf) : s.BaseUnspent :=
  CCoinsView.Wf.baseUnspent hs

theorem Reads.refl (s : CCoinsViewCache B) : s.Reads s := CCoinsView.Reads.refl _

theorem Reads.trans {s'' : CCoinsViewCache B} (h : s.Reads s') (h' : s'.Reads s'') :
    s.Reads s'' := CCoinsView.Reads.trans h h'

theorem Reads.view_eq (h : s.Reads s') : s'.view = s.view :=
  CCoinsView.Reads.view_eq h

theorem Reads.baseUnspent (h : s.Reads s') (hs : s.BaseUnspent) : s'.BaseUnspent := by
  unfold BaseUnspent CCoinsView.BaseUnspent
  rw [CCoinsView.Reads.bottom_eq h]
  exact hs

theorem Reads.parts (h : s.Reads s') :
    s.base.Reads s'.base ∧ ∀ o, Copied (s.base.view o) (s.cacheCoins.lookup o) (s'.cacheCoins.lookup o) := by
  cases h with
  | cache hp hcopy => exact ⟨hp, hcopy⟩

section
variable (hs : s.BaseUnspent) (o : COutPoint)
include hs o

theorem fetchCoin_spec : FetchedFrom s o (s.fetchCoin o).1 (s.fetchCoin o).2 := by
  have hbase : s.base.BaseUnspent := hs
  obtain ⟨hans, hreads⟩ := getCoin_reads hbase o
  have hpair : s.base.getCoin o = (s.base.view o, (s.base.getCoin o).2) := Prod.ext hans rfl
  rw [fetchCoin, hpair]
  exact fetchStep_spec hbase o hreads

theorem haveCoin_reads : (s.haveCoin o).1 = (s.view o).isSome ∧ s.Reads (s.haveCoin o).2 := by
  have hf := fetchCoin_spec hs o
  refine ⟨?_, hf.reads⟩
  rw [← hf.answer, haveCoin]
  cases (s.fetchCoin o).1 with
  | none => rfl
  | some e => cases h : e.coin.isSpent <;> simp [unspent?, h]

theorem accessCoin_reads :
    ((s.accessCoin o).1.isSpent = false → s.view o = some (s.accessCoin o).1) ∧
      s.Reads (s.accessCoin o).2 := by
  have hf := fetchCoin_spec hs o
  refine ⟨?_, hf.reads⟩
  rw [← hf.answer, accessCoin]
  cases (s.fetchCoin o).1 with
  | none =>
    intro h
    cases h
  | some e =>
    intro h
    exact unspent?_eq_some.mpr ⟨h, rfl⟩

end

theorem getBestBlock_reads (s : CCoinsViewCache B) : s.Reads s.getBestBlock.2 := by
  unfold getBestBlock
  split
  · exact .cache (CCoinsView.getBestBlock_reads s.base) fun o => .same _
  · exact .refl s

end CCoinsViewCache

/-! ### Operations on the top layer -/

namespace CCoinsViewCache

/-- The layer `s` has become `s'`, which stands for the map `m`; the layers below stand for the same
    maps as before. -/
structure Becomes (s s' : CCoinsViewCache B) (m : CoinMap) : Prop where
  wf : s'.Wf
  view : s'.view = m
  layers_base : s'.base.layers = s.base.layers
  bottom : s'.base.bottom = s.base.bottom

/-- Nothing of the layers below shows through at `o`, and it stays so: they have no coin there, or the
    layer has an entry that spending does not remove. -/
def Covered (s : CCoinsViewCache B) (o : COutPoint) : Prop :=
  s.base.view o = none ∨ ∃ e, s.cacheCoins.lookup o = some e ∧ e.fresh = false

/-- As `Becomes`, for the operations that never uncover an outpoint. -/
structure Steps (s s' : CCoinsViewCache B) (m : CoinMap) : Prop extends Becomes s s' m where
  covered : ∀ o, s.Covered o → s'.Covered o

variable {o : COutPoint} {s s' : CCoinsViewCache B}

theorem Steps.refl (hs : s.Wf) : Steps s s s.view :=
  ⟨⟨hs, rfl, rfl, rfl⟩, fun _ h => h⟩

theorem Steps.trans {s'' : CCoinsViewCache B} {m m' : CoinMap} (h : Steps s s' m) (h' : Steps s' s'' m') :
    Steps s s'' m' :=
  ⟨⟨h'.wf, h'.view, h'.layers_base.trans h.layers_base, h'.bottom.trans h.bottom⟩, fun o ho => h'.covered o (h.covered o ho)⟩

theorem covered_of_view_eq_none (hs : s.Wf) (h : s.view o = none) : s.Covered o := by
  cases hl : s.cacheCoins.lookup o with
  | none => exact .inl (view_of_lookup_none hl ▸ h)
  | some e =>
    cases hf : e.fresh with
    | true => exact .inl ((hs.entryOk hl).fresh_below hf)
    | false => exact .inr ⟨e, hl, hf⟩

theorem view_eq_none_of_covered (h : s.Covered o) (hl : s.cacheCoins.lookup o = none) : s.view o = none := by
  rcases h with hb | ⟨_, he, _⟩
  · rw [view_of_lookup_none hl, hb]
  · rw [hl] at he
    cases he

theorem Reads.steps (h : s.Reads s') (hs : s.Wf) : Steps s s' s.view := by
  obtain ⟨hbase, hcopy⟩ := h.parts
  refine ⟨⟨Reads.wf h hs, h.view_eq, hbase.layers_eq, hbase.bottom_eq⟩, ?_⟩
  rintro k (hb | ⟨e, he, hf⟩)
  · exact .inl (hbase.view_eq ▸ hb)
  · have hk := hcopy k
    rw [he] at hk
    exact .inr ⟨e, hk.eq_some, hf⟩

theorem view_of_lookup_ne {r : Option Coin} (hbase : s'.base.view = s.base.view)
    (hne : ∀ k, k ≠ o → s'.cacheCoins.lookup k = s.cacheCoins.lookup k) (ho : s'.view o = r) :
    s'.view = s.view.set o r := by
  funext k
  by_cases hk : k = o
  · subst hk
    rw [ho, CoinMap.set_self]
  · rw [CoinMap.set_ne _ hk]
    simp only [view, toView, CCoinsView.view, hbase, hne k hk]

variable (hs : s.Wf)
include hs

variable (o : COutPoint)

theorem put_becomes {r : Option CCoinsCacheEntry}
    (hr : ∀ e, r = some e → EntryOk (s.base.view o) e) :
    Becomes s { s with cacheCoins := put s.cacheCoins o r }
      (s.view.set o (shown (s.base.view o) r)) := by
  refine ⟨⟨hs.1, ?_⟩, view_of_lookup_ne rfl (fun k hk => lookup_put_ne _ hk r) ?_, rfl, rfl⟩
  · intro k e hk
    by_cases hko : k = o
    · subst hko
      rw [lookup_put_self] at hk
      exact hr e hk
    · rw [lookup_put_ne _ hko] at hk
      exact hs.2 k e hk
  · cases r with
    | some e => exact view_of_lookup (lookup_put_self _ o (some e))
    | none => exact view_of_lookup_none (lookup_put_self _ o none)

theorem getCoin_spec :
    (s.getCoin o).1 = s.view o ∧ Steps s (s.getCoin o).2 s.view := by
  have hf := fetchCoin_spec hs.baseUnspent o
  exact ⟨hf.answer, Reads.steps hf.reads hs⟩

theorem haveCoin_spec :
    (s.haveCoin o).1 = (s.view o).isSome ∧ Steps s (s.haveCoin o).2 s.view := by
  obtain ⟨hans, hreads⟩ := haveCoin_reads hs.baseUnspent o
  exact ⟨hans, hreads.steps hs⟩

theorem accessCoin_spec :
    (s.accessCoin o).1 = (s.view o).getD coinEmpty ∧ Steps s (s.accessCoin o).2 s.view := by
  have hf := fetchCoin_spec hs.baseUnspent o
  have hsteps := Reads.steps hf.reads hs
  refine ⟨?_, hsteps⟩
  rw [← hf.answer, accessCoin]
  cases h : (s.fetchCoin o).1 with
  | none => rfl
  | some e => exact (hsteps.wf.entryOk (hf.lookup_self.trans h)).coin_eq

theorem setBestBlock_spec (h : Uint256) : Steps s (s.setBestBlock h) s.view :=
  ⟨⟨hs, rfl, rfl, rfl⟩, fun _ h => h⟩

end CCoinsViewCache

/-- The plain map after a coin was added: unspendable outputs are not kept. -/
def CoinMap.add (m : CoinMap) (o : COutPoint) (c : Coin) : CoinMap :=
  if c.out.scriptPubKey.isUnspendable then m else m.set o (some c)

namespace CCoinsViewCache

omit [CoinsBase B] in
theorem emplaced_cases (s : CCoinsViewCache B) (o : COutPoint) :
    s.cacheCoins.lookup o = some (s.emplaced o) ∨
    (s.cacheCoins.lookup o = none ∧ s.emplaced o = ⟨coinEmpty, false, false⟩) := by
  unfold emplaced
  cases s.cacheCoins.lookup o with
  | some e => exact .inl rfl
  | none => exact .inr ⟨rfl, rfl⟩

variable {c : Coin} {ow : Bool} {o : COutPoint} {s : CCoinsViewCache B}

theorem addCoin_fresh_below (hs : s.Wf) (ho : ow = false → s.view o = none)
    (hfresh : ((s.emplaced o).fresh || (!ow && !(s.emplaced o).dirty)) = true) :
    s.base.view o = none := by
  simp only [or_eq_true, and_eq_true, not_eq_true'] at hfresh
  rcases emplaced_cases s o with hl | ⟨hl, hnew⟩
  · rcases hfresh with hf | ⟨how, hd⟩
    · exact (hs.entryOk hl).fresh_below hf
    · rw [← (hs.entryOk hl).clean_below hd, ← view_of_lookup hl]
      exact ho how
  · rw [hnew] at hfresh
    rcases hfresh with hf | ⟨how, _⟩
    · cases hf
    · rw [← view_of_lookup_none hl]
      exact ho how

theorem addCoin_fresh_covered (hs : s.Wf) {e : CCoinsCacheEntry} (ho : ow = false → s.view o = none)
    (hl : s.cacheCoins.lookup o = some e) (hf : e.fresh = false) :
    ((s.emplaced o).fresh || (!ow && !(s.emplaced o).dirty)) = false := by
  have hem : s.emplaced o = e := by simp [emplaced, hl]
  rw [hem, hf]
  cases ow with
  | true => rfl
  | false =>
    -- the entry is spent and not FRESH, so the only documented state left is DIRTY
    have hspent := unspent?_eq_none.mp (view_of_lookup hl ▸ ho rfl)
    have hdoc := (hs.entryOk hl).documented
    cases hd : e.dirty with
    | true => rfl
    | false => simp [documented, hspent, hf, hd] at hdoc

theorem addCoin_spec (hs : s.Wf) (hc : c.isSpent = false) (ho : ow = false → s.view o = none) :
    ∃ s', s.addCoin o c ow = .ok s' ∧ Steps s s' (s.view.add o c) := by
  unfold addCoin CoinMap.add
  rw [if_neg (by simp [hc])]
  cases hu : c.out.scriptPubKey.isUnspendable with
  | true => exact ⟨s, rfl, Steps.refl hs⟩
  | false =>
    have hthrow : (!ow && !(s.emplaced o).coin.isSpent) = false := by
      cases how : ow with
      | true => rfl
      | false =>
        have hspent : (s.emplaced o).coin.isSpent = true := by
          rcases emplaced_cases s o with hl | ⟨_, hnew⟩
          · exact unspent?_eq_none.mp (view_of_lookup hl ▸ ho how)
          · rw [hnew]
            rfl
        simp [hspent]
    simp only [hthrow]
    refine ⟨_, rfl, ?_⟩
    -- the entry written, and what it is over the layers below
    generalize he : (⟨c, true, (s.emplaced o).fresh || (!ow && !(s.emplaced o).dirty)⟩ :
      CCoinsCacheEntry) = e
    have hok : EntryOk (s.base.view o) e := by
      subst he
      refine ⟨?_, ?_, addCoin_fresh_below hs ho, ?_⟩
      · cases (s.emplaced o).fresh || (!ow && !(s.emplaced o).dirty) <;>
          simp [documented, hc]
      · simp [hc]
      · simp
    have hval : e.unspent? = some c := by
      subst he
      exact unspent?_eq_some.mpr ⟨hc, rfl⟩
    have hput := put_becomes hs o (by
      intro e' he'
      obtain rfl := Option.some.inj he'
      exact hok)
    simp only [shown_some, hval] at hput
    refine ⟨hput, ?_⟩
    rintro k (hb | ⟨e', he', hf'⟩)
    · exact .inl hb
    · by_cases hk : k = o
      · subst hk
        refine .inr ⟨e, lookup_insert _, ?_⟩
        subst he
        exact addCoin_fresh_covered hs ho he' hf'
      · exact .inr ⟨e', (lookup_insert_ne hk).trans he', hf'⟩

/-- `AddCoin` without `possible_overwrite` throws on every coin the layer itself shows: if it
    returns where nothing below shows through, the map had no coin. -/
theorem view_eq_none_of_addCoin {s' : CCoinsViewCache B} (hcov : s.Covered o)
    (hu : c.out.scriptPubKey.isUnspendable = false) (h : s.addCoin o c false = .ok s') : s.view o = none := by
  unfold addCoin at h
  split at h
  · cases h
  · simp only [hu, Bool.false_eq_true, if_false] at h
    split at h
    · cases h
    · next hspent =>
      rcases emplaced_cases s o with hl | ⟨hl, _⟩
      · rw [view_of_lookup hl]
        exact unspent?_eq_none.mpr (by simpa using hspent)
      · exact view_eq_none_of_covered hcov hl

omit [CoinsBase B] in
theorem not_isSpent_of_addCoin {s s' : CCoinsViewCache B} {o : COutPoint} {c : Coin} {ow : Bool}
    (h : s.addCoin o c ow = .ok s') : c.isSpent = false := by
  unfold addCoin at h
  split at h
  · cases h
  · next hspent => simpa using hspent

theorem spendCoin_of_fetchCoin {e : CCoinsCacheEntry} {s' : CCoinsViewCache B}
    (h : s.fetchCoin o = (some e, s')) : s.spendCoin o = (some e.coin,
      { s' with cacheCoins := put s'.cacheCoins o (if e.fresh then none else some ⟨coinEmpty, true, false⟩) }) := by
  rw [spendCoin, h]
  cases hf : e.fresh <;> simp [put, hf]

theorem spendCoin_spec (hs : s.Wf) (o : COutPoint) :
    (s.spendCoin o).1.getD coinEmpty = (s.view o).getD coinEmpty ∧
    (∀ c, s.view o = some c → (s.spendCoin o).1 = some c) ∧
    Steps s (s.spendCoin o).2 (s.view.set o none) := by
  have hf := fetchCoin_spec hs.baseUnspent o
  have hfetch := Reads.steps hf.reads hs
  rcases hr : s.fetchCoin o with ⟨_ | e, _⟩
  · rw [hr] at hf hfetch
    have hnone : s.view o = none := hf.answer.symm
    rw [spendCoin, hr, CoinMap.set_eq_self hnone]
    exact ⟨by rw [hnone], by simp [hnone], hfetch⟩
  · rw [spendCoin_of_fetchCoin hr]
    rw [hr] at hf hfetch
    have hok := hfetch.wf.entryOk hf.lookup_self
    have hcoin : e.coin = (s.view o).getD coinEmpty := hf.answer ▸ hok.coin_eq
    refine ⟨hcoin, fun c hc => ?_, hfetch.trans ⟨?_, ?_⟩⟩
    · rw [hcoin, hc]
      rfl
    · have hput := put_becomes hfetch.wf o (r := if e.fresh then none else some ⟨coinEmpty, true, false⟩) (by
        intro e' he'
        split at he' <;> cases he'
        exact ⟨rfl, fun _ => rfl, nofun, nofun⟩)
      rw [hfetch.view] at hput
      cases hfr : e.fresh with
      | true => simpa [hfr, hok.fresh_below hfr] using hput
      | false => simpa [hfr, unspent?] using hput
    · rintro k (hb | ⟨e', he', hf'⟩)
      · exact .inl hb
      · by_cases hk : k = o
        · subst hk
          obtain rfl := Option.some.inj (hf.lookup_self.symm.trans he')
          exact .inr ⟨_, by rw [hf', lookup_put_self]; rfl, rfl⟩
        · exact .inr ⟨e', (lookup_put_ne _ hk _).trans he', hf'⟩

theorem uncache_spec (hs : s.Wf) (o : COutPoint) : Becomes s (s.uncache o) s.view := by
  unfold uncache
  cases hl : s.cacheCoins.lookup o with
  | none => exact (Steps.refl hs).toBecomes
  | some e =>
    by_cases hflags : (!e.dirty && !e.fresh) = true
    · have hput := put_becomes hs o (r := none) (by simp)
      simp only [and_eq_true, not_eq_true'] at hflags
      simp only [shown_none, ← (hs.entryOk hl).clean_below hflags.1] at hput
      rw [CoinMap.set_eq_self (view_of_lookup hl)] at hput
      simp only [hflags.1, hflags.2]
      exact hput
    · simp only [hflags]
      exact (Steps.refl hs).toBecomes

end CCoinsViewCache

/-! ### Writing back -/

/-- The map after the dirty entries of `m` were written into it. -/
def CoinMap.writtenBack (below : CoinMap) (m : CCoinsMap) : CoinMap := fun o =>
  match m.lookup o with
  | some e => if e.dirty then e.unspent? else below o
  | none => below o

theorem CCoinsViewCache.Wf.writtenBack {s : CCoinsViewCache B} (hs : s.Wf) :
    s.base.view.writtenBack s.cacheCoins = s.view := by
  funext o
  unfold CoinMap.writtenBack
  cases hl : s.cacheCoins.lookup o with
  | none => exact (view_of_lookup_none hl).symm
  | some e =>
    rw [view_of_lookup hl]
    cases hd : e.dirty with
    | true => simp [hd]
    | false => simpa [hd] using ((hs.entryOk hl).clean_below hd).symm

/-- The entry a merge leaves, as a total function for the entries a cache can hold. -/
def CCoinsCacheEntry.merged (itUs : Option CCoinsCacheEntry) (it : CCoinsCacheEntry) :
    Option CCoinsCacheEntry :=
  match merge itUs it with
  | .ok r => r
  | .error _ => none

/-- **The merge table**: an entry sound over the parent's map merges into the parent without a
    `logic_error`; the result is sound over the map below, and shows the child's coin if the child's
    entry was dirty. -/
theorem EntryOk.merge {below : Option Coin} {us : Option CCoinsCacheEntry} {e : CCoinsCacheEntry}
    (hus : ∀ e', us = some e' → EntryOk below e') (he : EntryOk (shown below us) e) :
    CCoinsCacheEntry.merge us e = .ok (merged us e) ∧
    (∀ e', merged us e = some e' → EntryOk below e') ∧ shown below (merged us e) =
      if e.dirty then e.unspent? else shown below us := by
  have hdoc := he.documented
  cases hd : e.dirty with
  | false =>
    have hm : CCoinsCacheEntry.merge us e = .ok us := by simp [CCoinsCacheEntry.merge, hd]
    simp only [merged, hm]
    exact ⟨trivial, hus, by simp⟩
  | true =>
    cases us with
    | none =>
      -- a dirty entry is never both spent and FRESH, so it is created in the parent
      have hkeep : (e.fresh && e.coin.isSpent) = false := by
        cases hf : e.fresh <;> cases hs : e.coin.isSpent <;>
          simp [CCoinsCacheEntry.documented, hd, hf, hs] at hdoc ⊢
      have hm : CCoinsCacheEntry.merge none e = .ok (some ⟨e.coin, true, e.fresh⟩) := by
        simp [CCoinsCacheEntry.merge, hd, hkeep]
      simp only [merged, hm]
      refine ⟨trivial, ?_, by simp [CCoinsCacheEntry.unspent?]⟩
      intro e' he'
      obtain rfl := Option.some.inj he'
      refine ⟨?_, he.cleared, he.fresh_below, by simp⟩
      simpa [CCoinsCacheEntry.documented, hd] using hdoc
    | some u =>
      have hu := hus u rfl
      have hfresh : (e.fresh && !u.coin.isSpent) = false := by
        cases hf : e.fresh with
        | false => rfl
        | true =>
          have hspent := unspent?_eq_none.mp (he.fresh_below hf)
          simp [hspent]
      cases hdel : u.fresh && e.coin.isSpent with
      | true =>
        have hm : CCoinsCacheEntry.merge (some u) e = .ok none := by
          simp only [CCoinsCacheEntry.merge, hd, hfresh, hdel]
          rfl
        simp only [and_eq_true] at hdel
        simp only [merged, hm]
        refine ⟨trivial, by simp, ?_⟩
        simp only [hu.fresh_below hdel.1]
        exact (unspent?_eq_none.mpr hdel.2).symm
      | false =>
        have hm : CCoinsCacheEntry.merge (some u) e = .ok (some { u with coin := e.coin, dirty := true }) := by
          simp only [CCoinsCacheEntry.merge, hd, hfresh, hdel]
          rfl
        simp only [merged, hm]
        refine ⟨trivial, ?_, by simp [CCoinsCacheEntry.unspent?]⟩
        intro e' he'
        obtain rfl := Option.some.inj he'
        refine ⟨?_, he.cleared, hu.fresh_below, by simp⟩
        cases hf : u.fresh <;> cases hs : e.coin.isSpent <;>
          simp [CCoinsCacheEntry.documented, hf, hs] at hdel ⊢

theorem CCoinsViewCache.mergeEntries_spec {s : CCoinsViewCache B} (hs : s.Wf) {m : CCoinsMap}
    (hm : ∀ o e, m.lookup o = some e → EntryOk (s.view o) e) :
    ∃ cc', FiniteMap.mergeEntries merge s.cacheCoins m.entries = .ok cc' ∧
      Becomes s { s with cacheCoins := cc' } (s.view.writtenBack m) := by
  have hview : ∀ o, s.view o = shown (s.base.view o) (s.cacheCoins.lookup o) :=
    fun o => rfl
  have hmerge : ∀ o e, m.lookup o = some e → _ := fun o e he =>
    EntryOk.merge (fun e' he' => hs.2 o e' he') (hview o ▸ hm o e he)
  obtain ⟨cc', hcc', hlook⟩ := FiniteMap.mergeEntries_spec merge
    merged m.entries s.cacheCoins m.nodupKeys
    (fun o e hmem => (hmerge o e (mem_lookup_iff.mpr hmem)).1)
  refine ⟨cc', hcc', ⟨hs.1, ?_⟩, ?_, rfl, rfl⟩
  · intro o e he
    have ho := hlook o
    rw [he] at ho
    cases hmo : m.lookup o with
    | none =>
      rw [FiniteMap.dlookup_entries, hmo] at ho
      exact hs.2 o e ho.symm
    | some e₀ =>
      rw [FiniteMap.dlookup_entries, hmo] at ho
      exact (hmerge o e₀ hmo).2.1 e ho.symm
  · funext o
    show shown (s.base.view o) (cc'.lookup o) = _
    rw [hlook o, FiniteMap.dlookup_entries, CoinMap.writtenBack]
    cases hmo : m.lookup o with
    | none => rfl
    | some e₀ => exact (hmerge o e₀ hmo).2.2

end Defcoin
