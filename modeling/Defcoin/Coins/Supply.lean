import Defcoin.Coins.View
import Defcoin.Framework.FiniteSum
import Defcoin.Framework.Outcome

/-! # What the coins of a stack are worth

  The sum of all unspent outputs of a stack of layers over a finite map.

  Where duplicate transactions are not ruled out, a FRESH flag can be wrong, and the coin below that
  it denies shows again when the entry is erased. `worth` counts such a coin as well.
-/

namespace Defcoin

open FiniteMap Outcome CCoinsCacheEntry CCoinsView

/-! ### A finite base -/

/-- A base that keeps its coins in a finite map, with the best block. -/
structure CoinsTable where
  coins : AList (fun _ : COutPoint => Coin)
  hashBlock : Uint256

namespace CoinsTable

def writeCoin (coin : Option Coin) (e : CCoinsCacheEntry) : Except Fault (Option Coin) :=
  .ok (if e.dirty then e.unspent? else coin)

def batchWrite (t : CoinsTable) (mapCoins : CCoinsMap) (hashBlock : Uint256) : Except Fault CoinsTable := do
  let coins ← mergeEntries writeCoin t.coins mapCoins.entries
  pure { coins, hashBlock }

def empty : CoinsTable where
  coins := ∅
  hashBlock := 0

end CoinsTable

instance : CoinsBase CoinsTable where
  getCoin t o := t.coins.lookup o
  getBestBlock t := t.hashBlock
  batchWrite := CoinsTable.batchWrite

/-- The value of an unspent output, 0 if there is none. -/
def valueOf : Option Coin → Int
  | some c => c.out.nValue
  | none => 0

@[simp] theorem valueOf_some (c : Coin) : valueOf (some c) = c.out.nValue := rfl

@[simp] theorem valueOf_none : valueOf none = 0 := rfl

theorem weight_eq_valueOf (o : COutPoint) (r : Option Coin) : weight (fun _ c => c.out.nValue) o r = valueOf r := by
  cases r <;> rfl

def CCoinsView.utxoSet : CCoinsView CoinsTable → AList (fun _ : COutPoint => Coin)
  | .base t => t.coins
  | .cache p cc _ => cc.entries.foldl (fun m e => put m e.1 e.2.unspent?) p.utxoSet

def CCoinsView.supply (v : CCoinsView CoinsTable) : Int := total (fun _ c => c.out.nValue) v.utxoSet

theorem CCoinsView.lookup_utxoSet (v : CCoinsView CoinsTable) (o : COutPoint) :
    v.utxoSet.lookup o = v.view o := by
  induction v with
  | base t => rfl
  | cache p cc h ih =>
    have hfold := foldl_entries_spec (fun m o e => put m o (unspent? e))
      (fun m o => m.lookup o) (fun _ _ => True) (fun _ _ e => unspent? e)
      (by
        intro m k e _
        exact ⟨lookup_put_self m k _, fun k' hk' => lookup_put_ne m hk' _⟩)
      cc.entries p.utxoSet cc.nodupKeys (fun _ _ _ => trivial) o
    rw [utxoSet, hfold, ih]
    rw [dlookup_entries]
    cases hl : cc.lookup o with
    | none => exact (view_cache_of_lookup_none hl).symm
    | some e => exact (view_cache_of_lookup hl).symm

/-! ### Fair stacks -/

/-- What is kept of an entry even where FRESH flags are wrong: a clean entry is a copy, and unspent
    coins have values in range. -/
structure FairEntry (below : Option Coin) (e : CCoinsCacheEntry) : Prop where
  clean : e.dirty = false → e.fresh = false ∧ e.unspent? = below
  range : ∀ c, e.unspent? = some c → moneyRange c.out.nValue = true

theorem FairEntry.value_nonneg {below : Option Coin} {e : CCoinsCacheEntry}
    (h : FairEntry below e) : 0 ≤ valueOf e.unspent? := by
  cases he : e.unspent? with
  | none => exact le_rfl
  | some c => exact (moneyRange_iff.mp (h.range c he)).1

def CCoinsView.Fair : CCoinsView CoinsTable → Prop
  | .base t => ∀ o c, t.coins.lookup o = some c → moneyRange c.out.nValue = true
  | .cache p cc _ => p.Fair ∧ ∀ o e, cc.lookup o = some e → FairEntry (p.view o) e

def entryWorth (below : CoinMap) (o : COutPoint) (e : CCoinsCacheEntry) : Int :=
  valueOf e.unspent? - if e.fresh then 0 else valueOf (below o)

def CCoinsView.worth : CCoinsView CoinsTable → Int
  | .base t => total (fun _ c => c.out.nValue) t.coins
  | .cache p cc _ => p.worth + total (entryWorth p.view) cc

namespace CCoinsView
variable {v v' : CCoinsView CoinsTable}

theorem Fair.range (hv : v.Fair) {o : COutPoint} {c : Coin} (h : v.view o = some c) :
    moneyRange c.out.nValue = true := by
  induction v with
  | base t => exact hv o c h
  | cache p cc hb ih =>
    cases hl : cc.lookup o with
    | some e =>
      rw [view_cache_of_lookup hl] at h
      exact (hv.2 o e hl).range c h
    | none =>
      rw [view_cache_of_lookup_none hl] at h
      exact ih hv.1 h

theorem Fair.value_nonneg (hv : v.Fair) (o : COutPoint) : 0 ≤ valueOf (v.view o) := by
  cases h : v.view o with
  | none => exact le_rfl
  | some c => exact (moneyRange_iff.mp (hv.range h)).1

theorem Fair.baseUnspent (hv : v.Fair) : v.BaseUnspent := by
  induction v with
  | base t =>
    intro o c h
    have hrange := moneyRange_iff.mp (hv o c h)
    show (c.out.nValue == -1) = false
    rw [beq_eq_false_iff_ne]
    omega
  | cache p cc hb ih => exact ih hv.1

theorem Fair.supply_le_worth (hv : v.Fair) : v.supply ≤ v.worth := by
  induction v with
  | base t => exact le_rfl
  | cache p cc h ih =>
    have hsum : (cache p cc h).supply ≤ p.supply + total (entryWorth p.view) cc := by
      apply total_le_add
      intro o
      rw [lookup_utxoSet, lookup_utxoSet]
      have hp := hv.1.value_nonneg o
      rw [weight_eq_valueOf, weight_eq_valueOf]
      cases hl : cc.lookup o with
      | none =>
        rw [view_cache_of_lookup_none hl, weight_none]
        omega
      | some e =>
        rw [view_cache_of_lookup hl, weight_some, entryWorth]
        split <;> omega
    have := ih hv.1
    rw [worth]
    omega

theorem Reads.fair (h : v.Reads v') (hv : v.Fair) : v'.Fair := by
  induction h with
  | base b => exact hv
  | cache hp hcopy ih =>
    refine ⟨ih hv.1, ?_⟩
    rw [hp.view_eq]
    intro o e he
    have hc := hcopy o
    rw [he] at hc
    generalize hr : AList.lookup o _ = r at hc
    cases hc with
    | same => exact hv.2 o e hr
    | fetched hb hu =>
      rename_i tmp
      have hun : (fetched tmp).unspent? = some tmp :=
        unspent?_eq_some.mpr ⟨hu, rfl⟩
      refine ⟨fun _ => ⟨hu, by rw [hun, hb]⟩, ?_⟩
      intro c hcoin
      rw [hun] at hcoin
      cases hcoin
      exact hv.1.range hb

theorem Reads.worth_eq (h : v.Reads v') : v'.worth = v.worth := by
  induction h with
  | base b => rfl
  | cache hp hcopy ih =>
    rw [worth, hp.view_eq]
    congr 1
    apply total_congr
    intro o
    have hc := hcopy o
    generalize AList.lookup o _ = r at hc
    generalize AList.lookup o _ = r' at hc
    cases hc with
    | same => rfl
    | fetched hb hu =>
      -- a copy adds what it hides
      rename_i tmp
      have hun : (fetched tmp).unspent? = some tmp :=
        unspent?_eq_some.mpr ⟨hu, rfl⟩
      have hfresh : (fetched tmp).fresh = false := hu
      simp [entryWorth, hun, hfresh, hb]

end CCoinsView

/-! ### Adding and spending -/

namespace CCoinsViewCache
variable {s s' : CCoinsViewCache CoinsTable}

def Fair (s : CCoinsViewCache CoinsTable) : Prop := s.toView.Fair

def worth (s : CCoinsViewCache CoinsTable) : Int := s.toView.worth

theorem Fair.baseUnspent (hs : s.Fair) : s.BaseUnspent := CCoinsView.Fair.baseUnspent hs

theorem Reads.fair (h : s.Reads s') (hs : s.Fair) : s'.Fair := CCoinsView.Reads.fair h hs

theorem Reads.worth_eq (h : s.Reads s') : s'.worth = s.worth := CCoinsView.Reads.worth_eq h

theorem Fair.put (hs : s.Fair) (o : COutPoint) {r : Option CCoinsCacheEntry}
    (hr : ∀ e, r = some e → FairEntry (s.base.view o) e) :
    Fair { s with cacheCoins := put s.cacheCoins o r } ∧
      worth { s with cacheCoins := put s.cacheCoins o r } =
        s.worth - weight (entryWorth s.base.view) o (s.cacheCoins.lookup o) +
          weight (entryWorth s.base.view) o r ∧
      ∀ k, k ≠ o → view { s with cacheCoins := put s.cacheCoins o r } k = s.view k := by
  refine ⟨⟨hs.1, ?_⟩, ?_, ?_⟩
  · intro k e hk
    by_cases hko : k = o
    · subst hko
      rw [lookup_put_self] at hk
      exact hr e hk
    · rw [lookup_put_ne _ hko] at hk
      exact hs.2 k e hk
  · show s.base.worth + total (entryWorth s.base.view) (FiniteMap.put s.cacheCoins o r) =
      s.base.worth + total (entryWorth s.base.view) s.cacheCoins - _ + _
    rw [total_put]
    omega
  · intro k hk
    simp only [view, toView, CCoinsView.view, lookup_put_ne _ hk]

theorem addCoin_fair (hs : s.Fair) {o : COutPoint} {c : Coin} {ow : Bool}
    (hrange : moneyRange c.out.nValue = true) (h : s.addCoin o c ow = .ok s') :
    s'.Fair ∧ s'.worth ≤ s.worth + (if c.out.scriptPubKey.isUnspendable then 0 else c.out.nValue) ∧
      ∀ k, k ≠ o → s'.view k = s.view k := by
  have hunspent := not_isSpent_of_addCoin h
  unfold addCoin at h
  rw [if_neg (by simp [hunspent])] at h
  split at h
  · next hscript =>
    cases h
    exact ⟨hs, by simp [hscript], fun _ _ => rfl⟩
  · next hscript =>
    dsimp only at h
    split at h
    · cases h
    · next hfree =>
      cases h
      generalize hfresh : ((s.emplaced o).fresh || (!ow && !(s.emplaced o).dirty)) = fresh
      have hun : unspent? ⟨c, true, fresh⟩ = some c :=
        unspent?_eq_some.mpr ⟨hunspent, rfl⟩
      have hentry : FairEntry (s.base.view o) ⟨c, true, fresh⟩ := by
        refine ⟨nofun, ?_⟩
        intro c' hc'
        rw [hun] at hc'
        cases hc'
        exact hrange
      obtain ⟨hfair, hworth, hother⟩ := hs.put o (r := some ⟨c, true, fresh⟩) (by
        intro e he
        cases he
        exact hentry)
      refine ⟨hfair, ?_, hother⟩
      rw [if_neg hscript]
      refine hworth.trans_le ?_
      have hbelow := Fair.value_nonneg hs.1 o
      rw [weight_some, entryWorth, hun, valueOf_some]
      -- what the entry that was there is worth makes up for what the new one may hide
      rcases s.emplaced_cases o with hl | ⟨hl, hdefault⟩
      · rw [hl, weight_some, entryWorth]
        have hold := hs.2 o _ hl
        have hvalue := hold.value_nonneg
        rw [← hfresh]
        cases hf : (s.emplaced o).fresh with
        | true =>
          simp only [Bool.true_or]
          omega
        | false =>
          cases hd : (s.emplaced o).dirty with
          | true =>
            simp only [Bool.not_true, Bool.and_false, Bool.or_self]
            omega
          | false =>
            have hclean := (hold.clean hd).2
            rw [hclean] at hvalue ⊢
            split <;> omega
      · rw [hl, weight_none]
        split <;> omega

/-- Spending a coin that the view shows lowers the worth by its value. The outpoint may show a coin
    from below afterwards. -/
theorem spendCoin_fair (hs : s.Fair) {o : COutPoint} {c : Coin} (hview : s.view o = some c) :
    (s.spendCoin o).1 = some c ∧ (s.spendCoin o).2.Fair ∧
      (s.spendCoin o).2.worth = s.worth - c.out.nValue ∧
      ∀ k, k ≠ o → (s.spendCoin o).2.view k = s.view k := by
  have hf := fetchCoin_spec hs.baseUnspent o
  have hfair := Reads.fair hf.reads hs
  have hworth := Reads.worth_eq hf.reads
  have hreads := Reads.view_eq hf.reads
  rcases hr : s.fetchCoin o with ⟨_ | e, s'⟩ <;> rw [hr] at hf hfair hworth hreads
  · have hnone : s.view o = none := hf.answer.symm
    rw [hview] at hnone
    cases hnone
  · have hun : e.unspent? = some c := hf.answer.trans hview
    obtain ⟨_, rfl⟩ := unspent?_eq_some.mp hun
    have hl := hf.lookup_self
    obtain ⟨hfair', hworth', hother⟩ := Fair.put hfair o (r := if e.fresh then none else some ⟨coinEmpty, true, false⟩) (by
      intro e' he'
      split at he' <;> cases he'
      exact ⟨nofun, nofun⟩)
    rw [spendCoin_of_fetchCoin hr]
    refine ⟨rfl, hfair', hworth'.trans ?_, fun k hk => (hother k hk).trans (by rw [hreads])⟩
    -- the worth of the old entry goes, and a cleared one keeps hiding what is below
    rw [hl, weight_some, entryWorth, hun, hworth]
    cases e.fresh with
    | true => simp
    | false =>
      have hspent : unspent? ⟨coinEmpty, true, false⟩ = none := unspent?_eq_none.mpr rfl
      simp only [Bool.false_eq_true, if_false, weight_some, entryWorth, hspent, valueOf_some, valueOf_none]
      omega

end CCoinsViewCache

/-! ### Writing back -/

theorem FairEntry.merge {below : CoinMap} {o : COutPoint} {us r : Option CCoinsCacheEntry}
    {e : CCoinsCacheEntry} (hus : ∀ u, us = some u → FairEntry (below o) u)
    (he : FairEntry (shown (below o) us) e) (h : merge us e = .ok r) :
    (∀ u, r = some u → FairEntry (below o) u) ∧
      weight (entryWorth below) o r ≤ weight (entryWorth below) o us +
        (valueOf e.unspent? - if e.fresh then 0 else valueOf (shown (below o) us)) := by
  unfold CCoinsCacheEntry.merge at h
  cases hd : e.dirty with
  | false =>
    -- a clean entry is a copy and is worth nothing
    obtain ⟨hfresh, hcopy⟩ := he.clean hd
    simp only [hd] at h
    cases h
    refine ⟨hus, ?_⟩
    rw [hfresh, hcopy]
    simp
  | true =>
    simp only [hd, Bool.not_true, Bool.false_eq_true, if_false] at h
    have hwrite : ∀ fresh, FairEntry (below o) { coin := e.coin, dirty := true, fresh := fresh } :=
      fun fresh => ⟨nofun, he.range⟩
    have hspent : e.coin.isSpent = true → valueOf e.unspent? = 0 := by
      intro hs
      rw [unspent?_eq_none.mpr hs]
      rfl
    cases us with
    | none =>
      simp only at h
      split at h
      · next hskip =>
        cases h
        simp only [Bool.and_eq_true] at hskip
        rw [hskip.1, hspent hskip.2]
        simp
      · cases h
        refine ⟨?_, ?_⟩
        · intro u hu
          cases hu
          exact hwrite _
        · rw [weight_some, entryWorth]
          exact le_of_eq (by simp [unspent?])
    | some us =>
      have hshown : shown (below o) (some us) = us.unspent? := rfl
      simp only at h
      split at h
      · cases h
      · next hmisapplied =>
        -- a FRESH entry of the child meets no unspent coin here
        have hzero : e.fresh = true → valueOf us.unspent? = 0 := by
          intro hf
          have husSpent : us.coin.isSpent = true := by simpa [hf] using hmisapplied
          rw [unspent?_eq_none.mpr husSpent]
          rfl
        rw [hshown]
        split at h
        · next herase =>
          cases h
          simp only [Bool.and_eq_true] at herase
          rw [weight_some, entryWorth, herase.1, hspent herase.2]
          cases hf : e.fresh with
          | true => simp [hzero hf]
          | false => simp
        · cases h
          refine ⟨?_, ?_⟩
          · intro u hu
            cases hu
            exact hwrite _
          · rw [weight_some, weight_some, entryWorth, entryWorth]
            have hsame : valueOf (unspent?
                { coin := e.coin, dirty := true, fresh := us.fresh }) = valueOf e.unspent? := rfl
            rw [hsame]
            cases hf : e.fresh with
            | true =>
              rw [hzero hf]
              simp
            | false =>
              simp only [Bool.false_eq_true, if_false]
              omega

theorem CCoinsView.batchWrite_fair {p p' : CCoinsView CoinsTable} {cc : CCoinsMap} {hb h : Uint256}
    (hv : (cache p cc hb).Fair) (hok : p.batchWrite cc h = .ok p') :
    p'.Fair ∧ p'.worth ≤ (cache p cc hb).worth := by
  cases p with
  | base t =>
    obtain ⟨_, hwrite, rfl⟩ := map_eq_ok.mp hok
    obtain ⟨coins, hm, ht⟩ := bind_eq_ok.mp hwrite
    cases ht
    have hlook : ∀ o, coins.lookup o = (CoinMap.writtenBack t.coins.lookup cc) o := by
      intro o
      have ho := mergeEntries_ok cc.nodupKeys hm o
      rw [dlookup_entries] at ho
      unfold CoinMap.writtenBack
      cases hl : cc.lookup o with
      | none =>
        rw [hl] at ho
        exact ho
      | some e =>
        rw [hl] at ho
        exact (Except.ok.inj ho).symm
    refine ⟨?_, ?_⟩
    · intro o c hc
      rw [hlook o, CoinMap.writtenBack] at hc
      cases hl : cc.lookup o with
      | none =>
        rw [hl] at hc
        exact hv.1 o c hc
      | some e =>
        rw [hl] at hc
        simp only at hc
        split at hc
        · exact (hv.2 o e hl).range c hc
        · exact hv.1 o c hc
    · apply total_le_add
      intro o
      have hbelow := Fair.value_nonneg hv.1 o
      have hview : (base t).view o = t.coins.lookup o := rfl
      rw [hview] at hbelow
      rw [weight_eq_valueOf, weight_eq_valueOf, hlook o, CoinMap.writtenBack]
      cases hl : cc.lookup o with
      | none => simp
      | some e =>
        rw [weight_some, entryWorth, hview]
        simp only
        cases hd : e.dirty with
        | true =>
          simp only [if_true]
          split <;> omega
        | false =>
          obtain ⟨hfresh, hcopy⟩ := (hv.2 o e hl).clean hd
          rw [hfresh, hcopy, hview]
          simp
  | cache pp ccp hp =>
    obtain ⟨ccp', hm, rfl⟩ := map_eq_ok.mp hok
    -- what the merge decided at each outpoint
    have hmerged : ∀ o, (∀ u, ccp'.lookup o = some u → FairEntry (pp.view o) u) ∧
        weight (entryWorth pp.view) o (ccp'.lookup o) ≤
          weight (entryWorth pp.view) o (ccp.lookup o) +
            weight (entryWorth (cache pp ccp hp).view) o (cc.lookup o) := by
      intro o
      have ho := mergeEntries_ok cc.nodupKeys hm o
      rw [dlookup_entries] at ho
      cases hl : cc.lookup o with
      | none =>
        rw [hl] at ho
        rw [ho]
        exact ⟨hv.1.2 o, by simp⟩
      | some e =>
        rw [hl] at ho
        exact FairEntry.merge (hv.1.2 o) (hv.2 o e hl) ho
    refine ⟨⟨hv.1.1, fun o => (hmerged o).1⟩, ?_⟩
    have hsum := total_le_add fun o => (hmerged o).2
    simp only [worth]
    omega

namespace CCoinsViewCache
variable {s s' : CCoinsViewCache CoinsTable}

theorem new_fair {v : CCoinsView CoinsTable} (hv : v.Fair) : (new v).Fair :=
  ⟨hv, fun _ _ h => nomatch h⟩

theorem new_worth (v : CCoinsView CoinsTable) : (new v).worth = v.worth := by
  show v.worth + total (entryWorth v.view) ∅ = v.worth
  rw [total_empty, add_zero]

theorem flush_fair (hs : s.Fair) (h : s.flush = .ok s') :
    s'.base.Fair ∧ s'.base.worth ≤ s.worth ∧ s'.Fair ∧ s'.worth = s'.base.worth := by
  obtain ⟨base', hb, rfl⟩ := map_eq_ok.mp h
  obtain ⟨hfair, hworth⟩ := batchWrite_fair hs hb
  exact ⟨hfair, hworth, new_fair hfair, new_worth base'⟩

end CCoinsViewCache

end Defcoin
