import Defcoin.Consensus.BlockEffect

/-! # What disconnecting does to the coins

  `DisconnectBlock` deletes the outputs of each transaction and puts the coins of its undo data
  back. As writes this is the same on every view, also on one that the block was never connected to;
  only the verdict DISCONNECT_OK depends on what it finds.

  Coins come from the undo file, so they come without their pegout flag.
-/

namespace Defcoin

open WriteLog CTransaction List Coin CoinMap

/-! ### Coins of the UTXO set -/

/-- What every coin of the UTXO set satisfies: the genesis block adds none, and outputs that cannot
    be spent are not kept. -/
structure Coin.Sound (c : Coin) : Prop where
  height : c.nHeight ≠ 0
  spendable : c.out.scriptPubKey.isUnspendable = false
  unspent : c.isSpent = false

def CoinMap.Sound (m : CoinMap) : Prop := ∀ o c, m o = some c → c.Sound

theorem Coin.Sound.forgetPegout {c : Coin} (h : c.Sound) : c.forgetPegout.Sound :=
  ⟨h.height, h.spendable, h.unspent⟩

variable {m : CoinMap} {nHeight : BitVec 31} {tx : CTransaction}

theorem CTransaction.sound_of_mem_created (hh : nHeight ≠ 0)
    (hvalues : ∀ out ∈ tx.vout, moneyRange out.nValue = true) {p : COutPoint × Coin}
    (hp : p ∈ tx.created nHeight) : p.2.Sound := by
  obtain ⟨_, out, _, hout, hspend, rfl⟩ := mem_created hp
  refine ⟨hh, hspend, ?_⟩
  have hrange := moneyRange_iff.mp (hvalues out hout)
  show (out.nValue == -1) = false
  rw [beq_eq_false_iff_ne]
  omega

theorem CoinMap.forall_run_effect {P : Coin → Prop} (hm : ∀ o c, m o = some c → P c)
    (hnew : ∀ p ∈ tx.created nHeight, P p.2) (coins : List Coin) :
    ∀ o c, run m (tx.effect nHeight coins).log o = some c → P c := by
  intro o c hc
  by_cases hadd : o ∈ (tx.effect nHeight coins).addedKeys
  · obtain ⟨p, hp, rfl⟩ := mem_map.mp hadd
    have hnd : ((tx.created nHeight).map Prod.fst).Nodup := nodup_createdFrom 0 tx.vout
    rw [Effect.log, run_append] at hc
    obtain rfl : p.2 = c := Option.some.inj ((run_inserts_of_mem hnd hp _).symm.trans hc)
    exact hnew p hp
  · rw [Effect.run_log_of_notMem_added hadd] at hc
    split at hc
    · cases hc
    · exact hm o c hc

theorem CoinMap.Sound.run_effect (hm : m.Sound) (hh : nHeight ≠ 0)
    (hvalues : ∀ out ∈ tx.vout, moneyRange out.nValue = true) (coins : List Coin) :
    Sound (run m (tx.effect nHeight coins).log) :=
  forall_run_effect hm (fun _ => sound_of_mem_created hh hvalues) coins

section Cache
variable {B : Type} [CoinsBase B]

namespace CCoinsViewCache

/-! ### Outputs -/

variable {nHeight : BitVec 31} {s : CCoinsViewCache B}

/-- Deleting outputs; the block's own outputs are recognised whatever their pegout flags. -/
theorem disconnectOutputs_spec (tx : CTransaction) (nHeight : BitVec 31) (hs : s.Wf) (fClean : Bool) (i : Nat)
    (vout : List CTxOut) : Steps s (s.disconnectOutputs tx nHeight fClean i vout).2
        (run s.view (deletes ((tx.createdFrom nHeight i vout).map Prod.fst))) ∧
      ((∀ p ∈ tx.createdFrom nHeight i vout,
          (s.view p.1).map Coin.forgetPegout = some p.2.forgetPegout) →
        (s.disconnectOutputs tx nHeight fClean i vout).1 = fClean) := by
  induction vout generalizing s fClean i with
  | nil => exact ⟨Steps.refl hs, fun _ => rfl⟩
  | cons out rest ih =>
    cases hspend : out.scriptPubKey.isUnspendable with
    | true =>
      simp only [disconnectOutputs, createdFrom, hspend]
      exact ih hs fClean (i + 1)
    | false =>
      simp only [disconnectOutputs, createdFrom, hspend, Bool.false_eq_true, if_false]
      obtain ⟨hmoved, _, hsteps⟩ := spendCoin_spec hs ⟨tx.hash, i⟩
      generalize hr : s.spendCoin ⟨tx.hash, i⟩ = r at hmoved hsteps
      obtain ⟨found, _⟩ := r
      obtain ⟨hsteps', hclean'⟩ := ih hsteps.wf
        (fClean && (found.isSome && decide (out = (found.getD coinEmpty).out) &&
          decide (nHeight = (found.getD coinEmpty).nHeight) &&
          (tx.isCoinBase == (found.getD coinEmpty).fCoinBase))) (i + 1)
      rw [hsteps.view] at hsteps' hclean'
      refine ⟨hsteps.trans hsteps', ?_⟩
      intro hmatch
      rw [hclean']
      -- the coin found differs from the output in its pegout flag at most
      · have hself := hmatch _ mem_cons_self
        obtain ⟨c, hc, heq⟩ := Option.map_eq_some_iff.mp hself
        have hfound : found = some c := by
          have := (spendCoin_spec hs ⟨tx.hash, i⟩).2.1 c hc
          rw [hr] at this
          exact this
        have hout : c.out = out := congrArg Coin.out heq
        have hheight : c.nHeight = nHeight := congrArg Coin.nHeight heq
        have hcb : c.fCoinBase = tx.isCoinBase := congrArg Coin.fCoinBase heq
        simp [hfound, hout, hheight, hcb]
      · intro p hp
        have hne : p.1 ≠ ⟨tx.hash, i⟩ := by
          obtain ⟨j, _, hij, _, _, _, rfl⟩ := mem_createdFrom hp
          intro heq
          have : j = i := congrArg COutPoint.n heq
          omega
        rw [set_ne _ hne]
        exact hmatch p (mem_cons_of_mem _ hp)

/-! ### Inputs -/

theorem applyTxInUndo_spec (hs : s.Wf) {undo : Coin} (hundo : undo.Sound) (out : COutPoint) :
    ∃ s', s.applyTxInUndo undo out = .ok ((s.view out).isNone, s') ∧
      Steps s s' (s.view.set out (some undo)) := by
  obtain ⟨hhave, hsteps⟩ := haveCoin_spec hs out
  unfold applyTxInUndo
  generalize s.haveCoin out = r at hhave hsteps
  obtain ⟨found, s₁⟩ := r
  obtain rfl : found = (s.view out).isSome := hhave
  have hmeta : s₁.undoMetadata undo out = .ok (undo, s₁) := by
    rw [undoMetadata, if_neg hundo.height]
  have hfree : (s.view out).isSome = false → s₁.view out = none := by
    simp [hsteps.view]
  obtain ⟨s', hadd, hsteps'⟩ := addCoin_spec hsteps.wf hundo.unspent hfree
  refine ⟨s', ?_, ?_⟩
  · simp only [hmeta, bind, Except.bind, Bool.not_not, hadd]
    simp [Except.mapError, pure, Except.pure]
  · rw [hsteps.view, add, if_neg (by simp [hundo.spendable])] at hsteps'
    exact hsteps.trans hsteps'

theorem restoreInputs_spec (hs : s.Wf) (fClean : Bool) {l : List (COutPoint × Coin)} (hl : ∀ p ∈ l, p.2.Sound) :
    ∃ fClean' s', s.restoreInputs fClean l = .ok (fClean', s') ∧
      Steps s s' (run s.view (inserts l)) ∧
      ((l.map Prod.fst).Nodup → (∀ p ∈ l, s.view p.1 = none) → fClean' = fClean) := by
  induction l generalizing s fClean with
  | nil => exact ⟨fClean, s, rfl, Steps.refl hs, fun _ _ => rfl⟩
  | cons p rest ih =>
    obtain ⟨out, undo⟩ := p
    obtain ⟨_, hok, hsteps⟩ := applyTxInUndo_spec hs (hl (out, undo) (by simp)) out
    obtain ⟨fClean', s', hok', hsteps', hclean⟩ :=
      ih hsteps.wf (fClean && (s.view out).isNone) (fun p hp => hl p (by simp [hp]))
    rw [hsteps.view] at hsteps' hclean
    refine ⟨fClean', s', ?_, hsteps.trans hsteps', ?_⟩
    · rw [restoreInputs, hok]
      exact hok'
    · intro hnd hfree
      rw [map_cons, nodup_cons] at hnd
      have hout := hfree (out, undo) (by simp)
      rw [hclean hnd.2, hout]
      · simp
      · intro q hq
        have hne : q.1 ≠ out := by
          intro heq
          exact hnd.1 (mem_map.mpr ⟨q, hq, heq⟩)
        rw [set_ne _ hne]
        exact hfree q (by simp [hq])

/-! ### Transactions -/

/-- The undo data of a transaction that spent `coins`: what was read, or nothing for the first one. -/
inductive UndoFor (tx : CTransaction) (coins : List Coin) : Option CTxUndo → Prop where
  | coinbase : coins = [] → UndoFor tx coins none
  | inputs : coins.length = tx.vin.length → UndoFor tx coins (some (CTxUndo.forgetPegout ⟨coins⟩))

/-- **One transaction** is undone by the undo log of its effect. On a view that holds, up to pegout
    flags, what the transaction left, this is clean. -/
theorem disconnectTx_spec {tx : CTransaction} (hs : s.Wf) (fClean : Bool) {coins : List Coin}
    (hcoins : ∀ c ∈ coins, c.Sound) {txundo : Option CTxUndo} (hundo : UndoFor tx coins txundo) :
    ∃ fClean' s', s.disconnectTx nHeight fClean tx txundo = .ok (fClean', s') ∧
      Steps s s' (run s.view ((tx.effect nHeight coins).undoLog forgetPegout)) ∧
      ∀ m ks, (tx.effect nHeight coins).Enabled m →
        Forgets forgetPegout ks (run m (tx.effect nHeight coins).log) s.view →
        fClean' = fClean := by
  obtain ⟨hsteps, hclean⟩ := disconnectOutputs_spec tx nHeight hs fClean 0 tx.vout
  -- on a view that holds what the transaction left, its outputs are recognised
  have hmatch : ∀ m ks, (tx.effect nHeight coins).Enabled m →
      Forgets forgetPegout ks (run m (tx.effect nHeight coins).log) s.view →
      ∀ p ∈ tx.createdFrom nHeight 0 tx.vout,
        (s.view p.1).map forgetPegout = some p.2.forgetPegout := by
    intro m ks henabled hforget p hp
    rw [hforget.map_eq (fun _ => rfl), henabled.run_of_mem_adds hp]
    rfl
  unfold disconnectTx
  generalize s.disconnectOutputs tx nHeight fClean 0 tx.vout = r at hsteps hclean
  obtain ⟨fClean₁, s₁⟩ := r
  have hlog : run s.view ((tx.effect nHeight coins).undoLog forgetPegout) =
      run s₁.view (inserts ((tx.effect nHeight coins).spends.reverse.map
        fun p => (p.1, p.2.forgetPegout))) := by
    rw [Effect.undoLog, run_append, hsteps.view]
    rfl
  rw [hlog]
  cases hundo with
  | coinbase hnil =>
    subst hnil
    have hspends : (tx.effect nHeight []).spends = [] := by simp [effect]
    refine ⟨fClean₁, s₁, rfl, ?_, fun m ks he hf => hclean (hmatch m ks he hf)⟩
    rw [hspends]
    exact ⟨⟨hsteps.wf, rfl, hsteps.layers_base, hsteps.bottom⟩, hsteps.covered⟩
  | inputs hlen =>
    have hlist : ((tx.vin.map CTxIn.prevout).zip (coins.map forgetPegout)).reverse =
        (tx.effect nHeight coins).spends.reverse.map fun p => (p.1, p.2.forgetPegout) := by
      rw [zip_map_right, ← map_reverse]
      rfl
    have hsound : ∀ p ∈ (tx.effect nHeight coins).spends.reverse.map
        fun p => (p.1, p.2.forgetPegout), p.2.Sound := by
      intro p hp
      obtain ⟨q, hq, rfl⟩ := mem_map.mp hp
      have hmem := (of_mem_zip (mem_reverse.mp hq)).2
      exact (hcoins q.2 hmem).forgetPegout
    obtain ⟨fClean', s', hok, hsteps', hclean'⟩ := restoreInputs_spec hsteps.wf fClean₁ hsound
    refine ⟨fClean', s', ?_, hsteps.trans hsteps', ?_⟩
    · dsimp only [CTxUndo.forgetPegout]
      rw [if_neg (by simp [hlen]), hlist]
      exact hok
    · intro m ks henabled hforget
      refine (hclean' ?_ ?_).trans (hclean (hmatch m ks henabled hforget))
      · have hkeys : ((tx.effect nHeight coins).spends.reverse.map
            fun p => (p.1, p.2.forgetPegout)).map Prod.fst = (tx.effect nHeight coins).spentKeys.reverse := by
          simp [Effect.spentKeys]
        rw [hkeys, nodup_reverse]
        exact henabled.spent_nodup
      · intro p hp
        obtain ⟨q, hq, rfl⟩ := mem_map.mp hp
        have hspent : q.1 ∈ (tx.effect nHeight coins).spentKeys :=
          mem_map.mpr ⟨q, mem_reverse.mp hq, rfl⟩
        rw [hsteps.view, run_deletes]
        split
        · rfl
        · next hadd => exact hforget.eq_none (by rw [Effect.run_log_of_notMem_added hadd, if_pos hspent])

theorem disconnectTxs_append {s' : CCoinsViewCache B} {fClean fClean' : Bool}
    {l : List (CTransaction × Option CTxUndo)} (h : s.disconnectTxs nHeight fClean l = .ok (fClean', s'))
    (l' : List (CTransaction × Option CTxUndo)) :
    s.disconnectTxs nHeight fClean (l ++ l') = s'.disconnectTxs nHeight fClean' l' := by
  induction l generalizing s fClean with
  | nil =>
    cases h
    rfl
  | cons p rest ih =>
    obtain ⟨⟨_, _⟩, hstep, h⟩ := Outcome.bind_eq_ok.mp h
    rw [cons_append, disconnectTxs, hstep]
    exact ih h

end CCoinsViewCache
end Cache

end Defcoin
