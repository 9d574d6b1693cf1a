import Defcoin.Consensus.ChainState
import Defcoin.Consensus.CrashRecovery
import Defcoin.Consensus.NoOverflow

/-! # The money supply

  In every chain state that connecting blocks leads to, the coins are worth no more than the
  subsidies up to the height of the tip.
-/

namespace Defcoin

open CCoinsViewCache Outcome

namespace ChainState

def height {B : Type} (s : ChainState B) : Nat := (s.tip.map fun tip => tip.index.nHeight.toNat).getD 0

/-- What holds in every chain state: the coins are worth at most the subsidies so far, and the
    extension block's amount in the index entry of the tip is in range. -/
structure Sound (env : Env) (s : ChainState CoinsTable) : Prop where
  fair : s.coins.Fair
  worth : s.coins.worth ≤ subsidySum env.params s.height
  amount : ∀ tip, s.tip = some tip → moneyRange tip.index.mweb_amount = true

variable {env : Env} {s s' : ChainState CoinsTable}

theorem Sound.newView_fair (hs : s.Sound env) : s.newView.coins.Fair :=
  new_fair hs.fair

theorem subsidySum_parent (params : ConsensusParams) {pindex : ChainIndex}
    (hprev : pindex.pprev = s.tip) (hnew : pindex.NewEntry) : (subsidySum params s.height +
      if pindex.pprev.isSome then getBlockSubsidy params pindex.index.nHeight.toNat else 0) =
      subsidySum params pindex.index.nHeight.toNat := by
  rw [height, ← hprev]
  cases hp : pindex.pprev with
  | none =>
    rw [hnew.height hp]
    simp [subsidySum]
  | some prev =>
    rw [pindex.height_pos hp, subsidySum_succ]
    simp

theorem Sound.connectTip (hs : s.Sound env) {block : CBlock} {pindex : ChainIndex}
    (hprev : pindex.pprev = s.tip) (hnew : pindex.NewEntry)
    (h : s.connectTip env block pindex = .ok s') : s'.Sound env := by
  obtain ⟨_, hconnect, h⟩ := bind_eq_ok.mp h
  obtain ⟨_, hflush, h⟩ := bind_eq_ok.mp h
  cases h
  have hentry : moneyRange pindex.index.mweb_amount = true := by
    rw [hnew.mweb_amount]
    decide
  obtain ⟨hfair, hamount, hworth⟩ := connectBlock_fair hs.newView_fair hentry hconnect
  obtain ⟨coins, hcoins, hflush⟩ := bind_eq_ok.mp (orFault_eq_ok.mp hflush)
  obtain ⟨⟨_, _⟩, _, hflush⟩ := bind_eq_ok.mp hflush
  cases hflush
  obtain ⟨hbase, hle, _⟩ := flush_fair hfair hcoins
  refine ⟨hbase, ?_, ?_⟩
  · have hstart : s.newView.coins.worth = s.coins.worth := new_worth s.coins
    have hsum := subsidySum_parent env.params hprev hnew
    have hbound := hs.worth
    show coins.base.worth ≤ subsidySum env.params pindex.index.nHeight.toNat
    omega
  · intro tip htip
    cases htip
    exact hamount

theorem Reachable.sound (hs : Reachable env s) : s.Sound env := by
  induction hs with
  | start mweb =>
    refine ⟨?_, ?_, nofun⟩
    · intro o c h
      cases h
    · show FiniteMap.total _ ∅ ≤ subsidySum env.params 0
      simp [subsidySum]
  | connect _ hprev hnew hconnect ih => exact ih.connectTip hprev hnew hconnect
  | push _ ih =>
    refine ⟨new_fair ih.fair, ?_, ih.amount⟩
    exact (new_worth _).trans_le ih.worth
  | flush _ hflush ih =>
    obtain ⟨_, hcoins, hflush⟩ := bind_eq_ok.mp hflush
    obtain ⟨⟨_, mweb⟩, _, hflush⟩ := bind_eq_ok.mp hflush
    cases hflush
    obtain ⟨_, hle, hfair, hworth⟩ := flush_fair ih.fair hcoins
    exact ⟨hfair, (hworth.trans_le hle).trans ih.worth, ih.amount⟩

end ChainState

/-- **Money supply.** The unspent outputs sum to at most the subsidies up to the tip, these to at
    most MAX_MONEY, and no amount overflows when a further block is checked and connected. -/
theorem moneySupply_bounded {env : Env} {s : ChainState CoinsTable}
    (hs : ChainState.Reachable env s) : s.coins.supply ≤ subsidySum env.params s.height ∧
      subsidySum env.params s.height ≤ maxMoney ∧
      ∀ (block : CBlock) (pindex : ChainIndex), pindex.pprev = s.tip →
        (∀ fCheckPOW fCheckMerkleRoot,
          checkBlock env block fCheckPOW fCheckMerkleRoot ≠ .error (.fault .int64Overflow)) ∧
        ∀ fJustCheck,
          connectBlock env block pindex s.newView fJustCheck ≠ .error (.fault .int64Overflow) := by
  have hsound := hs.sound
  refine ⟨le_trans hsound.fair.supply_le_worth hsound.worth, subsidySum_le_maxMoney _ _, ?_⟩
  intro block pindex hprev
  refine ⟨checkBlock_noOverflow env block, ?_⟩
  intro fJustCheck
  apply connectBlock_noOverflow hsound.newView_fair
  intro prev hp
  exact hsound.amount prev (hprev.symm.trans hp)

/-- The genesis block, whose coinbase is not added, and then block 2. -/
theorem forkBlocks_connected : ∃ s₀ s₁ : ChainState CoinsTable,
      ChainState.connectTip forkEnv ⟨none, .base CoinsTable.empty, .db Mweb.emptyDB⟩ (forkBlock 1)
        forkGenesis = .ok s₀ ∧
      (forkTip 2).pprev = s₀.tip ∧ s₀.connectTip forkEnv (forkBlock 2) (forkTip 2) = .ok s₁ ∧
      s₁.height = 1 ∧ s₁.coins.supply = 50 * coinUnit := by
  refine ⟨_, _, rfl, rfl, rfl, rfl, ?_⟩
  decide

/-- The bound is reached: block 2 takes its whole subsidy. -/
theorem moneySupply_bounded_block :
    ∃ s : ChainState CoinsTable, s.Reachable forkEnv ∧ s.height = 1 ∧ s.coins.supply = 50 * coinUnit ∧
      s.coins.supply ≤ subsidySum forkEnv.params s.height := by
  obtain ⟨s₀, s₁, hgenesis, hprev, hconnect, hheight, hsupply⟩ := forkBlocks_connected
  have hentry : forkGenesis.NewEntry := ⟨fun _ => rfl, rfl, rfl, rfl⟩
  have hentry₂ : (forkTip 2).NewEntry := ⟨nofun, rfl, rfl, rfl⟩
  have hs₀ : s₀.Reachable forkEnv := .connect (.start _) rfl hentry hgenesis
  have hs₁ : s₁.Reachable forkEnv := .connect hs₀ hprev hentry₂ hconnect
  exact ⟨s₁, hs₁, hheight, hsupply, (moneySupply_bounded hs₁).1⟩

end Defcoin
