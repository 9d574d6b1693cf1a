import Defcoin.Consensus.ReplayEffect

/-! # Recovery after a crash

  The proof that `ReplayBlocks` repairs a coin database that was left between two tips. The log of
  the old branch leads from the UTXO set at the old tip back to the fork, the log of the new branch
  from there to the new tip, and both together repair any per-coin mix of the two ends.
-/

namespace Defcoin

open WriteLog ByteCodec CCoinsViewCache ChainIndex List

/-! ### Chains of stored blocks -/

namespace ChainIndex
variable {pindex prev : ChainIndex}

theorem line_of_pprev (h : pindex.pprev = some prev) : pindex.line = pindex :: prev.line := by
  obtain ⟨_, ancestors, _⟩ := pindex
  cases ancestors with
  | nil => cases h
  | cons parent rest =>
    cases h
    rfl

theorem line_of_pprev_none (h : pindex.pprev = none) : pindex.line = [pindex] := by
  obtain ⟨_, ancestors, _⟩ := pindex
  cases ancestors with
  | nil => rfl
  | cons parent rest => cases h

theorem getAncestor_self (pindex : ChainIndex) :
    pindex.getAncestor pindex.index.nHeight.toNat = some pindex := by
  cases h : pindex.pprev with
  | none => simp [getAncestor, line_of_pprev_none h]
  | some prev => simp [getAncestor, line_of_pprev h]

theorem getAncestor_of_le (h : pindex.pprev = some prev) {height : Nat}
    (hle : height ≤ prev.index.nHeight.toNat) :
    pindex.getAncestor height = prev.getAncestor height := by
  have hpos := height_pos h
  have hne : (pindex.index.nHeight.toNat == height) = false := by
    rw [beq_eq_false_iff_ne]
    omega
  rw [getAncestor, line_of_pprev h, find?_cons, hne]
  rfl

end ChainIndex

/-- A block without extension block data, connected on `view` with BIP30 enforced, with what this left
    on disk. -/
structure StoredBlock (env : Env) (store : BlockStore) (pindex prev : ChainIndex) (block : CBlock)
    (view : UtxoView CCoinsViewDB) (r : Connected CCoinsViewDB) : Prop where
  pprev : pindex.pprev = some prev
  bip30 : enforceBIP30 env prev = true
  view_wf : view.coins.Wf
  connected : connectBlock env block pindex view false = .ok r
  mweb_block : block.mweb_block = none
  hogEx : ∀ tx ∈ block.vtx, tx.isHogEx = false
  mweb_header : pindex.index.mweb_header = none
  indexed : store.blockIndex pindex.index.hash = some pindex
  block_stored : store.blocks pindex.index.hash = some block
  undo_stored : ∃ trailing, store.undo pindex.index.hash =
    some (undoRecord env r.blockundo prev.index.hash ++ trailing)

/-- The genesis block, whose outputs are not added. -/
structure GenesisEntry (env : Env) (store : BlockStore) (pindex : ChainIndex) : Prop where
  pprev : pindex.pprev = none
  height : pindex.index.nHeight = 0
  hash : pindex.index.hash = env.params.hashGenesisBlock
  mweb_header : pindex.index.mweb_header = none
  indexed : store.blockIndex pindex.index.hash = some pindex

/-- Connecting the chain up to `pindex`, block by block, gives the UTXO set `m`. -/
inductive ChainUtxo (env : Env) (store : BlockStore) : ChainIndex → CoinMap → Prop where
  | genesis {pindex : ChainIndex} :
      GenesisEntry env store pindex → ChainUtxo env store pindex fun _ => none
  | connect {pindex prev : ChainIndex} {block : CBlock} {view : UtxoView CCoinsViewDB}
      {r : Connected CCoinsViewDB} :
      ChainUtxo env store prev view.coins.view →
      StoredBlock env store pindex prev block view r →
      ChainUtxo env store pindex r.view.coins.view

namespace ChainUtxo
variable {env : Env} {store : BlockStore} {pindex : ChainIndex} {m : CoinMap}

section
variable (h : ChainUtxo env store pindex m)
include h

theorem indexed :
    store.blockIndex pindex.index.hash = some pindex := by
  cases h with
  | genesis hg => exact hg.indexed
  | connect _ hb => exact hb.indexed

theorem mweb_header : pindex.index.mweb_header = none := by
  cases h with
  | genesis hg => exact hg.mweb_header
  | connect _ hb => exact hb.mweb_header

theorem exists_genesis :
    ∃ g ∈ pindex.line, GenesisEntry env store g := by
  induction h with
  | @genesis pindex hg =>
    rw [line_of_pprev_none hg.pprev]
    exact ⟨pindex, by simp, hg⟩
  | connect _ hb ih =>
    obtain ⟨g, hmem, hg⟩ := ih
    rw [line_of_pprev hb.pprev]
    exact ⟨g, by simp [hmem], hg⟩

end

theorem ne_genesis {prev : ChainIndex} {block : CBlock} {view : UtxoView CCoinsViewDB}
    {r : Connected CCoinsViewDB} (h : ChainUtxo env store prev m)
    (hb : StoredBlock env store pindex prev block view r) :
    pindex.index.hash ≠ env.params.hashGenesisBlock := by
  intro heq
  obtain ⟨_, _, hg⟩ := h.exists_genesis
  have hindexed := hb.indexed
  rw [heq, ← hg.hash, hg.indexed] at hindexed
  cases hindexed
  have hpprev := hb.pprev
  rw [hg.pprev] at hpprev
  cases hpprev

end ChainUtxo

/-! ### Rolling one block back or forward -/

/-- An operation that makes the writes of a log on every view, and leaves the view of the extension
    block's coins as it is. -/
def Writes (op : UtxoView CCoinsViewDB → Except ReplayStop (UtxoView CCoinsViewDB))
    (log : List (COutPoint × Option Coin)) : Prop :=
  ∀ view, view.coins.Wf → ∃ view', op view = .ok view' ∧
    CCoinsViewCache.Steps view.coins view'.coins (run view.coins.view log) ∧
    view'.mwebBase = view.mwebBase ∧ view'.mweb = view.mweb

theorem Writes.ok : Writes .ok [] :=
  fun view hview => ⟨view, rfl, CCoinsViewCache.Steps.refl hview, rfl, rfl⟩

theorem Writes.bind {op op' : UtxoView CCoinsViewDB → Except ReplayStop (UtxoView CCoinsViewDB)}
    {log log' : List (COutPoint × Option Coin)} (h : Writes op log) (h' : Writes op' log') :
    Writes (fun view => op view >>= op') (log ++ log') := by
  intro view hview
  obtain ⟨view₁, hok₁, hsteps₁, hbase₁, hmweb₁⟩ := h view hview
  obtain ⟨view₂, hok₂, hsteps₂, hbase₂, hmweb₂⟩ := h' view₁ hsteps₁.wf
  refine ⟨view₂, ?_, ?_, hbase₂.trans hbase₁, hmweb₂.trans hmweb₁⟩
  · simp only [hok₁]
    exact hok₂
  · rw [hsteps₁.view] at hsteps₂
    rw [run_append]
    exact hsteps₁.trans hsteps₂

namespace StoredBlock
variable {env : Env} {store : BlockStore} {pindex prev : ChainIndex} {block : CBlock}
  {view : UtxoView CCoinsViewDB} {r : Connected CCoinsViewDB}

section
variable (h : StoredBlock env store pindex prev block view r)
include h

theorem height_ne_zero : pindex.index.nHeight ≠ 0 := ChainIndex.height_ne_zero h.pprev

theorem blockConnected (hgenesis : pindex.index.hash ≠ env.params.hashGenesisBlock) :
    ∃ coinss fees, BlockConnected env block pindex prev view r coinss fees := by
  have hhash : pindex.index.hash = block.hash := by
    have hconn := h.connected
    exact not_not.mp (Outcome.unless_eq_ok.mp hconn).1
  have henforce : ∀ p, pindex.pprev = some p → enforceBIP30 env p = true := by
    intro p hp
    rw [h.pprev] at hp
    cases hp
    exact h.bip30
  obtain ⟨_, coinss, fees, hprev, _, hconn⟩ :=
    connectBlock_spec h.view_wf (hhash ▸ hgenesis) henforce h.connected
  rw [h.pprev] at hprev
  cases hprev
  exact ⟨coinss, fees, hconn⟩

theorem mwundo_eq_none {coinss : List (List Coin)} {fees : Int}
    (hconn : BlockConnected env block pindex prev view r coinss fees) : r.blockundo.mwundo = none := by
  rcases connectMWEBBlock_spec hconn.mweb with ⟨_, hnone, _⟩ | ⟨_, _, _, hsome, _⟩
  · exact hnone
  · rw [h.mweb_block] at hsome
    cases hsome

end

section
variable (h : StoredBlock env store pindex prev block view r)
  (hgenesis : pindex.index.hash ≠ env.params.hashGenesisBlock)
include h hgenesis

theorem rollforward : ∃ log, run view.coins.view log = r.view.coins.view ∧
      Writes (rollforwardBlock env store pindex) log := by
  obtain ⟨_, _, hconn⟩ := h.blockConnected hgenesis
  obtain ⟨log, hrun, happly⟩ := hconn.txs.rollforward (B := CCoinsViewDB) hconn.values
  refine ⟨log, hrun, ?_⟩
  intro v hv
  obtain ⟨s', hok, hsteps⟩ := happly v.coins hv
  refine ⟨{ v with coins := s' }, ?_, hsteps, rfl, rfl⟩
  rw [rollforwardBlock, readBlockFromDisk_spec h.connected h.block_stored]
  have hmweb : v.rollforwardMWEB env block pindex = .ok v.mweb := by
    rw [UtxoView.rollforwardMWEB, h.mweb_block]
    rfl
  simp only [hok, hmweb]
  rfl

theorem rollback (hsound : view.coins.view.Sound)
    (hflags : ∀ o c, view.coins.view o = some c → c.fPegout = false) :
    ∃ log, run r.view.coins.view log = view.coins.view ∧
      Writes (rollbackStep env store pindex) log := by
  obtain ⟨_, _, hconn⟩ := h.blockConnected hgenesis
  have hh := h.height_ne_zero
  obtain ⟨log, hlog, hundo⟩ := hconn.txs.disconnect (B := CCoinsViewDB) hsound hh hconn.values
    (hconn.undoFor hsound hh)
  refine ⟨log, funext ((hlog [] _ (Forgets.refl _ _)).eq_iff.mpr fun k _ c hc =>
    c.forgetPegout_eq_self.mpr (hflags k c hc)), ?_⟩
  intro v hv
  obtain ⟨_, s', hok, hsteps, _⟩ := hundo v.coins true hv
  have hmw := h.mwundo_eq_none hconn
  -- the undo data comes back from disk
  obtain ⟨_, hstored⟩ := h.undo_stored
  have hu : r.blockundo = ⟨r.blockundo.vtxundo, none⟩ := by rw [← hmw]
  have hstorable : CBlockUndo.Storable ⟨r.blockundo.vtxundo, none⟩ := by
    rw [← hu]
    apply hconn.storable hsound hh
    intro mwundo hsome
    rw [hmw] at hsome
    cases hsome
  rw [hu] at hstored
  have hread := undoReadFromDisk_spec hstorable hstored
  have hpos : pindex.index.nHeight.toNat > 0 := by
    have := height_pos h.pprev
    omega
  have hset := setBestBlock_spec hsteps.wf prev.index.hash
  rw [hsteps.view] at hset
  refine ⟨{ v with coins := s'.setBestBlock prev.index.hash }, ?_, hsteps.trans hset, rfl, rfl⟩
  rw [rollbackStep, if_pos hpos, h.pprev]
  simp only
  rw [rollbackBlock, readBlockFromDisk_spec h.connected h.block_stored]
  simp only [hread, Except.mapError, bind, Except.bind]
  rw [disconnectBlock, if_neg (not_not.mpr hconn.undo_length), hok]
  simp only [h.pprev]
  rfl

end

end StoredBlock

/-! ### Rolling back and forward along a chain -/

namespace ChainUtxo
variable {env : Env} {store : BlockStore} {pindex fork : ChainIndex} {m m' : CoinMap}

section
variable (h : ChainUtxo env store pindex m)
include h

theorem forall_coins {P : Coin → Prop}
    (hnew : ∀ {pindex prev : ChainIndex} {block : CBlock} {view : UtxoView CCoinsViewDB} {r : Connected CCoinsViewDB}, StoredBlock env store pindex prev block view r → pindex.index.hash ≠ env.params.hashGenesisBlock → ∀ tx ∈ block.vtx, ∀ p ∈ tx.created pindex.index.nHeight, P p.2) :
    ∀ o c, m o = some c → P c := by
  induction h with
  | genesis _ =>
    intro o c hc
    cases hc
  | connect hchain hb ih =>
    have hne := hchain.ne_genesis hb
    obtain ⟨_, _, hconn⟩ := hb.blockConnected hne
    exact hconn.txs.forall_coins ih (hnew hb hne)

theorem sound : m.Sound := by
  refine h.forall_coins ?_
  intro pindex prev block view r hb hne tx htx p hp
  obtain ⟨_, _, hconn⟩ := hb.blockConnected hne
  exact CTransaction.sound_of_mem_created hb.height_ne_zero (hconn.values tx htx) hp

theorem fPegout_eq_false : ∀ o c, m o = some c → c.fPegout = false := by
  refine h.forall_coins ?_
  intro pindex prev block view r hb _ tx htx p hp
  obtain ⟨_, _, _, _, _, rfl⟩ := CTransaction.mem_created hp
  simp [CTransaction.coin, hb.hogEx tx htx]

theorem unique (h' : ChainUtxo env store pindex m') : m = m' := by
  induction h generalizing m' with
  | genesis hg =>
    cases h' with
    | genesis _ => rfl
    | connect hchain hb => exact absurd hg.hash (hchain.ne_genesis hb)
  | @connect pindex prev block view r hchain hb ih =>
    cases h' with
    | genesis hg => exact absurd hg.hash (hchain.ne_genesis hb)
    | @connect _ prev' block' view' r' hchain' hb' =>
      have hne := hchain.ne_genesis hb
      obtain rfl : prev = prev' := Option.some.inj (hb.pprev.symm.trans hb'.pprev)
      obtain rfl : block = block' := Option.some.inj (hb.block_stored.symm.trans hb'.block_stored)
      obtain ⟨_, _, hconn⟩ := hb.blockConnected hne
      obtain ⟨_, _, hconn'⟩ := hb'.blockConnected hne
      have htxs := hconn.txs
      rw [ih hchain'] at htxs
      exact htxs.unique hconn'.txs

end

theorem eq_of_hash_eq {p : ChainIndex} (h : ChainUtxo env store pindex m)
    (h' : ChainUtxo env store p m') (heq : pindex.index.hash = p.index.hash) : pindex = p := by
  have hindexed := h.indexed
  rw [heq, h'.indexed] at hindexed
  exact (Option.some.inj hindexed).symm

theorem height_le (h : ChainUtxo env store pindex m) (hmem : fork ∈ pindex.line) :
    fork.index.nHeight.toNat ≤ pindex.index.nHeight.toNat := by
  induction h with
  | genesis hg =>
    rw [line_of_pprev_none hg.pprev, mem_singleton] at hmem
    rw [hmem]
  | connect _ hb ih =>
    rw [line_of_pprev hb.pprev] at hmem
    have hpos := height_pos hb.pprev
    rcases mem_cons.mp hmem with rfl | hmem
    · exact le_rfl
    · have := ih hmem
      omega

theorem rollback (h : ChainUtxo env store pindex m) (hmem : fork ∈ pindex.line) :
    ∃ m' log, ChainUtxo env store fork m' ∧ run m log = m' ∧
      Writes (fun view => rollback env store (some fork) view pindex.line) log := by
  induction h with
  | @genesis pindex hg =>
    rw [line_of_pprev_none hg.pprev, mem_singleton] at hmem
    subst hmem
    refine ⟨_, [], .genesis hg, rfl, ?_⟩
    rw [line_of_pprev_none hg.pprev]
    simpa [Defcoin.rollback] using Writes.ok
  | @connect pindex prev block view r hchain hb ih =>
    rw [line_of_pprev hb.pprev] at hmem ⊢
    have hself : ChainUtxo env store pindex r.view.coins.view := .connect hchain hb
    by_cases hhash : pindex.index.hash = fork.index.hash
    · have hfork : fork = pindex := by
        rcases mem_cons.mp hmem with hf | hf
        · exact hf
        · obtain ⟨m', _, hf', _⟩ := ih hf
          exact (hself.eq_of_hash_eq hf' hhash).symm
      subst hfork
      refine ⟨_, [], hself, rfl, ?_⟩
      simpa [Defcoin.rollback] using Writes.ok
    · have hf : fork ∈ prev.line := by
        rcases mem_cons.mp hmem with rfl | hf
        · exact absurd rfl hhash
        · exact hf
      obtain ⟨m', log, hfork, hrun, hwrites⟩ := ih hf
      obtain ⟨log₀, hrun₀, hwrites₀⟩ := hb.rollback (hchain.ne_genesis hb) hchain.sound
        hchain.fPegout_eq_false
      refine ⟨m', log₀ ++ log, hfork, by rw [run_append, hrun₀, hrun], ?_⟩
      have hstep := hwrites₀.bind hwrites
      simpa [Defcoin.rollback, hhash] using hstep

theorem rollforward_append (env : Env) (store : BlockStore) (top : ChainIndex)
    (view : UtxoView CCoinsViewDB) (heights heights' : List Nat) :
    rollforward env store top view (heights ++ heights') =
      rollforward env store top view heights >>= fun view =>
        rollforward env store top view heights' := by
  induction heights generalizing view with
  | nil => rfl
  | cons height rest ih =>
    rw [cons_append, rollforward, rollforward]
    cases top.getAncestor height with
    | none => rfl
    | some p =>
      simp only
      cases rollforwardBlock env store p view with
      | error e => rfl
      | ok view' => exact ih view'

theorem newHeights_succ {prev : ChainIndex} (hprev : pindex.pprev = some prev)
    (hle : fork.index.nHeight.toNat ≤ prev.index.nHeight.toNat) :
    newHeights (some fork) pindex = newHeights (some fork) prev ++ [pindex.index.nHeight.toNat] := by
  have hpos := height_pos hprev
  simp only [newHeights, Option.map_some, Option.getD_some]
  obtain ⟨d, hd⟩ := Nat.exists_eq_add_of_le hle
  have hlen : pindex.index.nHeight.toNat - fork.index.nHeight.toNat = d + 1 := by omega
  have hlen' : prev.index.nHeight.toNat - fork.index.nHeight.toNat = d := by omega
  rw [hlen, hlen', range'_concat]
  congr 2
  omega

/-- **Rolling forward** from an ancestor to the tip, with the blocks looked up from the last one. -/
theorem rollforward (h : ChainUtxo env store pindex m) (hmem : fork ∈ pindex.line) (top : ChainIndex)
    (htop : ∀ height ≤ pindex.index.nHeight.toNat, top.getAncestor height = pindex.getAncestor height) :
    ∃ m' log, ChainUtxo env store fork m' ∧ run m' log = m ∧
      Writes (fun view => rollforward env store top view (newHeights (some fork) pindex)) log := by
  have hnone : newHeights (some fork) fork = [] := by simp [newHeights]
  induction h with
  | @genesis pindex hg =>
    rw [line_of_pprev_none hg.pprev, mem_singleton] at hmem
    subst hmem
    refine ⟨_, [], .genesis hg, rfl, ?_⟩
    rw [hnone]
    exact Writes.ok
  | @connect pindex prev block view r hchain hb ih =>
    rw [line_of_pprev hb.pprev] at hmem
    rcases mem_cons.mp hmem with rfl | hmem
    · refine ⟨_, [], .connect hchain hb, rfl, ?_⟩
      rw [hnone]
      exact Writes.ok
    · have hpos := height_pos hb.pprev
      have htop' : ∀ height ≤ prev.index.nHeight.toNat,
          top.getAncestor height = prev.getAncestor height := by
        intro height hle
        rw [htop height (by omega), getAncestor_of_le hb.pprev hle]
      obtain ⟨m', log, hfork, hrun, hwrites⟩ := ih hmem htop'
      obtain ⟨log₁, hrun₁, hwrites₁⟩ := hb.rollforward (hchain.ne_genesis hb)
      refine ⟨m', log ++ log₁, hfork, by rw [run_append, hrun, hrun₁], ?_⟩
      have hself : top.getAncestor pindex.index.nHeight.toNat = some pindex := by
        rw [htop _ le_rfl, getAncestor_self]
      -- the last height is the block itself
      have hlast : ∀ v : UtxoView CCoinsViewDB,
          Defcoin.rollforward env store top v [pindex.index.nHeight.toNat] =
            rollforwardBlock env store pindex v := by
        intro v
        rw [Defcoin.rollforward, hself]
        simp only
        cases rollforwardBlock env store pindex v with
        | error e => rfl
        | ok v' => rfl
      have hstep := hwrites.bind hwrites₁
      rw [newHeights_succ hb.pprev (hchain.height_le hmem)]
      simp only [rollforward_append, hlast]
      exact hstep

end ChainUtxo

/-! ### The fork -/

namespace ChainUtxo
variable {env : Env} {store : BlockStore} {pa pb : ChainIndex} {ma mb : CoinMap}

theorem meet_line (ha : ChainUtxo env store pa ma) (hb : ChainUtxo env store pb mb)
    (hheight : pa.index.nHeight.toNat = pb.index.nHeight.toNat) :
    ∃ fork, meet pa.line pb.line = .ok (some fork) ∧ fork ∈ pa.line ∧ fork ∈ pb.line := by
  induction ha generalizing pb mb with
  | @genesis pa hga =>
    cases hb with
    | genesis hgb =>
      have hhash := hga.hash.trans hgb.hash.symm
      obtain rfl := eq_of_hash_eq (.genesis hga) (.genesis hgb) hhash
      rw [line_of_pprev_none hga.pprev]
      exact ⟨pa, by simp [meet], by simp, by simp⟩
    | connect _ hsb =>
      have hpos := height_pos hsb.pprev
      rw [hga.height, show (0 : BitVec 31).toNat = 0 from rfl] at hheight
      omega
  | @connect pa prev block view r hchain hsa ih =>
    have hpos := height_pos hsa.pprev
    cases hb with
    | genesis hgb =>
      rw [hgb.height, show (0 : BitVec 31).toNat = 0 from rfl] at hheight
      omega
    | @connect _ prev' block' view' r' hchain' hsb =>
      have hpos' := height_pos hsb.pprev
      rw [line_of_pprev hsa.pprev, line_of_pprev hsb.pprev, meet]
      by_cases hhash : pa.index.hash = pb.index.hash
      · have heq : pa = pb := eq_of_hash_eq (.connect hchain hsa) (.connect hchain' hsb) hhash
        exact ⟨pa, by rw [if_pos hhash], by simp, by simp [heq]⟩
      · rw [if_neg hhash]
        obtain ⟨fork, hmeet, hfa, hfb⟩ := ih hchain' (by omega)
        exact ⟨fork, hmeet, by simp [hfa], by simp [hfb]⟩

theorem lineUpTo_eq (h : ChainUtxo env store pa ma) (height : Nat) :
    ∃ p m, ChainUtxo env store p m ∧ p.index.nHeight.toNat = min height pa.index.nHeight.toNat ∧
      pa.lineUpTo height = p.line ∧ ∀ x ∈ p.line, x ∈ pa.line := by
  induction h with
  | @genesis pa hg =>
    have hzero : pa.index.nHeight.toNat = 0 := by rw [hg.height]; rfl
    refine ⟨pa, _, .genesis hg, by omega, ?_, fun x hx => hx⟩
    rw [lineUpTo, line_of_pprev_none hg.pprev]
    simp [hzero]
  | @connect pa prev block view r hchain hs ih =>
    have hpos := height_pos hs.pprev
    by_cases hle : pa.index.nHeight.toNat ≤ height
    · refine ⟨pa, _, .connect hchain hs, by omega, ?_, fun x hx => hx⟩
      rw [lineUpTo, line_of_pprev hs.pprev, dropWhile_cons_of_neg]
      simpa using hle
    · obtain ⟨p, m, hp, hheight, hline, hsub⟩ := ih
      refine ⟨p, m, hp, by omega, ?_, ?_⟩
      · rw [lineUpTo, line_of_pprev hs.pprev, dropWhile_cons_of_pos]
        · exact hline
        · simpa using hle
      · intro x hx
        rw [line_of_pprev hs.pprev]
        exact mem_cons_of_mem _ (hsub x hx)

theorem lastCommonAncestor_spec (ha : ChainUtxo env store pa ma) (hb : ChainUtxo env store pb mb) :
    ∃ fork, lastCommonAncestor pa pb = .ok (some fork) ∧ fork ∈ pa.line ∧ fork ∈ pb.line := by
  obtain ⟨_, _, hp, hheight, hline, hsub⟩ := ha.lineUpTo_eq pb.index.nHeight.toNat
  obtain ⟨_, _, hp', hheight', hline', hsub'⟩ := hb.lineUpTo_eq pa.index.nHeight.toNat
  obtain ⟨fork, hmeet, hfa, hfb⟩ := hp.meet_line hp' (by omega)
  refine ⟨fork, ?_, hsub fork hfa, hsub' fork hfb⟩
  rw [lastCommonAncestor, hline, hline', hmeet]

end ChainUtxo

/-! ### ReplayBlocks -/

section Recovery
variable {env : Env} {store : BlockStore} {db : CCoinsViewDB} {pindexNew : ChainIndex}
  {mOld mNew : CoinMap}

variable (mwebDB : Mweb.CoinsView) {s : CCoinsViewCache CCoinsViewDB} {pindexOld : Option ChainIndex}

theorem flush_replayed (env : Env) {view : UtxoView CCoinsViewDB} {hashNew hashOld : Uint256}
    (hheads : db.getHeadBlocks = [hashNew, hashOld]) (hnull : hashNew ≠ 0) (hstart : s.base = .base db)
    (hsteps : CCoinsViewCache.Steps s view.coins mNew) (hheader : view.mweb.header = none) :
    ∃ view', UtxoView.flush env { view with coins := view.coins.setBestBlock hashNew } = .ok view' ∧
      view'.coins.base.bottom = { coins := mNew, bestBlock := some hashNew, headBlocks := none } ∧
      view'.mwebBase = view.mwebBase := by
  -- nothing was written below the layer yet
  have hbase : view.coins.base = .base db := by
    have hbottom := hsteps.bottom
    have hlayers := hsteps.layers_base
    rw [hstart] at hbottom hlayers
    have heq := CCoinsView.eq_base_bottom (by rw [hlayers]; rfl)
    rw [heq, hbottom]
    rfl
  have hwritten : db.coins.writtenBack view.coins.cacheCoins = mNew := by
    have := hsteps.wf.writtenBack
    rw [hbase, hsteps.view] at this
    exact this
  have hwrite : CoinsBase.batchWrite db view.coins.cacheCoins hashNew = .ok
      { coins := mNew, bestBlock := some hashNew, headBlocks := none } := by
    rw [← hwritten]
    exact CCoinsViewDB.batchWrite_spec hheads hnull _
  refine ⟨{ view with coins := ⟨.base ⟨mNew, some hashNew, none⟩, ∅, hashNew⟩ }, ?_, rfl, rfl⟩
  rw [UtxoView.flush, flush]
  simp only [setBestBlock, hbase, CCoinsView.batchWrite, hwrite, Mweb.CoinsViewCache.flush, hheader]
  rfl

theorem replayBetween_spec {mwebDB : Mweb.CoinsView} {pindexFork : Option ChainIndex} {hashOld : Uint256}
    {mFork : CoinMap} {back forth : List (COutPoint × Option Coin)}
    (hheads : db.getHeadBlocks = [pindexNew.index.hash, hashOld]) (hnull : pindexNew.index.hash ≠ 0)
    (hunspent : ∀ o c, db.coins o = some c → c.isSpent = false)
    (hheader : (pindexOld.bind fun p => p.index.mweb_header) = none)
    (hback : Writes (fun view => rollback env store pindexFork view ((pindexOld.map line).getD [])) back)
    (hforth : Writes (fun view => rollforward env store pindexNew view (newHeights pindexFork pindexNew)) forth)
    (hrunBack : run mOld back = mFork) (hrunForth : run mFork forth = mNew)
    (hmixed : ∀ o, db.coins o = mOld o ∨ db.coins o = mNew o) :
    replayBetween env store db mwebDB pindexNew pindexOld pindexFork =
      .ok ({ coins := mNew, bestBlock := some pindexNew.index.hash, headBlocks := none }, mwebDB) := by
  unfold replayBetween
  rw [hheader]
  generalize hstart : ({ coins := new (.base db), mwebBase := mwebDB
                         mweb := { Mweb.CoinsViewCache.new mwebDB with header := none } } :
    UtxoView CCoinsViewDB) = start
  have hwf : start.coins.Wf := by
    rw [← hstart]
    exact (new_refines (v := .base db) hunspent).1
  have hview : start.coins.view = db.coins := by
    rw [← hstart]
    rfl
  -- rolled back to the fork and forward again, the mixed database is the new one
  obtain ⟨view₁, hok₁, hsteps₁, hbase₁, hmweb₁⟩ := hback start hwf
  obtain ⟨_, hok₂, hsteps₂, hbase₂, hmweb₂⟩ := hforth view₁ hsteps₁.wf
  rw [hsteps₁.view, hview, run_mixed hrunBack hrunForth hmixed] at hsteps₂
  obtain ⟨_, hok₃, hdb, hbase₃⟩ := flush_replayed env hheads hnull (by rw [← hstart]; rfl)
    (hsteps₁.trans hsteps₂) (by rw [hmweb₂, hmweb₁, ← hstart])
  simp only [hok₁, hok₂, hok₃, bind, Except.bind, Except.mapError, pure, Except.pure]
  rw [hdb, hbase₃, hbase₂, hbase₁, ← hstart]

/-- The UTXO set at the tip a write started from, which is empty before the first one. -/
def OldUtxo (env : Env) (store : BlockStore) : Option ChainIndex → CoinMap → Prop
  | none, m => m = fun _ => none
  | some pindexOld, m => ChainUtxo env store pindexOld m

/-- `*phashBlock` of the old tip, null if there is none. -/
def oldHash (pindexOld : Option ChainIndex) : Uint256 := (pindexOld.map fun p => p.index.hash).getD 0

theorem ChainUtxo.hash_ne_zero {pindex : ChainIndex} {m : CoinMap} (h : ChainUtxo env store pindex m) :
    pindex.index.hash ≠ 0 := by
  intro hzero
  have hindexed := h.indexed
  rw [hzero, store.null_hash] at hindexed
  cases hindexed

/-- From any mix of the old and the new UTXO set, with or without an old tip. -/
theorem replayBlocks_spec (hold : OldUtxo env store pindexOld mOld)
    (hnew : ChainUtxo env store pindexNew mNew)
    (hheads : db.getHeadBlocks = [pindexNew.index.hash, oldHash pindexOld])
    (hmixed : ∀ o, db.coins o = mOld o ∨ db.coins o = mNew o) : replayBlocks env store db mwebDB =
      .ok (⟨mNew, some pindexNew.index.hash, none⟩, mwebDB) := by
  rw [replayBlocks, hheads]
  simp only [hnew.indexed]
  cases pindexOld with
  | none =>
    obtain rfl : mOld = fun _ => none := hold
    -- the chain is applied from the genesis block on
    obtain ⟨g, hmem, hg⟩ := hnew.exists_genesis
    obtain ⟨mFork, forth, hfork, hrunForth, hforth⟩ := hnew.rollforward hmem pindexNew fun _ _ => rfl
    obtain rfl := hfork.unique (.genesis hg)
    have hheights : newHeights (some g) pindexNew = newHeights none pindexNew := by
      simp [newHeights, hg.height]
    rw [hheights] at hforth
    have hunspent : ∀ o c, db.coins o = some c → c.isSpent = false := by
      intro o c hc
      rcases hmixed o with h | h
      · rw [h] at hc
        cases hc
      · exact (hnew.sound o c (h ▸ hc)).unspent
    have hback : Writes (fun view => rollback env store none view
        ((none.map line).getD [])) [] := Writes.ok
    exact replayBetween_spec hheads hnew.hash_ne_zero hunspent rfl hback hforth rfl hrunForth hmixed
  | some pindexOld =>
    obtain ⟨fork, hlast, hforkOld, hforkNew⟩ := hold.lastCommonAncestor_spec hnew
    obtain ⟨mFork, _, hfork, hrunBack, hback⟩ := hold.rollback hforkOld
    obtain ⟨_, forth, hfork', hrunForth, hforth⟩ :=
      hnew.rollforward hforkNew pindexNew fun _ _ => rfl
    obtain rfl := hfork.unique hfork'
    have hunspent : ∀ o c, db.coins o = some c → c.isSpent = false := by
      intro o c hc
      rcases hmixed o with h | h
      · exact (hold.sound o c (h ▸ hc)).unspent
      · exact (hnew.sound o c (h ▸ hc)).unspent
    have holdFork : store.oldAndFork (oldHash (some pindexOld)) pindexNew =
        .ok (some pindexOld, some fork) := by
      show store.oldAndFork pindexOld.index.hash pindexNew = _
      rw [BlockStore.oldAndFork, Uint256.isNull_eq_false hold.hash_ne_zero, hold.indexed]
      simp only [hlast]
      rfl
    rw [holdFork]
    exact replayBetween_spec hheads hnew.hash_ne_zero hunspent hold.mweb_header hback hforth hrunBack
      hrunForth hmixed

/-- **Crash recovery.** A coin database that holds for every outpoint what the UTXO set at the old
    tip or the one at the new tip holds is brought to the UTXO set at the new tip. -/
theorem replayBlocks_recovers (mwebDB : Mweb.CoinsView) {pindexOld : ChainIndex}
    (hold : ChainUtxo env store pindexOld mOld) (hnew : ChainUtxo env store pindexNew mNew)
    (hheads : db.getHeadBlocks = [pindexNew.index.hash, pindexOld.index.hash])
    (hmixed : ∀ o, db.coins o = mOld o ∨ db.coins o = mNew o) :
    ∃ db', replayBlocks env store db mwebDB = .ok (db', mwebDB) ∧ db'.coins = mNew ∧
      db'.getBestBlock = pindexNew.index.hash ∧ db'.getHeadBlocks = [] := by
  have hold' : OldUtxo env store (some pindexOld) mOld := hold
  exact ⟨_, replayBlocks_spec mwebDB hold' hnew hheads hmixed, rfl, rfl, rfl⟩

/-! Two blocks on the genesis block, each with a coinbase; the database has the coins of both. -/

/-- `permissiveEnv`, with genesis block 1. -/
def forkEnv : Env := { permissiveEnv with params := { permissiveEnv.params with hashGenesisBlock := 1 } }

variable (hash : Uint256)

def plainIndex (nHeight : BitVec 31) : CBlockIndex :=
  { hash := hash, nHeight := nHeight, haveMWEB := false, mweb_header := none, hogex_hash := 0, mweb_amount := 0 }

def forkGenesis : ChainIndex := ⟨plainIndex 1 0, [], by simp⟩

def forkTip : ChainIndex := ⟨plainIndex hash 1, [plainIndex 1 0], by simp [plainIndex]⟩

/-- The only transaction of block `hash`. -/
def forkCoinbase : CTransaction :=
  { vin := [⟨⟨0, COutPoint.nullIndex⟩, [0x01, 0x01], 0, []⟩], vout := [⟨50 * coinUnit, [0x51]⟩]
    nVersion := 2, nLockTime := 0, mweb_tx := none, m_hogEx := false, hash := hash + 10 }

def forkBlock : CBlock :=
  { hash := hash, hashMerkleRoot := 0, vtx := [forkCoinbase hash], mweb_block := none }

def forkStore : BlockStore where
  blockIndex := fun h => if h = 1 then some forkGenesis else if h = 2 ∨ h = 3 then some (forkTip h) else none
  null_hash := by decide
  blocks := fun h => some (forkBlock h)
  undo := fun _ => some (undoRecord forkEnv ⟨[], none⟩ 1)

/-- The UTXO set at block `hash`. -/
def forkUtxo : CoinMap :=
  CoinMap.set (fun _ => none) ⟨hash + 10, 0⟩ (some ((forkCoinbase hash).coin 1 0 ⟨50 * coinUnit, [0x51]⟩))

theorem forkGenesis_entry : GenesisEntry forkEnv forkStore forkGenesis := ⟨rfl, rfl, rfl, rfl, rfl⟩

theorem forkTip_utxo {hash : Uint256} (h : hash = 2 ∨ hash = 3) :
    ChainUtxo forkEnv forkStore (forkTip hash) (forkUtxo hash) := by
  have hview : (new (.base (⟨fun _ => none, some 1, none⟩ : CCoinsViewDB))).Wf := by
    apply And.left (new_refines _)
    intro o c hc
    cases hc
  have hgenesis : ChainUtxo forkEnv forkStore forkGenesis fun _ => none := .genesis forkGenesis_entry
  -- the block is connected on a layer over the empty database
  obtain ⟨r, hconnect, hundo⟩ : ∃ r, connectBlock forkEnv (forkBlock hash) (forkTip hash)
      { coins := new (.base (⟨fun _ => none, some 1, none⟩ : CCoinsViewDB))
        mwebBase := .db Mweb.emptyDB, mweb := Mweb.emptyCache } false = .ok r ∧
      r.blockundo = ⟨[], none⟩ := by
    rcases h with rfl | rfl
    · exact ⟨_, rfl, rfl⟩
    · exact ⟨_, rfl, rfl⟩
  have hstored : StoredBlock forkEnv forkStore (forkTip hash) forkGenesis (forkBlock hash) _ r :=
    { pprev := rfl, bip30 := rfl, view_wf := hview, connected := hconnect, mweb_block := rfl
      hogEx := by simp [forkBlock, forkCoinbase, CTransaction.isHogEx]
      mweb_header := rfl
      indexed := by
        rcases h with rfl | rfl
        · rfl
        · rfl
      block_stored := rfl
      undo_stored := ⟨[], by rw [hundo]; rfl⟩ }
  have hchain : ChainUtxo forkEnv forkStore (forkTip hash) r.view.coins.view := .connect hgenesis hstored
  obtain ⟨_, _, hconn⟩ := hstored.blockConnected (hgenesis.ne_genesis hstored)
  have hrun : r.view.coins.view = forkUtxo hash := by
    have htxs := hconn.txs
    generalize r.view.coins.view = m at htxs
    cases htxs with
    | cons htx hrest =>
      obtain ⟨rfl, _⟩ := htx.coinbase rfl
      cases hrest
      rfl
  rw [← hrun]
  exact hchain

/-- The coin of block 2 is removed, and the one of block 3 stays. -/
theorem replayBlocks_recovers_fork : ∃ db', replayBlocks forkEnv forkStore
        ⟨fun o => if o.hash = 12 then forkUtxo 2 o else forkUtxo 3 o, none, some [3, 2]⟩
        (.db Mweb.emptyDB) = .ok (db', .db Mweb.emptyDB) ∧ db'.coins = forkUtxo 3 ∧
      db'.getBestBlock = 3 ∧ db'.getHeadBlocks = [] := by
  refine replayBlocks_recovers (.db Mweb.emptyDB) (forkTip_utxo (Or.inl rfl)) (forkTip_utxo (Or.inr rfl))
    rfl ?_
  intro o
  by_cases ho : o.hash = 12
  · exact Or.inl (if_pos ho)
  · exact Or.inr (if_neg ho)

/-- A flush from a consistent database that is cut short anywhere is completed by `ReplayBlocks`. -/
theorem replayBlocks_of_interruptedWrite (hold : OldUtxo env store pindexOld db.coins)
    (hnew : ChainUtxo env store pindexNew mNew) (hbest : db.bestBlock = pindexOld.map fun p => p.index.hash)
    (hheads : db.headBlocks = none) (hs : s.Wf) (hbase : s.base = .base db) (hview : s.view = mNew)
    {db' : CCoinsViewDB} {written : Nat}
    (hcrash : db.interruptedWrite s.cacheCoins pindexNew.index.hash written = .ok db') :
    replayBlocks env store db' mwebDB = .ok (⟨mNew, some pindexNew.index.hash, none⟩, mwebDB) := by
  obtain ⟨⟨old_tip, htip, hheads'⟩, hmixed⟩ := CCoinsViewDB.interrupted_spec hcrash
  have hwritten : db.coins.writtenBack s.cacheCoins = mNew := by
    have := hs.writtenBack
    rw [hbase, hview] at this
    exact this
  rw [hwritten] at hmixed
  obtain rfl : old_tip = oldHash pindexOld := by
    have hempty : db.getHeadBlocks = [] := by rw [CCoinsViewDB.getHeadBlocks, hheads]; rfl
    have hbest' : db.getBestBlock = oldHash pindexOld := by rw [CCoinsViewDB.getBestBlock, hbest]; rfl
    rw [CCoinsViewDB.oldTip, hempty, hbest'] at htip
    split at htip
    · exact (Except.ok.inj htip).symm
    · exact (Except.ok.inj htip).symm
  exact replayBlocks_spec mwebDB hold hnew hheads' hmixed

/-- A flush from block 2 to block 3 is cut short after one of its two records: the database has the
    coins of both blocks, or of none. -/
theorem replayBlocks_of_interruptedWrite_fork : ∃ (s : CCoinsViewCache CCoinsViewDB) (db' : CCoinsViewDB),
    s.base = .base ⟨forkUtxo 2, some 2, none⟩ ∧ s.view = forkUtxo 3 ∧ s.cacheCoins.entries.length = 2 ∧
    CCoinsViewDB.interruptedWrite ⟨forkUtxo 2, some 2, none⟩ s.cacheCoins 3 1 = .ok db' ∧
    db'.getHeadBlocks = [3, 2] ∧ (db'.coins ⟨12, 0⟩).isSome = (db'.coins ⟨13, 0⟩).isSome ∧
    replayBlocks forkEnv forkStore db' (.db Mweb.emptyDB) = .ok (⟨forkUtxo 3, some 3, none⟩, .db Mweb.emptyDB) := by
  have htip := forkTip_utxo (.inl rfl)
  have hold : OldUtxo forkEnv forkStore (some (forkTip 2)) (forkUtxo 2) := htip
  have hwf := (new_refines (v := .base (⟨forkUtxo 2, some 2, none⟩ : CCoinsViewDB)) fun o c hc =>
    (htip.sound o c hc).unspent).1
  -- the coin of block 2 is spent and that of block 3 is added
  have hspent := (spendCoin_spec hwf ⟨12, 0⟩).2.2
  generalize hcache : (CCoinsViewCache.spendCoin (new (.base (⟨forkUtxo 2, some 2, none⟩ : CCoinsViewDB)))
    ⟨12, 0⟩).2 = cache at hspent
  have hnew : false = false → cache.view ⟨13, 0⟩ = none := by
    rw [hspent.view]
    decide
  obtain ⟨s, hs, hadded⟩ := addCoin_spec (c := (forkCoinbase 3).coin 1 0 ⟨50 * coinUnit, [0x51]⟩) hspent.wf rfl hnew
  have hview : s.view = forkUtxo 3 := by
    rw [hadded.view, hspent.view]
    show CoinMap.set (CoinMap.set (forkUtxo 2) ⟨12, 0⟩ none) ⟨13, 0⟩ _ = forkUtxo 3
    have hgone : CoinMap.set (forkUtxo 2) ⟨12, 0⟩ none = fun _ => none := by
      funext o
      by_cases ho : o = ⟨12, 0⟩
      · simp [CoinMap.set, ho]
      · simp [CoinMap.set, forkUtxo]
    rw [hgone]
    rfl
  have hbase : s.base = .base ⟨forkUtxo 2, some 2, none⟩ := by
    cases hcache
    cases hs
    rfl
  have hentries : s.cacheCoins.entries.length = 2 := by
    cases hcache
    cases hs
    rfl
  have hcut : ∃ db', CCoinsViewDB.interruptedWrite ⟨forkUtxo 2, some 2, none⟩ s.cacheCoins 3 1 = .ok db' ∧
      db'.getHeadBlocks = [3, 2] ∧ (db'.coins ⟨12, 0⟩).isSome = (db'.coins ⟨13, 0⟩).isSome := by
    cases hcache
    cases hs
    exact ⟨_, rfl, rfl, rfl⟩
  obtain ⟨db', hcrash, hheads, hmixed⟩ := hcut
  exact ⟨s, db', hbase, hview, hentries, hcrash, hheads, hmixed,
    replayBlocks_of_interruptedWrite _ hold (forkTip_utxo (.inr rfl)) rfl rfl hadded.wf hbase hview hcrash⟩

end Recovery

end Defcoin
