import Defcoin.Relay.ProcessTx

/-! # Which orphans an accepted parent releases

  An accepted transaction releases the orphans that spend one of its canonical outputs, through the
  index by outpoint. Outputs of the extension block have no such index, so an orphan that waits for
  one of those alone is left where it is.
-/

namespace Defcoin.Relay

open List OrphanPool

/-! ### Release -/

/-- `tx` has a canonical input that spends an output of `p`. -/
def SpendsCanonical (H : Hashing) (tx p : CMutableTransaction) : Prop :=
  ∃ i < p.vout.length, (⟨p.computeHash H, i⟩ : COutPoint) ∈ tx.prevouts

instance (H : Hashing) (tx p : CMutableTransaction) : Decidable (SpendsCanonical H tx p) :=
  inferInstanceAs (Decidable (∃ i < p.vout.length, (⟨p.computeHash H, i⟩ : COutPoint) ∈ tx.prevouts))

/-- `tx` has an extension block input that spends an output of `p`. -/
def SpendsMWEB (H : Hashing) (tx p : CMutableTransaction) : Prop :=
  ∃ id ∈ p.getOutputIDs H, id ∈ tx.getSpentIDs

/-- Every orphan that spends an output of `p` is in the work set. -/
def Resolved (H : Hashing) (p : CMutableTransaction) (orphans : OrphanPool) (workSet : List Uint256) :
    Prop :=
  ∀ hash tx, orphans.txOf hash = some tx → SpendsCanonical H tx p ∨ SpendsMWEB H tx p → hash ∈ workSet

/-- Every orphan that spends an extension block output of `p` spends a canonical one as well, or is
    in the work set already. -/
def MWEBChildrenReached (H : Hashing) (p : CMutableTransaction) (orphans : OrphanPool)
    (workSet : List Uint256) : Prop :=
  ∀ hash tx, orphans.txOf hash = some tx → SpendsMWEB H tx p → SpendsCanonical H tx p ∨ hash ∈ workSet

private theorem mem_foldl_iff {α β : Type} {P : β → Prop} {h : α} {f : List α → β → List α}
    (hf : ∀ set b, h ∈ f set b ↔ h ∈ set ∨ P b) (l : List β) (set : List α) :
    h ∈ l.foldl f set ↔ h ∈ set ∨ ∃ b ∈ l, P b := by
  induction l generalizing set with
  | nil => simp
  | cons b l ih =>
    rw [foldl_cons, ih, hf, exists_mem_cons_iff, or_assoc]

variable {H : Hashing} {workSet : List Uint256} {orphans : OrphanPool}

theorem mem_releaseChildren {hash h : Uint256} {nOut : Nat} :
    h ∈ releaseChildren orphans hash nOut workSet ↔
      h ∈ workSet ∨ ∃ i < nOut, h ∈ orphans.mapOrphanTransactionsByPrev ⟨hash, i⟩ := by
  unfold releaseChildren
  rw [mem_foldl_iff (P := fun i => h ∈ orphans.mapOrphanTransactionsByPrev ⟨hash, i⟩)]
  · simp only [mem_range]
  · intro set i
    rw [mem_foldl_iff (P := fun elem => h = elem)]
    · simp
    · intro set elem
      rw [mem_insertHash, or_comm]

theorem mem_releaseChildren_of_wf (hwf : orphans.Wf H) {p : CMutableTransaction} {h : Uint256} :
    h ∈ releaseChildren orphans (p.computeHash H) p.vout.length workSet ↔
      h ∈ workSet ∨ ∃ tx, orphans.txOf h = some tx ∧ SpendsCanonical H tx p := by
  rw [mem_releaseChildren]
  apply or_congr_right
  constructor
  · rintro ⟨i, hi, hmem⟩
    obtain ⟨tx, htx, hprev⟩ := (hwf.byPrev_iff _ _).mp hmem
    exact ⟨tx, htx, i, hi, hprev⟩
  · rintro ⟨tx, htx, i, hi, hprev⟩
    exact ⟨i, hi, (hwf.byPrev_iff _ _).mpr ⟨tx, htx, hprev⟩⟩

theorem resolved_releaseChildren_iff (hwf : orphans.Wf H) (p : CMutableTransaction) (workSet : List Uint256) :
    Resolved H p orphans (releaseChildren orphans (p.computeHash H) p.vout.length workSet) ↔
      MWEBChildrenReached H p orphans workSet := by
  constructor
  · intro hresolved hash tx htx hspends
    rcases (mem_releaseChildren_of_wf hwf).mp (hresolved hash tx htx (.inr hspends)) with
      hmem | ⟨tx', htx', hcanonical⟩
    · exact .inr hmem
    · rw [htx] at htx'
      cases htx'
      exact .inl hcanonical
  · intro hreached hash tx htx hspends
    rw [mem_releaseChildren_of_wf hwf]
    -- a canonical child is found through the index, any other must be there
    rcases hspends with hcanonical | hmweb
    · exact .inr ⟨tx, htx, hcanonical⟩
    · rcases hreached hash tx htx hmweb with hcanonical | hmem
      · exact .inr ⟨tx, htx, hcanonical⟩
      · exact .inl hmem

/-! ### Rounds and steps -/

/-- A reported release is one of the source's loop, over exact indexes. -/
def Event.Sound (H : Hashing) : Event → Prop
  | .released _ tx orphans before after =>
    orphans.Wf H ∧ after = releaseChildren orphans (tx.computeHash H) tx.vout.length before
  | _ => True

/-- What a release added is in the work set, or was taken from it. -/
def Event.Kept (workSets : Nat → List Uint256) (log : List Event) : Event → Prop
  | .released peer _ _ _ after => ∀ hash ∈ after, hash ∈ workSets peer ∨ .taken peer hash ∈ log
  | _ => True

def Event.Followed (log : List Event) : Event → Prop
  | .verdict tx .accepted => ∃ peer orphans before after, .released peer tx orphans before after ∈ log
  | _ => True

namespace RelayState

variable {Pool : Type} {env : RelayEnv Pool} {peer : Nat} {s s' : RelayState Pool} {log : List Event}

structure RoundSpec (env : RelayEnv Pool) (peer : Nat) (s : RelayState Pool) (workSet : List Uint256)
    (s' : RelayState Pool) (set : List Uint256) (log : List Event) : Prop where
  wf : s'.orphans.Wf env.hashing
  workSets : s'.workSets = s.workSets
  sound : ∀ e ∈ log, e.Sound env.hashing
  followed : ∀ e ∈ log, e.Followed log
  /-- A round ends with the only release it makes. -/
  released : ∀ peer' tx orphans before after, .released peer' tx orphans before after ∈ log →
    peer' = peer ∧ after = set
  taken : ∀ hash ∈ workSet, hash ∈ set ∨ .taken peer hash ∈ log
  progress : set = [] ∨ s'.orphans.size < s.orphans.size

variable {set workSet : List Uint256} {logs : List (List Event)} {tx : CMutableTransaction}

theorem RoundSpec.skip {hash : Uint256} (noted : List Event) (h : RoundSpec env peer s workSet s' set log)
    (hnoted : ∀ e ∈ noted, ∃ tx, e = .verdict tx .orphaned) :
    RoundSpec env peer s (hash :: workSet) s' set (.taken peer hash :: noted ++ log) where
  wf := h.wf
  workSets := h.workSets
  sound := by
    intro e he
    rw [cons_append, mem_cons, mem_append] at he
    rcases he with rfl | he | he
    · trivial
    · obtain ⟨tx, rfl⟩ := hnoted e he
      trivial
    · exact h.sound e he
  followed := by
    intro e he
    rw [cons_append, mem_cons, mem_append] at he
    rcases he with rfl | he | he
    · trivial
    · obtain ⟨tx, rfl⟩ := hnoted e he
      trivial
    · have hold := h.followed e he
      unfold Event.Followed at hold ⊢
      split at hold
      · obtain ⟨p, o, b, a, hmem⟩ := hold
        exact ⟨p, o, b, a, mem_append_right _ hmem⟩
      · trivial
  released := by
    intro peer' tx orphans before after he
    rw [cons_append, mem_cons, mem_append] at he
    rcases he with he | he | he
    · cases he
    · obtain ⟨_, heq⟩ := hnoted _ he
      cases heq
    · exact h.released _ _ _ _ _ he
  taken := by
    intro h' hmem
    rcases mem_cons.mp hmem with rfl | hmem
    · exact .inr (mem_append_left _ mem_cons_self)
    · rcases h.taken h' hmem with hset | hlog
      · exact .inl hset
      · exact .inr (mem_append_right _ hlog)
  progress := h.progress

theorem processOrphanTx_spec (hwf : s.orphans.Wf env.hashing)
    (h : processOrphanTx env peer s workSet = .ok (s', set, log)) :
    RoundSpec env peer s workSet s' set log := by
  induction workSet generalizing s log with
  | nil =>
    cases h
    exact ⟨hwf, rfl, by simp, by simp, by simp, by simp, .inl rfl⟩
  | cons hash rest ih =>
    obtain ⟨-, log', hrec, rfl⟩ | ⟨orphan, pool, _, hfind, -, hcase⟩ := processOrphanTx_cases h
    · exact (ih hwf hrec).skip [] (by simp)
    obtain ⟨-, log', hrec, rfl⟩ | ⟨orphans, herase, hcase⟩ := hcase
    · have hspec : RoundSpec env peer { s with pool := pool } rest s' set log' := ih hwf hrec
      have hspec' : RoundSpec env peer s rest s' set log' :=
        ⟨hspec.wf, hspec.workSets, hspec.sound, hspec.followed, hspec.released, hspec.taken,
          hspec.progress⟩
      exact hspec'.skip [.verdict orphan.tx .orphaned] (by simp)
    -- the orphan leaves the pool and the round is over
    obtain ⟨_, hp', hwf', -⟩ := hwf.eraseOrphanTx hash
    rw [herase] at hp'
    cases hp'
    have hsize := size_eraseOrphanTx hfind herase
    have hkey := hwf.keyed hash orphan hfind
    obtain ⟨-, rfl, rfl, rfl⟩ | ⟨_, -, -, rfl, rfl, rfl⟩ := hcase
    · refine ⟨hwf', rfl, ?_, ?_, ?_, ?_, .inr hsize⟩
      · intro e he
        simp only [mem_cons, not_mem_nil, or_false] at he
        rcases he with rfl | rfl | rfl
        · trivial
        · trivial
        · exact ⟨hwf, by rw [hkey]⟩
      · intro e he
        simp only [mem_cons, not_mem_nil, or_false] at he
        rcases he with rfl | rfl | rfl
        · trivial
        · exact ⟨_, _, _, _, mem_cons_of_mem _ (mem_cons_of_mem _ mem_cons_self)⟩
        · trivial
      · intro peer' tx orphans' before after he
        simp only [mem_cons, not_mem_nil, or_false, reduceCtorEq, false_or] at he
        cases he
        exact ⟨rfl, rfl⟩
      · intro h' hmem
        rcases mem_cons.mp hmem with rfl | hmem
        · exact .inr (by simp)
        · exact .inl (mem_releaseChildren.mpr (.inl hmem))
    · refine ⟨hwf', rfl, ?_, ?_, ?_, ?_, .inr hsize⟩
      · intro e he
        simp only [mem_cons, not_mem_nil, or_false] at he
        rcases he with rfl | rfl <;> trivial
      · intro e he
        simp only [mem_cons, not_mem_nil, or_false] at he
        rcases he with rfl | rfl <;> trivial
      · intro peer' tx orphans' before after he
        simp only [mem_cons, not_mem_nil, or_false, reduceCtorEq] at he
      · intro h' hmem
        rcases mem_cons.mp hmem with rfl | hmem
        · exact .inr (by simp)
        · exact .inl hmem

structure StepSpec (env : RelayEnv Pool) (s' : RelayState Pool) (log : List Event) : Prop where
  wf : s'.orphans.Wf env.hashing
  sound : ∀ e ∈ log, e.Sound env.hashing
  followed : ∀ e ∈ log, e.Followed log
  kept : ∀ e ∈ log, e.Kept s'.workSets log

theorem StepSpec.quiet (hwf : s'.orphans.Wf env.hashing)
    (hlog : ∀ e ∈ log, ∃ tx outcome, e = .verdict tx outcome ∧ outcome ≠ .accepted) :
    StepSpec env s' log := by
  refine ⟨hwf, ?_, ?_, ?_⟩
  all_goals
    intro e he
    obtain ⟨tx, outcome, rfl, hne⟩ := hlog e he
  · trivial
  · cases outcome with
    | accepted => exact absurd rfl hne
    | orphaned => trivial
    | rejectedParents => trivial
    | refused result => trivial
  · trivial

theorem processWorkSet_spec (hwf : s.orphans.Wf env.hashing)
    (h : s.processWorkSet env peer workSet = .ok (log, s')) :
    StepSpec env s' log ∧ (∀ hash ∈ workSet, hash ∈ s'.workSets peer ∨ .taken peer hash ∈ log) ∧
      (s'.workSets peer = [] ∨ s'.orphans.size < s.orphans.size) := by
  obtain ⟨s₁, set, hround, rfl⟩ := processWorkSet_eq_ok h
  have hspec := processOrphanTx_spec hwf hround
  have hset : ({ s₁ with workSets := Function.update s₁.workSets peer set } :
      RelayState Pool).workSets peer = set := Function.update_self ..
  refine ⟨⟨hspec.wf, hspec.sound, hspec.followed, ?_⟩, ?_, ?_⟩
  · intro e he
    cases e with
    | verdict tx outcome => trivial
    | taken peer' hash => trivial
    | released peer' tx orphans before after =>
      obtain ⟨rfl, rfl⟩ := hspec.released _ _ _ _ _ he
      intro hash hmem
      exact .inl (by rw [hset]; exact hmem)
  · intro hash hmem
    rw [hset]
    exact hspec.taken hash hmem
  · rw [hset]
    exact hspec.progress

theorem handleAccepted_spec (hwf : s.orphans.Wf env.hashing)
    (h : s.handleAccepted env peer tx = .ok (log, s')) : StepSpec env s' log := by
  obtain ⟨⟨_, _⟩, hround, heq⟩ := Outcome.map_eq_ok.mp h
  cases heq
  obtain ⟨hspec, htaken, -⟩ := processWorkSet_spec hwf hround
  refine ⟨hspec.wf, ?_, ?_, ?_⟩
  · intro e he
    simp only [mem_cons] at he
    rcases he with rfl | rfl | he
    · trivial
    · exact ⟨hwf, rfl⟩
    · exact hspec.sound e he
  · intro e he
    simp only [mem_cons] at he
    rcases he with rfl | rfl | he
    · exact ⟨_, _, _, _, mem_cons_of_mem _ mem_cons_self⟩
    · trivial
    · have hold := hspec.followed e he
      unfold Event.Followed at hold ⊢
      split at hold
      · obtain ⟨p, o, b, a, hmem⟩ := hold
        exact ⟨p, o, b, a, by simp [hmem]⟩
      · trivial
  · intro e he
    simp only [mem_cons] at he
    rcases he with rfl | rfl | he
    · trivial
    · intro hash hmem
      rcases htaken hash hmem with hin | hlog
      · exact .inl hin
      · exact .inr (by simp [hlog])
    · have hold := hspec.kept e he
      unfold Event.Kept at hold ⊢
      split at hold
      · intro hash hmem
        rcases hold hash hmem with hin | hlog
        · exact .inl hin
        · exact .inr (by simp [hlog])
      · trivial

theorem handleMissing_spec {now : Int} {rng : List Nat} (hwf : s.orphans.Wf env.hashing)
    (h : s.handleMissing env peer tx now rng = .ok (log, s')) : StepSpec env s' log := by
  unfold handleMissing at h
  split_ifs at h
  · cases h
    exact .quiet hwf (by simp)
  · obtain ⟨⟨orphans, _⟩, hlimit, heq⟩ := Outcome.map_eq_ok.mp h
    cases heq
    obtain ⟨_, _, hp', hwf', -⟩ := (hwf.addOrphanTx tx peer now).limitOrphanTxSize env.nMaxOrphanTx
      s.nNextSweep now rng
    rw [hlimit] at hp'
    cases hp'
    exact .quiet hwf' (by simp)

theorem checkTip_orphans (s : RelayState Pool) : s.checkTip.orphans = s.orphans := by
  unfold checkTip
  split_ifs <;> rfl

/-- **Step lemma**: the indexes stay exact and every release is as the source makes it. -/
theorem step_spec {a : RelayInput Pool} (hwf : s.orphans.Wf env.hashing)
    (h : s.step env a = .ok (log, s')) : StepSpec env s' log := by
  cases a with
  | tx peer tx now rng =>
    have hwf' : s.checkTip.orphans.Wf env.hashing := by rwa [checkTip_orphans]
    obtain ⟨-, rfl, rfl⟩ | ⟨pool, _, -, hcase⟩ := handleTx_cases h
    · exact .quiet hwf' (by simp)
    obtain ⟨-, haccepted⟩ | ⟨-, hmissing⟩ | ⟨_, -, -, rfl, rfl⟩ := hcase
    · exact handleAccepted_spec (s := { s.checkTip with pool := pool }) hwf' haccepted
    · exact handleMissing_spec (s := { s.checkTip with pool := pool }) hwf' hmissing
    · exact .quiet hwf' (by simp)
  | processOrphans peer => exact (processWorkSet_spec hwf h).1
  | disconnect peer =>
    obtain ⟨orphans, herase, heq⟩ := Outcome.map_eq_ok.mp h
    cases heq
    obtain ⟨p', hp', hwf', -⟩ := hwf.eraseAll
      ((s.orphans.mapOrphanTransactions.entries.filter fun e => e.2.fromPeer = peer).map (·.1))
    rw [← eraseOrphansFor, herase] at hp'
    cases hp'
    exact .quiet hwf' (by simp)
  | blockConnected tip vtx pool =>
    obtain ⟨orphans, herase, heq⟩ := Outcome.map_eq_ok.mp h
    cases heq
    obtain ⟨p', hp', hwf', -⟩ := hwf.eraseAll (s.orphansPrecluded vtx)
    rw [herase] at hp'
    cases hp'
    exact .quiet hwf' (by simp)
  | blockDisconnected tip pool =>
    cases h
    exact .quiet hwf (by simp)
  | poolChanged pool =>
    cases h
    exact .quiet hwf (by simp)

theorem run_orphans_wf {pool : Pool} {tip : Uint256} {inputs : List (RelayInput Pool)}
    (hrun : (machine env).run (init pool tip) inputs = .ok (logs, s)) :
    s.orphans.Wf env.hashing := by
  have hkeep : ∀ s a log s',
      s.orphans.Wf env.hashing → (machine env).step s a = .ok (log, s') →
        s'.orphans.Wf env.hashing :=
    fun _ _ _ _ hwf hstep => (step_spec hwf hstep).wf
  exact Machine.run_keeps hkeep inputs _ _ _ wf_empty hrun

/-- Rounds in a row work off the work set: each one empties it or makes the orphan pool smaller. -/
theorem rounds_drain {n : Nat} (hwf : s.orphans.Wf env.hashing)
    (hn : s.workSets peer = [] ∨ s.orphans.size < n)
    (hrun : (machine env).run s (List.replicate n (.processOrphans peer)) = .ok (logs, s')) :
    s'.workSets peer = [] ∧ ∀ hash ∈ s.workSets peer, ∃ log ∈ logs, .taken peer hash ∈ log := by
  induction n generalizing s logs with
  | zero =>
    cases hrun
    have hempty := hn.resolve_right (Nat.not_lt_zero _)
    exact ⟨hempty, by simp [hempty]⟩
  | succ n ih =>
    obtain ⟨log, _, s₁, hstep, hrest, rfl⟩ := Machine.run_cons_eq_ok hrun
    obtain ⟨hspec, htaken, hprogress⟩ := processWorkSet_spec hwf hstep
    have hn' : s₁.workSets peer = [] ∨ s₁.orphans.size < n := by
      rcases hn with hempty | hlt
      · left
        have hidle : s.processWorkSet env peer (s.workSets peer) = .ok (log, s₁) := hstep
        rw [hempty] at hidle
        cases hidle
        exact Function.update_self ..
      · exact hprogress.imp_right fun h => by omega
    obtain ⟨hempty, hrec⟩ := ih hspec.wf hn' hrest
    refine ⟨hempty, fun hash hmem => ?_⟩
    rcases htaken hash hmem with hin | hlog
    · obtain ⟨log', hlog', hin'⟩ := hrec hash hin
      exact ⟨log', mem_cons_of_mem _ hlog', hin'⟩
    · exact ⟨log, mem_cons_self .., hlog⟩

/-! ### Orphan resolution -/

/-- In every run, an acceptance puts all orphans that spend an output of the accepted transaction into
    the work set exactly if those that spend an extension block output spend a canonical one too, or
    are there already. What is in the work set is taken, or stays there until later rounds take it. -/
theorem orphans_resolved_iff {pool : Pool} {tip : Uint256} {inputs : List (RelayInput Pool)}
    {logs : List (List Event)} {a : RelayInput Pool}
    (hrun : (machine env).run (init pool tip) inputs = .ok (logs, s))
    (hstep : (machine env).step s a = .ok (log, s')) : (∀ tx, .verdict tx .accepted ∈ log →
      ∃ peer orphans before after, .released peer tx orphans before after ∈ log) ∧
    (∀ peer tx orphans before after, .released peer tx orphans before after ∈ log →
      (Resolved env.hashing tx orphans after ↔ MWEBChildrenReached env.hashing tx orphans before) ∧
        ∀ hash ∈ after, hash ∈ s'.workSets peer ∨ .taken peer hash ∈ log) ∧ ∀ peer logs' s'',
      (machine env).run s' (List.replicate (s'.orphans.size + 1) (.processOrphans peer)) =
          .ok (logs', s'') → s''.workSets peer = [] ∧
          ∀ hash ∈ s'.workSets peer, ∃ log' ∈ logs', .taken peer hash ∈ log' := by
  have hspec := step_spec (run_orphans_wf hrun) hstep
  refine ⟨fun tx hmem => hspec.followed _ hmem, ?_, ?_⟩
  · intro peer tx orphans before after hmem
    obtain ⟨hwf, rfl⟩ := hspec.sound _ hmem
    exact ⟨resolved_releaseChildren_iff hwf tx before, hspec.kept _ hmem⟩
  · intro peer logs' s'' hrounds
    exact rounds_drain hspec.wf (.inr (Nat.lt_succ_self _)) hrounds

/-- Both outputs of `peginTx` are spent, that of the extension block and the canonical one, and a
    coin of the chain. -/
def bothChild : CMutableTransaction :=
  { mwebChild with
    vin := [⟨1, 1⟩, ⟨peginTx.computeHash numberHashing, 0⟩].map fun prevout =>
      { prevout, scriptSig := [], nSequence := 0, scriptWitness := [] }
    vout := [{ nValue := 5, scriptPubKey := [] }] }

/-- A release with an orphan that spends a canonical output and is put into the work set, as all
    orphans are, as a test. -/
def releasesAll (H : Hashing) : Event → Bool
  | .released _ p orphans _ after => decide (orphans.size = 1) &&
    orphans.mapOrphanTransactions.keys.all fun hash =>
      match orphans.txOf hash with
      | some tx => decide (SpendsCanonical H tx p) && decide (hash ∈ after)
      | none => false
  | _ => false

theorem reached_of_releasesAll {H : Hashing} {e : Event} (h : releasesAll H e = true) :
    ∃ peer p orphans before after, e = .released peer p orphans before after ∧ orphans.size = 1 ∧
      MWEBChildrenReached H p orphans before := by
  cases e with
  | verdict tx outcome => cases h
  | taken peer hash => cases h
  | released peer p orphans before after =>
    obtain ⟨hsize, hall⟩ := Bool.and_eq_true_iff.mp h
    refine ⟨peer, p, orphans, before, after, rfl, of_decide_eq_true hsize, fun hash tx htx _ => .inl ?_⟩
    obtain ⟨orphan, hfind, -⟩ := OrphanPool.txOf_eq_some.mp htx
    have hkey : hash ∈ orphans.mapOrphanTransactions.keys :=
      AList.lookup_isSome.mp (Option.isSome_iff_exists.mpr ⟨orphan, hfind⟩)
    have hhash := all_eq_true.mp hall hash hkey
    rw [htx] at hhash
    simp only [Bool.and_eq_true, decide_eq_true_eq] at hhash
    exact hhash.1

/-- The orphan waits for `peginTx`, and is released when that is accepted. -/
theorem orphans_resolved_iff_bothChild : ∃ logs s log s',
    (machine numberEnv).run (init [] 0) [.tx 0 bothChild 0 []] = .ok (logs, s) ∧
      (machine numberEnv).step s (.tx 1 peginTx 0 []) = .ok (log, s') ∧
      ∃ peer p orphans before after, .released peer p orphans before after ∈ log ∧ orphans.size = 1 ∧
        Resolved numberHashing p orphans after := by
  have hok : ((machine numberEnv).run (init [] 0) [.tx 0 bothChild 0 []] >>= fun r =>
      (machine numberEnv).step r.2 (.tx 1 peginTx 0 [])).map (fun r => r.1.any (releasesAll numberHashing)) =
        .ok true := by
    decide +kernel
  obtain ⟨⟨log, s'⟩, hboth, hany⟩ := Outcome.map_eq_ok.mp hok
  obtain ⟨⟨logs, s⟩, hrun, hstep⟩ := Outcome.bind_eq_ok.mp hboth
  obtain ⟨e, he, hreleases⟩ := any_eq_true.mp hany
  obtain ⟨peer, p, orphans, before, after, rfl, hsize, hreached⟩ := reached_of_releasesAll hreleases
  have hiff := ((orphans_resolved_iff hrun hstep).2.1 peer p orphans before after he).1
  exact ⟨logs, s, log, s', hrun, hstep, peer, p, orphans, before, after, he, hsize, hiff.mpr hreached⟩

/-- A release that leaves an orphan behind, as a test. -/
def leavesBehind (H : Hashing) : Event → Bool
  | .released _ p orphans _ after =>
    orphans.mapOrphanTransactions.keys.any fun hash =>
      match orphans.txOf hash with
      | some tx => tx.getSpentIDs.any (fun id => decide (id ∈ p.getOutputIDs H)) && decide (hash ∉ after)
      | none => false
  | _ => false

theorem not_resolved_of_leavesBehind {H : Hashing} {e : Event} (h : leavesBehind H e = true) :
    ∃ peer p orphans before after, e = .released peer p orphans before after ∧
      ¬ Resolved H p orphans after := by
  cases e with
  | verdict tx outcome => cases h
  | taken peer hash => cases h
  | released peer p orphans before after =>
    refine ⟨peer, p, orphans, before, after, rfl, fun hresolved => ?_⟩
    obtain ⟨hash, -, hhash⟩ := any_eq_true.mp h
    split at hhash
    · rename_i tx htx
      rw [Bool.and_eq_true, decide_eq_true_eq] at hhash
      obtain ⟨hspends, hout⟩ := hhash
      obtain ⟨id, hid, hmem⟩ := any_eq_true.mp hspends
      exact hout (hresolved hash tx htx (.inr ⟨id, of_decide_eq_true hmem, hid⟩))
    · cases hhash

/-- The orphan spends an extension block output of the transaction that arrives next, and stays out
    of the work set. -/
theorem mwebChild_left_behind :
    ∃ logs s, (machine numberEnv).run (init [] 0) [.tx 0 mwebChild 0 [], .tx 1 peginTx 0 []] =
        .ok (logs, s) ∧
      ∃ e ∈ logs.flatten, ∃ peer p orphans before after, e = .released peer p orphans before after ∧
        ¬ Resolved numberHashing p orphans after := by
  have hok : ((machine numberEnv).run (init [] 0) [.tx 0 mwebChild 0 [], .tx 1 peginTx 0 []]).map
      (fun r => r.1.flatten.any (leavesBehind numberHashing)) = .ok true := by
    decide +kernel
  obtain ⟨⟨logs, s⟩, hrun, hany⟩ := Outcome.map_eq_ok.mp hok
  obtain ⟨e, he, hleft⟩ := any_eq_true.mp hany
  exact ⟨logs, s, hrun, e, he, not_resolved_of_leavesBehind hleft⟩

/-! ### The limit -/

theorem size_processWorkSet_le (h : s.processWorkSet env peer workSet = .ok (log, s')) :
    s'.orphans.size ≤ s.orphans.size := by
  obtain ⟨s₁, set, hround, rfl⟩ := processWorkSet_eq_ok h
  clear h
  induction workSet generalizing s log with
  | nil =>
    cases hround
    exact Nat.le_refl _
  | cons hash rest ih =>
    obtain ⟨-, log', hrec, -⟩ | ⟨_, pool, _, -, -, hcase⟩ := processOrphanTx_cases hround
    · exact ih hrec
    obtain ⟨-, log', hrec, -⟩ | ⟨orphans, herase, hcase⟩ := hcase
    · exact ih (s := { s with pool := pool }) hrec
    obtain ⟨-, -, rfl, -⟩ | ⟨_, -, -, -, rfl, -⟩ := hcase
    · exact size_eraseOrphanTx_le herase
    · exact size_eraseOrphanTx_le herase

/-- The indexes list exactly the orphans, of which there are no more than allowed. -/
def Limited (env : RelayEnv Pool) (s : RelayState Pool) : Prop :=
  s.orphans.Wf env.hashing ∧ s.orphans.size ≤ env.nMaxOrphanTx

theorem Limited.step {a : RelayInput Pool} (hs : Limited env s) (h : s.step env a = .ok (log, s')) :
    Limited env s' := by
  refine ⟨(step_spec hs.1 h).wf, ?_⟩
  obtain ⟨hwf, hle⟩ := hs
  cases a with
  | tx peer tx now rng =>
    rw [← checkTip_orphans] at hwf hle
    obtain ⟨-, -, rfl⟩ | ⟨pool, _, -, ⟨-, haccepted⟩ | ⟨-, hmissing⟩ | ⟨_, -, -, -, rfl⟩⟩ := handleTx_cases h
    · exact hle
    · obtain ⟨_, hround, heq⟩ := Outcome.map_eq_ok.mp haccepted
      cases heq
      exact (size_processWorkSet_le hround).trans hle
    · -- only here an orphan is added, and `LimitOrphanTxSize` is called
      unfold handleMissing at hmissing
      split_ifs at hmissing
      · cases hmissing
        exact hle
      · obtain ⟨⟨orphans, _⟩, hlimit, heq⟩ := Outcome.map_eq_ok.mp hmissing
        cases heq
        obtain ⟨_, _, hp', -, hsize⟩ := (hwf.addOrphanTx tx peer now).limitOrphanTxSize env.nMaxOrphanTx
          s.checkTip.nNextSweep now rng
        cases hlimit.symm.trans hp'
        exact hsize
    · exact hle
  | processOrphans peer => exact (size_processWorkSet_le h).trans hle
  | disconnect peer | blockConnected tip vtx pool =>
    obtain ⟨orphans, herase, heq⟩ := Outcome.map_eq_ok.mp h
    cases heq
    obtain ⟨_, hp', -, hsize⟩ := hwf.eraseAll _
    cases herase.symm.trans hp'
    exact hsize.trans hle
  | blockDisconnected tip pool | poolChanged pool =>
    cases h
    exact hle

/-- **Bounded memory**: whatever the peers send, no more orphans wait than `-maxorphantx` allows. -/
theorem orphans_bounded {pool : Pool} {tip : Uint256} (inputs : List (RelayInput Pool))
    (hrun : (machine env).run (init pool tip) inputs = .ok (logs, s)) : Limited env s :=
  Machine.run_keeps (fun _ _ _ _ hs h => hs.step h) inputs _ _ _ ⟨wf_empty, Nat.zero_le _⟩ hrun

/-- Both transactions are kept as orphans when they arrive, the second is one too many, and one of
    them is evicted. -/
theorem orphans_bounded_evicts : ∃ s,
    (machine { numberEnv with nMaxOrphanTx := 1 }).run (init [] 0) [.tx 1 mwebChild 0 [], .tx 1 bothChild 0 [0]] =
      .ok ([[.verdict mwebChild .orphaned], [.verdict bothChild .orphaned]], s) ∧ s.orphans.size ≤ 1 := by
  have hok : ((machine { numberEnv with nMaxOrphanTx := 1 }).run (init [] 0)
      [.tx 1 mwebChild 0 [], .tx 1 bothChild 0 [0]]).map Prod.fst =
        .ok [[.verdict mwebChild .orphaned], [.verdict bothChild .orphaned]] := rfl
  obtain ⟨⟨logs, s⟩, hrun, rfl⟩ := Outcome.map_eq_ok.mp hok
  exact ⟨s, hrun, (orphans_bounded _ hrun).2⟩

end RelayState

end Defcoin.Relay
