import Defcoin.Relay.ProcessTx

/-! # Which copies of a transaction keep it out

  `recentRejects` holds hashes. A copy of a transaction with another witness has another witness
  hash, but a copy with another extension part has the same two hashes, so that its refusal keeps
  the transaction itself out until the tip changes.
-/

namespace Defcoin.Relay

open CMutableTransaction List Event

/-! ### The contents of the filter -/

/-- The hashes that an event adds to `recentRejects`. -/
def Event.rejects (H : Hashing) : Event → List Uint256
  | .verdict tx (.refused result) => rejectedHashes H tx result
  | .verdict tx .rejectedParents => [tx.computeWitnessHash H, tx.computeHash H]
  | _ => []

def RelayInput.KeepsTip {Pool : Type} : RelayInput Pool → Prop
  | .blockConnected .. => False
  | .blockDisconnected .. => False
  | _ => True

namespace RelayState

variable {Pool : Type} {env : RelayEnv Pool} {peer : Nat} {s s' : RelayState Pool} {log : List Event}

/-- What happens to the filter while the tip stays. -/
structure Filtered (H : Hashing) (s s' : RelayState Pool) (log : List Event) : Prop where
  tip : s'.tip = s.tip
  hash : s'.hashRecentRejectsChainTip = s.hashRecentRejectsChainTip
  rejects : ∀ x, x ∈ s'.recentRejects ↔ x ∈ s.recentRejects ∨ ∃ e ∈ log, x ∈ e.rejects H

variable {rng : List Nat} {now : Int} {H : Hashing} {tx : CMutableTransaction}

theorem Filtered.quiet (htip : s'.tip = s.tip)
    (hhash : s'.hashRecentRejectsChainTip = s.hashRecentRejectsChainTip)
    (hrejects : s'.recentRejects = s.recentRejects) (hlog : ∀ e ∈ log, e.rejects H = []) :
    Filtered H s s' log := by
  refine ⟨htip, hhash, fun x => ?_⟩
  rw [hrejects, or_iff_left]
  rintro ⟨e, he, hx⟩
  rw [hlog e he] at hx
  cases hx

theorem Filtered.prepend (noted : List Event) (h : Filtered H s s' log)
    (hnoted : ∀ e ∈ noted, e.rejects H = []) : Filtered H s s' (noted ++ log) := by
  refine ⟨h.tip, h.hash, fun x => ?_⟩
  rw [h.rejects x]
  apply or_congr_right
  constructor
  · rintro ⟨e, he, hx⟩
    exact ⟨e, mem_append_right _ he, hx⟩
  · rintro ⟨e, he, hx⟩
    rcases mem_append.mp he with he | he
    · rw [hnoted e he] at hx
      cases hx
    · exact ⟨e, he, hx⟩

theorem processOrphanTx_filtered {workSet set : List Uint256}
    (h : processOrphanTx env peer s workSet = .ok (s', set, log)) : Filtered env.hashing s s' log := by
  induction workSet generalizing s log with
  | nil =>
    cases h
    exact .quiet rfl rfl rfl (by simp)
  | cons hash rest ih =>
    obtain ⟨-, log', hrec, rfl⟩ | ⟨_, pool, _, -, -, hcase⟩ := processOrphanTx_cases h
    · exact (ih hrec).prepend [_] (by simp [rejects])
    obtain ⟨-, log', hrec, rfl⟩ | ⟨_, -, hcase⟩ := hcase
    · have hrest : Filtered env.hashing { s with pool := pool } s' log' := ih hrec
      have hrest' : Filtered env.hashing s s' log' := ⟨hrest.tip, hrest.hash, hrest.rejects⟩
      exact hrest'.prepend [_, _] (by simp [rejects])
    obtain ⟨-, rfl, rfl, rfl⟩ | ⟨_, -, -, rfl, rfl, rfl⟩ := hcase
    · exact .quiet rfl rfl rfl (by simp [rejects])
    · refine ⟨rfl, rfl, fun x => ?_⟩
      simp only [mem_append, mem_cons, not_mem_nil, or_false, exists_eq_or_imp,
        exists_eq_left, rejects, false_or]
      exact or_comm

theorem processWorkSet_filtered {workSet : List Uint256}
    (h : s.processWorkSet env peer workSet = .ok (log, s')) : Filtered env.hashing s s' log := by
  obtain ⟨_, _, hround, rfl⟩ := processWorkSet_eq_ok h
  have hspec := processOrphanTx_filtered hround
  exact ⟨hspec.tip, hspec.hash, hspec.rejects⟩

theorem handleMissing_filtered (h : s.handleMissing env peer tx now rng = .ok (log, s')) :
    Filtered env.hashing s s' log := by
  unfold handleMissing at h
  split_ifs at h
  · cases h
    refine ⟨rfl, rfl, fun x => ?_⟩
    simp only [mem_cons, not_mem_nil, or_false, exists_eq_left, rejects]
    tauto
  · obtain ⟨⟨_, _⟩, -, heq⟩ := Outcome.map_eq_ok.mp h
    cases heq
    exact .quiet rfl rfl rfl (by simp [rejects])

theorem handleTx_filtered (h : s.handleTx env peer tx now rng = .ok (log, s')) :
    Filtered env.hashing s s' log := by
  obtain ⟨-, rfl, rfl⟩ | ⟨pool, _, -, hcase⟩ := handleTx_cases h
  · exact .quiet rfl rfl rfl (by simp)
  obtain ⟨-, haccepted⟩ | ⟨-, hmissing⟩ | ⟨_, -, -, rfl, rfl⟩ := hcase
  · obtain ⟨⟨log', _⟩, hround, heq⟩ := Outcome.map_eq_ok.mp haccepted
    cases heq
    have hspec : Filtered env.hashing { s with pool := pool } s' log' := processWorkSet_filtered hround
    have hspec' : Filtered env.hashing s s' log' := ⟨hspec.tip, hspec.hash, hspec.rejects⟩
    exact hspec'.prepend [_, _] (by simp [rejects])
  · have hspec : Filtered env.hashing { s with pool := pool } s' log := handleMissing_filtered hmissing
    exact ⟨hspec.tip, hspec.hash, hspec.rejects⟩
  · refine ⟨rfl, rfl, fun x => ?_⟩
    simp only [mem_append, mem_cons, not_mem_nil, or_false, exists_eq_left]
    exact or_comm

/-- The filter was reset for the present tip. -/
def Current (s : RelayState Pool) : Prop := s.hashRecentRejectsChainTip = s.tip

theorem checkTip_of_current (h : s.Current) : s.checkTip = s := by
  exact if_neg fun hne => hne h.symm

theorem step_filtered {a : RelayInput Pool} (hcurrent : s.Current) (ha : a.KeepsTip)
    (h : s.step env a = .ok (log, s')) : Filtered env.hashing s s' log := by
  cases a with
  | tx peer tx now rng =>
    rw [step, checkTip_of_current hcurrent] at h
    exact handleTx_filtered h
  | processOrphans peer => exact processWorkSet_filtered h
  | disconnect peer =>
    obtain ⟨_, -, heq⟩ := Outcome.map_eq_ok.mp h
    cases heq
    exact .quiet rfl rfl rfl (by simp)
  | blockConnected tip vtx pool => exact ha.elim
  | blockDisconnected tip pool => exact ha.elim
  | poolChanged pool =>
    cases h
    exact .quiet rfl rfl rfl (by simp)

theorem run_filtered {inputs : List (RelayInput Pool)} {logs : List (List Event)} (hcurrent : s.Current)
    (htip : ∀ a ∈ inputs, a.KeepsTip) (hrun : (machine env).run s inputs = .ok (logs, s')) :
    Filtered env.hashing s s' logs.flatten := by
  induction inputs generalizing s logs with
  | nil =>
    cases hrun
    exact .quiet rfl rfl rfl (by simp)
  | cons a inputs ih =>
    obtain ⟨_, _, s₁, hstep, hrest, rfl⟩ := Machine.run_cons_eq_ok hrun
    have hfirst := step_filtered hcurrent (htip a mem_cons_self) hstep
    have hcurrent₁ : s₁.Current := by
      rw [Current, hfirst.hash, hfirst.tip]
      exact hcurrent
    have hlater := ih hcurrent₁ (fun b hb => htip b (mem_cons_of_mem _ hb)) hrest
    refine ⟨hlater.tip.trans hfirst.tip, hlater.hash.trans hfirst.hash, fun x => ?_⟩
    rw [hlater.rejects, hfirst.rejects, or_assoc]
    simp only [flatten_cons, mem_append, or_and_right, exists_or]

end RelayState

/-! ### Copies -/

/-- `v` is `t` but for the witnesses and the extension part. -/
def Copy (t v : CMutableTransaction) : Prop := v.stripped = t.stripped

def CMutableTransaction.withWitness (tx : CMutableTransaction) : TxPreimage :=
  .witness tx.nVersion tx.nLockTime tx.vin tx.vout

/-- No two different forms of `t` and `v` have one hash. -/
def NoCollision (H : Hashing) (t v : CMutableTransaction) : Prop :=
  ∀ a ∈ [v.stripped, v.withWitness], ∀ b ∈ [t.stripped, t.withWitness],
    H.serializeHash a = H.serializeHash b → a = b

/-- `v` carries an identifier of `t`. -/
def SharesId (H : Hashing) (t v : CMutableTransaction) : Prop :=
  v.computeHash H ∈ [t.computeHash H, t.computeWitnessHash H] ∨
    v.computeWitnessHash H ∈ [t.computeHash H, t.computeWitnessHash H]

/-- A verdict on a copy of `t` that keeps `t` out: every refusal but that of a stripped witness, on
    one with the inputs and witnesses of `t`; if `t` has no witness, on any copy the refusals that
    hold for the hash without witnesses. -/
def Censors (H : Hashing) (t v : CMutableTransaction) (outcome : Outcome) : Prop :=
  v.computeHash H = t.computeHash H ∧
    ((v.vin = t.vin ∧
        (outcome = .rejectedParents ∨ ∃ r, outcome = .refused r ∧ r ≠ .TX_WITNESS_STRIPPED)) ∨
      (t.hasWitness = false ∧
        (outcome = .rejectedParents ∨ outcome = .refused .TX_INPUTS_NOT_STANDARD)))

section Copies
variable {H : Hashing} {t v : CMutableTransaction}

theorem Copy.vin_ne_nil (h : Copy t v) : v.vin ≠ [] ↔ t.vin ≠ [] := by
  have hmap := (TxPreimage.noWitness.inj h).2.2.1
  rw [not_iff_not, ← map_eq_nil_iff, hmap, map_eq_nil_iff]

theorem Copy.computeHash (h : Copy t v) (hvin : t.vin ≠ []) : v.computeHash H = t.computeHash H := by
  rw [computeHash_of_vin hvin, computeHash_of_vin (h.vin_ne_nil.mpr hvin), h]

theorem vin_eq_of_not_hasWitness : ∀ {l m : List CTxIn},
    (l.map fun txin => (txin.prevout, txin.scriptSig, txin.nSequence)) =
      (m.map fun txin => (txin.prevout, txin.scriptSig, txin.nSequence)) →
    (l.any fun txin => !txin.scriptWitness.isEmpty) = false →
    (m.any fun txin => !txin.scriptWitness.isEmpty) = false → l = m := by
  intro l
  induction l with
  | nil =>
    intro m hmap _ _
    exact (map_eq_nil_iff.mp hmap.symm).symm
  | cons a l ih =>
    intro m hmap hl hm
    cases m with
    | nil => cases hmap
    | cons b m =>
      obtain ⟨hhead, htail⟩ := List.cons.inj hmap
      simp only [List.any_cons, Bool.or_eq_false_iff] at hl hm
      rw [ih htail hl.2 hm.2]
      cases a
      cases b
      simp_all

theorem Copy.computeWitnessHash_eq_iff (h : Copy t v) (hcr : NoCollision H t v) :
    v.computeWitnessHash H = t.computeWitnessHash H ↔
      v.computeHash H = t.computeHash H ∧ v.vin = t.vin := by
  obtain ⟨hversion, hlock, hmap, hvout⟩ := TxPreimage.noWitness.inj h
  constructor
  · intro heq
    cases hv : v.hasWitness <;> cases ht : t.hasWitness
    · rw [computeWitnessHash_of_not_hasWitness hv, computeWitnessHash_of_not_hasWitness ht] at heq
      exact ⟨heq, vin_eq_of_not_hasWitness hmap hv ht⟩
    · have hvin := vin_ne_nil_of_hasWitness ht
      rw [computeWitnessHash_of_not_hasWitness hv, computeWitnessHash_of_hasWitness ht,
        computeHash_of_vin (h.vin_ne_nil.mpr hvin)] at heq
      have hbad := hcr v.stripped (by simp) t.withWitness (by simp) heq
      cases hbad
    · have hvin := h.vin_ne_nil.mp (vin_ne_nil_of_hasWitness hv)
      rw [computeWitnessHash_of_hasWitness hv, computeWitnessHash_of_not_hasWitness ht,
        computeHash_of_vin hvin] at heq
      have hbad := hcr v.withWitness (by simp) t.stripped (by simp) heq
      cases hbad
    · have hvin := vin_ne_nil_of_hasWitness ht
      rw [computeWitnessHash_of_hasWitness hv, computeWitnessHash_of_hasWitness ht] at heq
      have hform := hcr v.withWitness (by simp) t.withWitness (by simp) heq
      exact ⟨h.computeHash hvin, (TxPreimage.witness.inj hform).2.2.1⟩
  · rintro ⟨hhash, hvin⟩
    rw [computeWitnessHash, computeWitnessHash, hhash,
      hasWitness, hasWitness, hvin, hversion, hlock, hvout]

theorem Copy.computeHash_eq_witnessHash_iff (h : Copy t v) (hcr : NoCollision H t v) :
    v.computeHash H = t.computeWitnessHash H ↔
      v.computeHash H = t.computeHash H ∧ t.hasWitness = false := by
  cases ht : t.hasWitness
  · rw [computeWitnessHash_of_not_hasWitness ht]
    simp
  · have hvin := vin_ne_nil_of_hasWitness ht
    refine iff_of_false (fun heq => ?_) (by simp)
    rw [computeWitnessHash_of_hasWitness ht, computeHash_of_vin (h.vin_ne_nil.mpr hvin)] at heq
    have hbad := hcr v.stripped (by simp) t.withWitness (by simp) heq
    cases hbad

theorem mem_rejectedHashes {x : Uint256} {r : TxResult} :
    x ∈ rejectedHashes H v r ↔ r ≠ .TX_WITNESS_STRIPPED ∧
      (v.computeWitnessHash H = x ∨ (r = .TX_INPUTS_NOT_STANDARD ∧ v.computeHash H = x)) := by
  unfold rejectedHashes
  split_ifs with hstripped hboth
  · simp [hstripped]
  · simp only [mem_cons, not_mem_nil, or_false, hboth.1, ne_eq, reduceCtorEq,
      not_false_eq_true, true_and]
    constructor
    · rintro (rfl | rfl)
      · exact .inr rfl
      · exact .inl rfl
    · rintro (rfl | rfl)
      · exact .inr rfl
      · exact .inl rfl
  · simp only [mem_cons, not_mem_nil, or_false, ne_eq, hstripped, not_false_eq_true, true_and]
    constructor
    · rintro rfl
      exact .inl rfl
    · rintro (rfl | ⟨hr, rfl⟩)
      · rfl
      · by_contra hne
        exact hboth ⟨hr, fun heq => hne heq.symm⟩

/-- **Copies**: the verdicts that put the witness hash of `t` into the filter. -/
theorem Copy.rejects_iff (h : Copy t v) (hcr : NoCollision H t v) (outcome : Outcome) :
    t.computeWitnessHash H ∈ (verdict v outcome).rejects H ↔ Censors H t v outcome := by
  have hwitness := h.computeWitnessHash_eq_iff hcr
  have hplain := h.computeHash_eq_witnessHash_iff hcr
  unfold Censors
  cases outcome with
  | accepted => simp [rejects]
  | orphaned => simp [rejects]
  | rejectedParents =>
    simp only [rejects, mem_cons]
    tauto
  | refused r =>
    simp only [rejects, mem_rejectedHashes, hwitness, hplain, reduceCtorEq, false_or,
      Outcome.refused.injEq, exists_eq_left']
    constructor
    · rintro ⟨hstripped, ⟨hhash, hvin⟩ | ⟨hr, hhash, hno⟩⟩
      · exact ⟨hhash, .inl ⟨hvin, hstripped⟩⟩
      · exact ⟨hhash, .inr ⟨hno, hr⟩⟩
    · rintro ⟨hhash, ⟨hvin, hstripped⟩ | ⟨hno, rfl⟩⟩
      · exact ⟨hstripped, .inl ⟨hhash, hvin⟩⟩
      · exact ⟨by decide, .inr ⟨rfl, hhash, hno⟩⟩

theorem sharesId_of_rejects {e : Event} (h : t.computeWitnessHash H ∈ e.rejects H) :
    ∃ v outcome, e = .verdict v outcome ∧ SharesId H t v := by
  cases e with
  | released peer tx orphans before after => cases h
  | taken peer hash => cases h
  | verdict v outcome =>
    refine ⟨v, outcome, rfl, ?_⟩
    cases outcome with
    | accepted => cases h
    | orphaned => cases h
    | rejectedParents =>
      simp only [rejects, mem_cons, not_mem_nil, or_false] at h
      rcases h with h | h
      · exact .inr (by simp [h])
      · exact .inl (by simp [h])
    | refused r =>
      rcases (mem_rejectedHashes.mp h).2 with h | ⟨-, h⟩
      · exact .inr (by simp [h])
      · exact .inl (by simp [h])

end Copies

/-! ### Censorship by copies -/

namespace RelayState

variable {Pool : Type} {env : RelayEnv Pool} {s s' : RelayState Pool}

/-- While the tip stays, if only copies of `t` carried its identifiers, then `t` is not in the
    filter exactly if no verdict on a copy was one that keeps it out. -/
theorem not_rejected_iff_no_copy_censors {t : CMutableTransaction} {inputs : List (RelayInput Pool)}
    {logs : List (List Event)} (hempty : s.recentRejects = []) (hcurrent : s.Current)
    (htip : ∀ a ∈ inputs, a.KeepsTip) (hrun : (machine env).run s inputs = .ok (logs, s'))
    (hcopies : ∀ v outcome, .verdict v outcome ∈ logs.flatten → SharesId env.hashing t v → Copy t v)
    (hcr : ∀ v outcome, .verdict v outcome ∈ logs.flatten → Copy t v → NoCollision env.hashing t v) :
    t.computeWitnessHash env.hashing ∉ s'.checkTip.recentRejects ↔
      ∀ v outcome, .verdict v outcome ∈ logs.flatten → Copy t v →
        ¬ Censors env.hashing t v outcome := by
  have hfiltered := run_filtered hcurrent htip hrun
  have hcurrent' : s'.Current := by
    rw [Current, hfiltered.hash, hfiltered.tip]
    exact hcurrent
  rw [checkTip_of_current hcurrent', hfiltered.rejects, hempty]
  constructor
  · intro hout v outcome hmem hcopy hcensors
    exact hout (.inr ⟨_, hmem, (hcopy.rejects_iff (hcr v outcome hmem hcopy) outcome).mpr hcensors⟩)
  · rintro hnone (hin | ⟨e, he, hrejects⟩)
    · cases hin
    · obtain ⟨v, outcome, rfl, hshares⟩ := sharesId_of_rejects hrejects
      have hcopy := hcopies v outcome he hshares
      exact hnone v outcome he hcopy ((hcopy.rejects_iff (hcr v outcome he hcopy) outcome).mp hrejects)

/-- Only the transaction itself is seen, and accepted. -/
theorem not_rejected_iff_no_copy_censors_pegin : ∃ logs s,
    (machine numberEnv).run (init [] 0) [.tx 0 peginTx 0 []] = .ok (logs, s) ∧
      peginTx.computeWitnessHash numberHashing ∉ s.checkTip.recentRejects := by
  have hlogs : ((machine numberEnv).run (init [] 0) [.tx 0 peginTx 0 []]).map Prod.fst =
      .ok [[.verdict peginTx .accepted, .released 0 peginTx .empty [] []]] := rfl
  obtain ⟨⟨logs, s⟩, hrun, rfl⟩ := Outcome.map_eq_ok.mp hlogs
  have honly : ∀ v outcome, verdict v outcome ∈
      [[verdict peginTx .accepted, .released 0 peginTx .empty [] []]].flatten → v = peginTx ∧ outcome = .accepted := by
    intro v outcome hmem
    simpa using hmem
  refine ⟨_, s, hrun, (not_rejected_iff_no_copy_censors (s := init [] 0) rfl rfl ?_ hrun ?_ ?_).mpr ?_⟩
  · intro a ha
    rw [mem_singleton.mp ha]
    trivial
  · intro v outcome hmem _
    rw [(honly v outcome hmem).1]
    rfl
  · intro v outcome hmem _
    rw [(honly v outcome hmem).1]
    unfold NoCollision
    decide +kernel
  · intro v outcome hmem _ hcensors
    rw [(honly v outcome hmem).2] at hcensors
    rcases hcensors with ⟨-, ⟨-, h | ⟨r, h, -⟩⟩ | ⟨-, h | h⟩⟩ <;> cases h

/-- A copy of the transaction without its extension part. -/
def strippedPegin : CMutableTransaction := { peginTx with mweb_tx := none }

theorem run_strippedPegin : (machine numberEnv).run (init [] 0) [.tx 0 strippedPegin 0 []] =
      .ok ([[.verdict strippedPegin (.refused .TX_WITNESS_MUTATED)]], { init [] 0 with
          recentRejects := rejectedHashes numberHashing strippedPegin .TX_WITNESS_MUTATED }) := by
  have hhave : alreadyHaveWtxid numberEnv (init [] 0) (strippedPegin.computeWitnessHash numberHashing) =
      false := by decide +kernel
  have haccept : acceptToMemoryPool numberEnv.toAcceptEnv [] strippedPegin =
      .ok ([], some .TX_WITNESS_MUTATED) := by decide +kernel
  have hstep : (machine numberEnv).step (init [] 0) (.tx 0 strippedPegin 0 []) =
      .ok ([.verdict strippedPegin (.refused .TX_WITNESS_MUTATED)], { init [] 0 with
          recentRejects := rejectedHashes numberHashing strippedPegin .TX_WITNESS_MUTATED }) := by
    show handleTx numberEnv (init [] 0).checkTip 0 strippedPegin 0 [] = _
    exact handleTx_of_refused hhave haccept (by decide)
  exact Machine.run_cons_of_step hstep rfl

/-- The pool would accept the transaction, but the copy has put its hash into the filter and it is
    dropped. -/
theorem peginTx_censored :
    ∃ logs s, (machine numberEnv).run (init [] 0) [.tx 0 strippedPegin 0 []] = .ok (logs, s) ∧
      logs = [[.verdict strippedPegin (.refused .TX_WITNESS_MUTATED)]] ∧ Copy peginTx strippedPegin ∧
      acceptToMemoryPool numberEnv.toAcceptEnv s.pool peginTx =
        .ok ([peginTx.computeHash numberHashing], none) ∧
      peginTx.computeWitnessHash numberHashing ∈ s.checkTip.recentRejects := by
  refine ⟨_, _, run_strippedPegin, rfl, rfl, ?_, ?_⟩
  · decide +kernel
  · decide +kernel

end RelayState

end Defcoin.Relay
