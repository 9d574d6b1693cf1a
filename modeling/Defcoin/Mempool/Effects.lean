import Defcoin.Mempool.Pool

/-! # What the pool operations change

  The operations on links and totals leave everything else as it is, so that what an addition or a
  removal does to the transactions and to the maps can be said without them.

  * `Framed`: nothing but links and totals is different.
  * `Removed`: a set of entries is gone, with their spends and outputs.
  * `Added`: one entry is new.
-/

namespace Defcoin.Mempool

open Outcome CTxMemPoolEntry AList Option

def CTxMemPoolEntry.static (e : CTxMemPoolEntry) : CTxMemPoolEntry :=
  { e with withDescendants := 0, withAncestors := 0, m_parents := [], m_children := [] }

namespace CTxMemPoolEntry

variable {e e' : CTxMemPoolEntry}

theorem static_own (h : e'.static = e.static) : e'.own = e.own := by
  have hown : e'.static.own = e.static.own := by rw [h]
  funext q
  have hq := congrFun hown q
  cases q <;> exact hq

theorem updateDescendantState_eq_ok {modify : DescendantTotals} (h : e.updateDescendantState modify = .ok e') :
    e' = { e with withDescendants := e.withDescendants + modify } := by
  unfold updateDescendantState at h
  dsimp only at h
  split_ifs at h
  cases h
  rfl

theorem updateAncestorState_eq_ok {modify : Totals} (h : e.updateAncestorState modify = .ok e') :
    e' = { e with withAncestors := e.withAncestors + modify } := by
  unfold updateAncestorState at h
  dsimp only at h
  split_ifs at h
  cases h
  rfl

end CTxMemPoolEntry

namespace CTxMemPool

variable {p p' p'' : CTxMemPool} {hash : Uint256} {cr : Mweb.Crypto}

/-! ### Single entries -/

variable {add updateDescendants : Bool} {f : CTxMemPoolEntry → Except Fault CTxMemPoolEntry}
  {setAncestors stage : List Uint256} {e : CTxMemPoolEntry}

theorem modify_eq_ok (h : p.modify f hash = .ok p') :
    ∃ e e', p.entry hash = some e ∧ f e = .ok e' ∧ p' = { p with mapTx := p.mapTx.insert hash e' } := by
  unfold modify at h
  split at h
  · cases h
  · rename_i e he
    obtain ⟨e', he', rfl⟩ := map_eq_ok.mp h
    exact ⟨e, e', he, he', rfl⟩

theorem entry_insert (p : CTxMemPool) (hash h : Uint256) (e : CTxMemPoolEntry) :
    ({ p with mapTx := p.mapTx.insert hash e } : CTxMemPool).entry h =
      if h = hash then some e else p.entry h := by
  split_ifs with hh
  · rw [hh]
    exact lookup_insert _
  · exact lookup_insert_ne hh

theorem contains_iff : p.contains hash = true ↔ ∃ e, p.entry hash = some e := by
  rw [contains, isSome_iff_exists]

theorem contains_iff_mem_keys : p.contains hash = true ↔ hash ∈ p.mapTx.keys := by
  rw [contains, entry, lookup_isSome, mem_keys]

/-! ### Frames -/

def static (p : CTxMemPool) (hash : Uint256) : Option CTxMemPoolEntry :=
  (p.entry hash).map CTxMemPoolEntry.static

structure Framed (p p' : CTxMemPool) : Prop where
  static : ∀ hash, p'.static hash = p.static hash
  mapNextTx : p'.mapNextTx = p.mapNextTx
  mapTxOutputs_MWEB : p'.mapTxOutputs_MWEB = p.mapTxOutputs_MWEB
  mapDeltas : p'.mapDeltas = p.mapDeltas
  totalTxSize : p'.totalTxSize = p.totalTxSize

theorem Framed.refl (p : CTxMemPool) : Framed p p := ⟨fun _ => rfl, rfl, rfl, rfl, rfl⟩

theorem Framed.trans (h : Framed p p') (h' : Framed p' p'') : Framed p p'' :=
  ⟨fun hash => (h'.static hash).trans (h.static hash), h'.mapNextTx.trans h.mapNextTx,
    h'.mapTxOutputs_MWEB.trans h.mapTxOutputs_MWEB, h'.mapDeltas.trans h.mapDeltas,
    h'.totalTxSize.trans h.totalTxSize⟩

theorem Framed.modify (hf : ∀ e e', f e = .ok e' → e'.static = e.static) (h : p.modify f hash = .ok p') :
    Framed p p' := by
  obtain ⟨e, e', he, he', rfl⟩ := modify_eq_ok h
  refine ⟨fun h => ?_, rfl, rfl, rfl, rfl⟩
  unfold CTxMemPool.static
  rw [entry_insert]
  split_ifs with hh
  · rw [hh, he, map_some, map_some, hf e e' he']
  · rfl

theorem Framed.foldlM {α : Type} {f : CTxMemPool → α → Except Fault CTxMemPool}
    (hf : ∀ p a p', f p a = .ok p' → Framed p p') {l : List α} (h : l.foldlM f p = .ok p') :
    Framed p p' := by
  induction l generalizing p with
  | nil =>
    cases h
    exact .refl _
  | cons a l ih =>
    obtain ⟨q, hq, h⟩ := bind_eq_ok.mp h
    exact (hf p a q hq).trans (ih h)

theorem Framed.updateChild {child : Uint256} (h : p.updateChild add child hash = .ok p') : Framed p p' := by
  apply Framed.modify _ h
  intro e e' he
  cases he
  rfl

theorem Framed.updateParent {parent : Uint256} (h : p.updateParent add parent hash = .ok p') :
    Framed p p' := by
  apply Framed.modify _ h
  intro e e' he
  cases he
  rfl

theorem Framed.updateDescendantStates {modify : DescendantTotals} {hashes : List Uint256}
    (h : p.modifyAll (·.updateDescendantState modify) hashes = .ok p') : Framed p p' := by
  apply Framed.foldlM _ h
  intro p hash p' h
  apply Framed.modify _ h
  intro e e' he
  rw [updateDescendantState_eq_ok he]
  rfl

theorem Framed.updateAncestorStates {modify : Totals} {hashes : List Uint256}
    (h : p.modifyAll (·.updateAncestorState modify) hashes = .ok p') : Framed p p' := by
  apply Framed.foldlM _ h
  intro p hash p' h
  apply Framed.modify _ h
  intro e e' he
  rw [updateAncestorState_eq_ok he]
  rfl

theorem Framed.updateAncestorsOf (h : updateAncestorsOf add p hash setAncestors = .ok p') : Framed p p' := by
  obtain ⟨q, hq, h⟩ := bind_eq_ok.mp h
  have hlinks : Framed p q := Framed.foldlM (fun _ _ _ h => Framed.updateChild h) hq
  exact hlinks.trans (Framed.updateDescendantStates h)

theorem Framed.updateEntryForAncestors (h : p.updateEntryForAncestors hash setAncestors = .ok p') :
    Framed p p' := by
  apply Framed.modify _ h
  intro e e' he
  rw [updateAncestorState_eq_ok he]
  rfl

theorem Framed.updateForRemoveFromMempool (h : p.updateForRemoveFromMempool stage updateDescendants = .ok p') :
    Framed p p' := by
  obtain ⟨q₁, hq₁, h⟩ := bind_eq_ok.mp h
  obtain ⟨q₂, hq₂, h⟩ := bind_eq_ok.mp h
  have hfirst : Framed p q₁ := by
    unfold updateDescendantsForRemovals at hq₁
    split_ifs at hq₁
    · exact Framed.foldlM (fun _ _ _ h => Framed.updateAncestorStates h) hq₁
    · cases hq₁
      exact .refl p
  have hsecond : Framed q₁ q₂ := Framed.foldlM (fun _ _ _ h => Framed.updateAncestorsOf h) hq₂
  have hthird : Framed q₂ p' :=
    Framed.foldlM (fun _ _ _ h => Framed.foldlM (fun _ _ _ h => Framed.updateParent h) h) h
  exact (hfirst.trans hsecond).trans hthird

/-! ### Transactions -/

def txOf (p : CTxMemPool) (hash : Uint256) : Option CTransaction :=
  (p.entry hash).map CTxMemPoolEntry.tx

theorem txOf_eq_static (p : CTxMemPool) (hash : Uint256) :
    p.txOf hash = (p.static hash).map tx := by
  rw [static, map_map]
  rfl

theorem Framed.txOf (h : Framed p p') (hash : Uint256) : p'.txOf hash = p.txOf hash := by
  rw [txOf_eq_static, txOf_eq_static, h.static]

theorem Framed.contains (h : Framed p p') (hash : Uint256) : p'.contains hash = p.contains hash := by
  have := congrArg isSome (h.static hash)
  rwa [CTxMemPool.static, CTxMemPool.static, isSome_map, isSome_map] at this

theorem Framed.keeps (h : Framed p p') (hhash : p.contains hash = true) : p'.contains hash = true :=
  (h.contains hash).trans hhash

theorem ne_of_contains {hash' : Uint256} (hnew : p.contains hash' = false) (hhash : p.contains hash = true) :
    hash ≠ hash' := by
  rintro rfl
  rw [hnew] at hhash
  cases hhash

theorem contains_iff_txOf : p.contains hash = true ↔ ∃ tx, p.txOf hash = some tx := by
  rw [contains_iff, txOf]
  simp only [map_eq_some_iff]
  constructor
  · rintro ⟨e, he⟩
    exact ⟨e.tx, e, he, rfl⟩
  · rintro ⟨_, e, he, -⟩
    exact ⟨e, he⟩

/-- A set of entries is gone: their transactions, spends and outputs. -/
structure Removed (cr : Mweb.Crypto) (stage : List Uint256) (p p' : CTxMemPool) : Prop where
  static : ∀ hash, p'.static hash = if hash ∈ stage then none else p.static hash
  mapNextTx : ∀ index h, p'.mapNextTx index = some h ↔ p.mapNextTx index = some h ∧
    ∀ r ∈ stage, ∀ tx, p.txOf r = some tx → index ∉ getInputs tx
  mapTxOutputs_MWEB : ∀ id h, p'.mapTxOutputs_MWEB id = some h ↔ p.mapTxOutputs_MWEB id = some h ∧
    ∀ r ∈ stage, ∀ tx, p.txOf r = some tx → id ∉ getOutputIDs cr tx
  mapDeltas : p'.mapDeltas = p.mapDeltas

theorem Removed.txOf (h : Removed cr stage p p') (hash : Uint256) :
    p'.txOf hash = if hash ∈ stage then none else p.txOf hash := by
  rw [txOf_eq_static, h.static]
  split_ifs
  · rfl
  · rw [txOf_eq_static]

theorem Removed.not_contains (h : Removed cr stage p p') (hnew : p.contains hash = false) :
    p'.contains hash = false := by
  rw [← Bool.not_eq_true, contains_iff_txOf] at hnew ⊢
  rintro ⟨tx, htx⟩
  rw [h.txOf] at htx
  split_ifs at htx
  exact hnew ⟨tx, htx⟩

theorem Removed.of_framed (h : Framed p p') : Removed cr [] p p' := by
  refine ⟨fun hash => ?_, fun index h' => ?_, fun id h' => ?_, h.mapDeltas⟩
  · simp [h.static]
  · simp [h.mapNextTx]
  · simp [h.mapTxOutputs_MWEB]

theorem Removed.trans {stage' : List Uint256} (h : Removed cr stage p p') (h' : Removed cr stage' p' p'') :
    Removed cr (stage ++ stage') p p'' := by
  -- a transaction that is removed second was there at the beginning
  have hlater : ∀ {P : CTransaction → Prop},
      ((∀ r ∈ stage, ∀ tx, p.txOf r = some tx → P tx) ∧
        ∀ r ∈ stage', ∀ tx, p'.txOf r = some tx → P tx) ↔
      ∀ r ∈ stage ++ stage', ∀ tx, p.txOf r = some tx → P tx := by
    intro P
    constructor
    · rintro ⟨hfirst, hsecond⟩ r hr tx htx
      by_cases hstage : r ∈ stage
      · exact hfirst r hstage tx htx
      · have hr' : r ∈ stage' := (List.mem_append.mp hr).resolve_left hstage
        exact hsecond r hr' tx (by rw [h.txOf, if_neg hstage, htx])
    · intro hall
      refine ⟨fun r hr => hall r (List.mem_append_left _ hr), fun r hr tx htx => ?_⟩
      rw [h.txOf] at htx
      split_ifs at htx
      exact hall r (List.mem_append_right _ hr) tx htx
  refine ⟨fun hash => ?_, fun index x => ?_, fun id x => ?_, h'.mapDeltas.trans h.mapDeltas⟩
  · rw [h'.static, h.static]
    by_cases hstage : hash ∈ stage
    · simp [hstage]
    · simp [hstage]
  · rw [h'.mapNextTx, h.mapNextTx, and_assoc, hlater]
  · rw [h'.mapTxOutputs_MWEB, h.mapTxOutputs_MWEB, and_assoc, hlater]

theorem removed_eraseEntry (hent : p.entry hash = some e) : Removed cr [hash] p (p.eraseEntry cr hash e) := by
  have htx : p.txOf hash = some e.tx := by rw [txOf, hent]; rfl
  refine ⟨fun h => ?_, fun index x => ?_, fun id x => ?_, rfl⟩
  · unfold static entry eraseEntry
    split_ifs with hh
    · rw [List.mem_singleton.mp hh, lookup_erase]
      rfl
    · rw [lookup_erase_ne (fun heq => hh (List.mem_singleton.mpr heq))]
  · simp only [eraseEntry, List.mem_singleton, forall_eq, htx]
    split_ifs with hin <;> simp [hin]
  · simp only [eraseEntry, List.mem_singleton, forall_eq, htx]
    split_ifs with hin <;> simp [hin]

theorem removed_of_removeUnchecked (h : p.removeUnchecked cr hash = .ok p') : Removed cr [hash] p p' := by
  unfold removeUnchecked at h
  split at h
  · cases h
  · rename_i e he
    cases h
    exact removed_eraseEntry he

theorem removed_of_removeStaged (h : p.removeStaged cr stage updateDescendants = .ok p') :
    Removed cr stage p p' := by
  obtain ⟨q, hq, h⟩ := bind_eq_ok.mp h
  have hframed : Removed cr [] p q := .of_framed (Framed.updateForRemoveFromMempool hq)
  have hloop : ∀ stage q, stage.foldlM (removeUnchecked cr) q = .ok p' →
      Removed cr stage q p' := by
    intro stage
    induction stage with
    | nil =>
      intro q h
      cases h
      exact .of_framed (.refl _)
    | cons hash stage ih =>
      intro q h
      obtain ⟨q', hq', h⟩ := bind_eq_ok.mp h
      exact (removed_of_removeUnchecked hq').trans (ih q' h)
  exact hframed.trans (hloop stage q h)

structure Added (cr : Mweb.Crypto) (e : CTxMemPoolEntry) (p p' : CTxMemPool) : Prop where
  static : ∀ hash, p'.static hash =
    if hash = e.tx.hash then some (p.prioritised e).static else p.static hash
  mapNextTx : p'.mapNextTx = insertSpends e.tx.hash (getInputs e.tx) p.mapNextTx
  mapTxOutputs_MWEB : p'.mapTxOutputs_MWEB =
    insertOutputs e.tx.hash (getOutputIDs cr e.tx) p.mapTxOutputs_MWEB
  mapDeltas : p'.mapDeltas = p.mapDeltas

theorem prioritised_tx (p : CTxMemPool) (e : CTxMemPoolEntry) : (p.prioritised e).tx = e.tx := by
  unfold prioritised
  dsimp only
  split_ifs <;> rfl

theorem Added.txOf (h : Added cr e p p') (hash : Uint256) :
    p'.txOf hash = if hash = e.tx.hash then some e.tx else p.txOf hash := by
  rw [txOf_eq_static, h.static]
  split_ifs
  · exact congrArg some (prioritised_tx p e)
  · rw [txOf_eq_static]

theorem added_enter (hnew : p.contains e.tx.hash = false) : Added cr e p (p.enter cr e) := by
  refine ⟨fun hash => ?_, rfl, rfl, rfl⟩
  have hmap : (p.enter cr e).mapTx = p.mapTx.insert e.tx.hash (p.prioritised e) :=
    if_neg (by rw [hnew]; decide)
  unfold static entry
  rw [hmap]
  split_ifs with hh
  · rw [hh, lookup_insert]
    rfl
  · rw [lookup_insert_ne hh]

theorem Added.framed (h : Added cr e p p') (h' : Framed p' p'') : Added cr e p p'' :=
  ⟨fun hash => (h'.static hash).trans (h.static hash), h'.mapNextTx.trans h.mapNextTx,
    h'.mapTxOutputs_MWEB.trans h.mapTxOutputs_MWEB, h'.mapDeltas.trans h.mapDeltas⟩

theorem added_of_addUnchecked (hnew : p.contains e.tx.hash = false)
    (h : p.addUnchecked cr e setAncestors = .ok p') : Added cr e p p' := by
  obtain ⟨_, hq₁, h⟩ := bind_eq_ok.mp h
  obtain ⟨_, hq₂, h⟩ := bind_eq_ok.mp h
  obtain ⟨_, hq₃, h⟩ := bind_eq_ok.mp h
  cases h
  have hlinks := Framed.foldlM (fun _ _ _ h => Framed.updateParent h) hq₁
  have hframed := (hlinks.trans (Framed.updateAncestorsOf hq₂)).trans (Framed.updateEntryForAncestors hq₃)
  have hentered : Added cr e p (p.enter cr e) := added_enter hnew
  have hadded := hentered.framed hframed
  exact ⟨hadded.static, hadded.mapNextTx, hadded.mapTxOutputs_MWEB, hadded.mapDeltas⟩

/-! ### Spends -/

/-- `mapNextTx` maps an output to the transactions that spend it. -/
def SpendsExact (p : CTxMemPool) : Prop :=
  ∀ index h, p.mapNextTx index = some h ↔ ∃ tx, p.txOf h = some tx ∧ index ∈ getInputs tx

theorem Removed.spendsExact (h : Removed cr stage p p') (hexact : p.SpendsExact) : p'.SpendsExact := by
  intro index hash
  rw [h.mapNextTx, hexact, h.txOf]
  constructor
  · rintro ⟨⟨tx, htx, hin⟩, hnone⟩
    have hout : hash ∉ stage := fun hmem => hnone hash hmem tx htx hin
    rw [if_neg hout]
    exact ⟨tx, htx, hin⟩
  · rintro ⟨tx, htx, hin⟩
    split_ifs at htx with hout
    refine ⟨⟨tx, htx, hin⟩, fun r hr tr htr hin' => ?_⟩
    -- an input has one spender
    have hr' := (hexact index r).mpr ⟨tr, htr, hin'⟩
    rw [(hexact index hash).mpr ⟨tx, htx, hin⟩] at hr'
    cases hr'
    exact hout hr

theorem insertSpends_eq_some {hash h : Uint256} {inputs : List OutputIndex}
    {map : OutputIndex → Option Uint256} (hunspent : ∀ index ∈ inputs, map index = none) {index : OutputIndex} :
    insertSpends hash inputs map index = some h ↔ map index = some h ∨ (index ∈ inputs ∧ h = hash) := by
  unfold insertSpends
  cases hold : map index with
  | some spender =>
    have hnot : index ∉ inputs := by
      intro hin
      rw [hunspent index hin] at hold
      cases hold
    simp [hnot]
  | none => simp [eq_comm]

theorem Added.exists_txOf (h : Added cr e p p') (hnew : p.contains e.tx.hash = false)
    {P : CTransaction → Prop} :
    (∃ tx, p'.txOf hash = some tx ∧ P tx) ↔
      (∃ tx, p.txOf hash = some tx ∧ P tx) ∨ (hash = e.tx.hash ∧ P e.tx) := by
  rw [h.txOf]
  by_cases hhash : hash = e.tx.hash
  · have hnone : p.txOf hash = none := by
      rw [hhash]
      by_contra hsome
      have hcontains := contains_iff_txOf.mpr (ne_none_iff_exists'.mp hsome)
      rw [hnew] at hcontains
      cases hcontains
    simp [hhash, hhash ▸ hnone]
  · simp [hhash]

theorem Added.spendsExact (h : Added cr e p p') (hnew : p.contains e.tx.hash = false)
    (hunspent : ∀ index ∈ getInputs e.tx, p.mapNextTx index = none) (hexact : p.SpendsExact) :
    p'.SpendsExact := by
  intro index hash
  rw [h.mapNextTx, insertSpends_eq_some hunspent, hexact, h.exists_txOf hnew, and_comm (a := hash = _)]

end CTxMemPool

end Defcoin.Mempool
