import Defcoin.Mweb.ApplyBlock

/-! # Flushing a layer into the one below

  `CoinsView.Rep` relates a whole stack to the state it shows, layer by layer. Flushing a cache
  makes the layer below show what the cache showed, whether that layer is another cache, which
  appends the actions to its own log, or the database, which runs them in one batch.
-/

namespace Defcoin.Mweb

open ByteCodec PostOrder CoinsViewCache CoinsViewUpdates CoinBatch List FiniteMap

variable {cr : Crypto}

/-! ### Representation -/

/-- Every layer of the stack shows a state between two blocks, and the top one shows `s`. -/
def CoinsView.Rep (cr : Crypto) : CoinsView → CoinsState → Prop
  | .db d, s => s.Wf cr ∧ d.header = s.header ∧ d.coinDB = s.utxos ∧
      d.leafSet.nextLeafIdx = s.leaves.length ∧ d.leafSet.bytes = PackedBits.pack s.unspent ∧
      d.outputPMMR.Holds cr s.leaves
  | .cache base c, s => s.Wf cr ∧ ∃ s₀, base.Rep cr s₀ ∧ c.Over cr base s₀ s

namespace CoinsView
variable {v : CoinsView} {s : CoinsState}

theorem Rep.wf (h : v.Rep cr s) : s.Wf cr := by
  cases v with
  | db d => exact h.1
  | cache base c => exact h.1

theorem Rep.shows (h : v.Rep cr s) : v.Shows cr s := by
  induction v generalizing s with
  | db d =>
    obtain ⟨_, hheader, hcoins, hnext, hbytes, hmmr⟩ := h
    exact ⟨hheader, fun id => by rw [getUTXO, hcoins], hnext, hbytes, hmmr.holdsMmr⟩
  | cache base c ih =>
    obtain ⟨_, _, hbase, hover⟩ := h
    exact hover.shows (ih hbase)

theorem Rep.push (h : v.Rep cr s) : (cache v (new v)).Rep cr s :=
  ⟨h.wf, s, h, new_over h.shows⟩

end CoinsView

/-! ### Coins, into a cache -/

namespace CoinsViewUpdates

theorem getActions_writeActions (u : CoinsViewUpdates) {id : Hash} {actions : List (Option UTXO)}
    (hfiled : ∀ x, some x ∈ actions → x.getOutputID cr = id) (id' : Hash) :
    (actions.foldl (fun u action => writeAction cr u id action) u).getActions id' =
      u.getActions id' ++ if id' = id then actions else [] := by
  induction actions generalizing u with
  | nil => simp
  | cons a actions ih =>
    have ha : writeAction cr u id a = u.addAction id a := by
      cases a with
      | none => rfl
      | some x =>
        show u.addAction (x.getOutputID cr) (some x) = _
        rw [hfiled x (by simp)]
    rw [foldl_cons, ih _ fun x hx => hfiled x (by simp [hx]), ha]
    by_cases hid : id' = id
    · subst hid
      rw [getActions_addAction_self]
      simp
    · rw [getActions_addAction_ne u hid]
      simp [hid]

theorem getActions_of_mem (u : CoinsViewUpdates) {id : Hash} {actions : List (Option UTXO)}
    (h : (⟨id, actions⟩ : Sigma fun _ : Hash => List (Option UTXO)) ∈ u.entries) : u.getActions id = actions := by
  have hlook : u.lookup id = some actions := mem_dlookup u.nodupKeys h
  rw [getActions, hlook]
  rfl

end CoinsViewUpdates

theorem CoinsViewCache.getActions_writeBatch (c : CoinsViewCache) {updates : CoinsViewUpdates}
    (hfiled : updates.Filed cr) (header : Option Header) (id : Hash) :
    (c.writeBatch cr updates header).updates.getActions id =
      c.updates.getActions id ++ updates.getActions id := by
  have h := foldl_entries_spec
    (fun u k actions => actions.foldl (fun u action => writeAction cr u k action) u)
    getActions (fun k actions => ∀ x, some x ∈ actions → x.getOutputID cr = k)
    (fun _ old actions => old ++ actions)
    (fun u k actions hok => ⟨by
      rw [getActions_writeActions u hok, if_pos rfl], fun k' hk' => by
      rw [getActions_writeActions u hok, if_neg hk', append_nil]⟩)
    updates.entries c.updates updates.nodupKeys (fun k actions hmem x hx => hfiled k x (by
      rwa [updates.getActions_of_mem hmem])) id
  rw [dlookup_entries] at h
  refine h.trans ?_
  unfold getActions
  cases updates.lookup id with
  | some actions => rfl
  | none => exact (append_nil _).symm

/-! ### Coins, into the database -/

/-- What a batch holds for an id after actions that lead from `v₀` in the database to `v`: the item
    added last, if it is still there, and what will be written. -/
structure CoinBatch.At (v₀ : Option UTXO) (p : List UTXO × Option (Option UTXO)) (v : Option UTXO) :
    Prop where
  written : p.2.getD v₀ = v
  absent : v = none → p.1 = []
  present : ∀ u, v = some u → p.1 = [u] ∨ (p.1 = [] ∧ v₀ = some u)

namespace CoinBatch
variable {coinDB : Hash → Option UTXO} {b : CoinBatch} {id : Hash}

/-- What a batch holds for an id. -/
def entry (b : CoinBatch) (id : Hash) : List UTXO × Option (Option UTXO) := (b.added id, b.written id)

theorem At.get {u : UTXO} (h : At (coinDB id) (b.entry id) (some u)) : b.get coinDB id = some u := by
  unfold CoinBatch.get
  rcases h.present u rfl with hadded | ⟨hadded, hdb⟩
  · have : b.added id = [u] := hadded
    rw [this]
    rfl
  · have : b.added id = [] := hadded
    rw [this]
    exact hdb

theorem entry_put_ne {id' : Hash} (h : id' ≠ id) (u : UTXO) : (b.put id u).entry id' = b.entry id' := by
  simp [entry, put, Function.update_of_ne h]

theorem entry_delete_ne {id' : Hash} (h : id' ≠ id) : (b.delete id).entry id' = b.entry id' := by
  simp [entry, delete, Function.update_of_ne h]

theorem At.put (h : At (coinDB id) (b.entry id) none) (u : UTXO) :
    At (coinDB id) ((b.put id u).entry id) (some u) := by
  have hnil : b.added id = [] := h.absent rfl
  exact ⟨by simp [entry, CoinBatch.put], by simp, fun u' hu' => Or.inl (by
    simp [entry, CoinBatch.put, hnil, Option.some.inj hu'])⟩

theorem At.delete {u : UTXO} (h : At (coinDB id) (b.entry id) (some u)) :
    At (coinDB id) ((b.delete id).entry id) none := by
  refine ⟨by simp [entry, CoinBatch.delete], fun _ => ?_, by simp⟩
  rcases h.present u rfl with hadded | ⟨hadded, _⟩
  · have : b.added id = [u] := hadded
    simp [entry, CoinBatch.delete, this]
  · have : b.added id = [] := hadded
    simp [entry, CoinBatch.delete, this]

end CoinBatch

theorem CoinsViewDB.writeActions_spec {coinDB : Hash → Option UTXO} {id : Hash}
    {actions : List (Option UTXO)} (hfiled : ∀ x, some x ∈ actions → x.getOutputID cr = id) :
    ∀ {b : CoinBatch} {v v' : Option UTXO}, At (coinDB id) (b.entry id) v →
      replay v actions = .ok v' →
      ∃ b', actions.foldlM (fun b action => writeAction cr coinDB b id action) b = .ok b' ∧
        At (coinDB id) (b'.entry id) v' ∧ ∀ id', id' ≠ id → b'.entry id' = b.entry id' := by
  induction actions with
  | nil =>
    intro b v v' hat hreplay
    cases hreplay
    exact ⟨b, rfl, hat, fun _ _ => rfl⟩
  | cons a actions ih =>
    intro b v v' hat hreplay
    have hfiled' : ∀ x, some x ∈ actions → x.getOutputID cr = id := fun x hx => hfiled x (by simp [hx])
    cases a with
    | none =>
      cases v with
      | none => cases hreplay
      | some u =>
        obtain ⟨b', hb', hat', hother⟩ := ih hfiled' hat.delete hreplay
        refine ⟨b', ?_, hat', fun id' hid' => ?_⟩
        · rw [foldlM_cons]
          have : writeAction cr coinDB b id none = .ok (b.delete id) := by
            simp [writeAction, hat.get]
          rw [this]
          exact hb'
        · rw [hother id' hid', entry_delete_ne hid']
    | some x =>
      cases v with
      | some u => cases hreplay
      | none =>
        obtain ⟨b', hb', hat', hother⟩ := ih hfiled' (hat.put x) hreplay
        refine ⟨b', ?_, hat', fun id' hid' => ?_⟩
        · rw [foldlM_cons]
          have : writeAction cr coinDB b id (some x) = .ok (b.put id x) := by
            simp [writeAction, hfiled x (by simp)]
          rw [this]
          exact hb'
        · rw [hother id' hid', entry_put_ne hid']

theorem CoinsViewDB.writeBatch_spec (d : CoinsViewDB) {updates : CoinsViewUpdates}
    {m : Hash → Option UTXO} (hfiled : updates.Filed cr)
    (hreplay : ∀ id, replay (d.coinDB id) (updates.getActions id) = .ok (m id))
    (header : Option Header) :
    d.writeBatch cr updates header = .ok { d with header, coinDB := m } := by
  obtain ⟨b, hb, hentry⟩ := foldlM_entries_spec
    (fun b k actions => actions.foldlM (fun b action => writeAction cr d.coinDB b k action) b)
    CoinBatch.entry
    (fun k p actions => p = ([], none) ∧ actions = updates.getActions k)
    (fun k _ _ p' => CoinBatch.At (d.coinDB k) p' (m k))
    (fun b k actions hok => by
      obtain ⟨hp, rfl⟩ := hok
      have hat : CoinBatch.At (d.coinDB k) (b.entry k) (d.coinDB k) := by
        rw [hp]
        exact ⟨rfl, fun _ => rfl, fun u hu => Or.inr ⟨rfl, hu⟩⟩
      exact writeActions_spec (fun x hx => hfiled k x hx) hat (hreplay k))
    updates.entries CoinBatch.empty updates.nodupKeys
    (fun k actions hmem => ⟨rfl, (updates.getActions_of_mem hmem).symm⟩)
  have hcommit : b.commit d.coinDB = m := by
    funext id
    have hid := hentry id
    rw [dlookup_entries] at hid
    cases hlk : updates.lookup id with
    | some actions =>
      rw [hlk] at hid
      exact hid.written
    | none =>
      rw [hlk] at hid
      have hw : b.written id = none := congrArg Prod.snd hid
      have hr := hreplay id
      rw [getActions, hlk] at hr
      rw [CoinBatch.commit, hw]
      exact Except.ok.inj hr
  unfold CoinsViewDB.writeBatch
  simp only [hb]
  rw [← hcommit]
  rfl

/-! ### A whole layer -/

namespace CoinsView
variable {base : CoinsView} {c top : CoinsViewCache} {s₀ s : CoinsState}

theorem Rep.flushInto (hbase : base.Rep cr s₀) (htop : top.Over cr base s₀ s) (hs : s.Wf cr) :
    ∃ base', base.flushInto cr top = .ok base' ∧ base'.Rep cr s ∧
      ∀ below c, base = cache below c → ∃ c', base' = cache below c' := by
  cases base with
  | db d =>
    obtain ⟨_, _, hcoins, hnext, hbytes, hmmr⟩ := hbase
    obtain ⟨m', hm', hholds⟩ := hmmr.batchWrite htop.mmr
    have hcoins' := d.writeBatch_spec htop.filed (by rw [hcoins]; exact htop.utxo) top.header
    refine ⟨.db { d with
      header := top.header
      coinDB := s.utxos
      leafSet := d.leafSet.applyUpdates top.leafSet.nextLeafIdx top.leafSet.modifiedBytes
      outputPMMR := m' }, ?_, ⟨hs, htop.header, rfl, htop.next, ?_, hholds⟩,
      fun below c h => by cases h⟩
    · simp only [flushInto, hcoins', hm']
      rfl
    -- the file then has exactly the bits of the unspent leaves
    · refine PackedBits.eq_pack fun i => ?_
      rw [← htop.leaf i]
      refine LeafSet.contains_applyUpdates d.leafSet top.leafSet (fun j hj => ?_) i
      have hj' := (htop.leaf j).symm.trans hj
      rw [htop.next]
      exact hs.unspent_lt j hj'
  | cache below c =>
    obtain ⟨_, s₁, hbelow, hover⟩ := hbase
    refine ⟨_, rfl, ⟨hs, s₁, hbelow, ?_⟩, fun below' c' h => ⟨_, by cases h; rfl⟩⟩
    have hactions := c.getActions_writeBatch htop.filed top.header
    exact {
      header := htop.header
      utxo := fun id => by
        rw [hactions, replay_append, hover.utxo]
        exact htop.utxo id
      filed := fun id x hmem => by
        rw [hactions] at hmem
        rcases mem_append.mp hmem with hmem | hmem
        · exact hover.filed id x hmem
        · exact htop.filed id x hmem
      next := htop.next
      leaf := fun i => by
        rw [← htop.leaf i]
        show PackedBits.contains (LeafSetCache.getByte below.getByte (c.leafSet.applyUpdates _ _)) i = _
        rw [LeafSetCache.getByte_applyUpdates]
        rfl
      mmr := hover.mmr.batchWrite hbelow.shows.mmr htop.mmr }

end CoinsView

namespace CoinsViewCache
variable {base : CoinsView} {c top : CoinsViewCache} {s₀ s : CoinsState}

theorem flushed_over (htop : top.Over cr base s₀ s) {base' : CoinsView} (hbase' : base'.Shows cr s) :
    top.flushed.Over cr base' s s := by
  have hnew := new_over hbase'
  refine ⟨htop.header, hnew.utxo, hnew.filed, htop.next, fun i => ?_, ?_⟩
  · exact hnew.leaf i
  · have := hnew.mmr
    show (PMMRCache.new top.outputPMMR.getNextLeafIdx).Extends cr s.leaves s.leaves
    rw [htop.mmr.getNextLeafIdx_eq, ← hbase'.mmr.size]
    exact this

theorem flush_spec (h : (CoinsView.cache base c).Rep cr s) (hheader : c.header ≠ none) :
    ∃ base', c.flush cr base = .ok (base', c.flushed) ∧ base'.Rep cr s ∧
      (CoinsView.cache base' c.flushed).Rep cr s ∧
      ∀ below c', base = .cache below c' → ∃ c'', base' = .cache below c'' := by
  obtain ⟨hs, _, hbase, hover⟩ := h
  obtain ⟨base', hflush, hrep, hshape⟩ := hbase.flushInto hover hs
  refine ⟨base', ?_, hrep, ⟨hs, s, hrep, flushed_over hover hrep.shows⟩, hshape⟩
  unfold flush
  rw [if_neg (by simpa using hheader), hflush]
  rfl

theorem applyBlock_spec (h : (CoinsView.cache base c).Rep cr s) {block : Block} {allow : Bool}
    {undo : BlockUndo} {v : CoinsView} (hok : c.applyBlock cr base block allow = .ok (undo, v)) :
    ∃ s' c', v = .cache base c' ∧ v.Rep cr s' ∧ Applied cr s block allow undo s' ∧ (s.Live → s'.Live) ∧
      validateForBlock cr block.body block.header.kernelOffset
        ((s.header.map Header.kernelOffset).getD BigInt.zero) = .ok () := by
  obtain ⟨⟨_, vc⟩, happly, hok⟩ := Outcome.bind_eq_ok.mp hok
  obtain ⟨⟨_, _⟩, hflush, hok⟩ := Outcome.bind_eq_ok.mp hok
  cases hok
  obtain ⟨s', happlied, hlive, hsums, hover⟩ := (new_over h.shows).applyBlockChanges h.shows h.wf happly
  have hheader : vc.header ≠ none := by
    rw [hover.header, happlied.header]
    simp
  obtain ⟨_, hflush', hrep, _, hshape⟩ := flush_spec ⟨happlied.wf, s, h, hover⟩ hheader
  rw [hflush'] at hflush
  cases hflush
  obtain ⟨c', hc'⟩ := hshape base c rfl
  exact ⟨s', c', hc', hrep, happlied, hlive, hsums⟩

end CoinsViewCache

end Defcoin.Mweb
