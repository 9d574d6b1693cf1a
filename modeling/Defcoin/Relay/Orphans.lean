import Defcoin.Framework.BackPointers
import Defcoin.Framework.Closure
import Defcoin.Framework.FiniteMap
import Defcoin.Relay.Transaction

/-! # The orphan pool (net_processing.cpp)

  Transactions with missing parents wait in `mapOrphanTransactions`. An index by outpoint finds
  those that spend a given canonical output, a list serves random eviction, and a second index
  serves lookups by witness hash.
-/

namespace Defcoin.Relay

open BackPointers Function AList

/-- `COrphanTx` -/
structure COrphanTx where
  tx : CMutableTransaction
  fromPeer : Nat
  nTimeExpire : Int
  list_pos : Nat

/-- The maps of the orphan pool. An outpoint without an entry in `mapOrphanTransactionsByPrev` has
    the empty set. -/
structure OrphanPool where
  mapOrphanTransactions : AList (fun _ : Uint256 => COrphanTx)
  g_orphan_list : List Uint256
  g_orphans_by_wtxid : AList (fun _ : Uint256 => Uint256)
  mapOrphanTransactionsByPrev : COutPoint → List Uint256

namespace OrphanPool

def empty : OrphanPool where
  mapOrphanTransactions := ∅
  g_orphan_list := []
  g_orphans_by_wtxid := ∅
  mapOrphanTransactionsByPrev := fun _ => []

def find (p : OrphanPool) (hash : Uint256) : Option COrphanTx := p.mapOrphanTransactions.lookup hash

/-- `MAX_STANDARD_TX_WEIGHT` -/
def maxStandardTxWeight : Nat := 400000

/-- `ORPHAN_TX_EXPIRE_TIME` and `ORPHAN_TX_EXPIRE_INTERVAL`, in seconds. -/
def orphanTxExpireTime : Int := 20 * 60
def orphanTxExpireInterval : Int := 5 * 60

/-- `std::set<uint256>::insert` -/
def insertHash (hash : Uint256) (set : List Uint256) : List Uint256 :=
  OrderedSet.insert Uint256.memcmpKey hash set

@[simp] theorem mem_insertHash {hash h : Uint256} {set : List Uint256} :
    h ∈ insertHash hash set ↔ h = hash ∨ h ∈ set :=
  OrderedSet.mem_insert Uint256.memcmpKey

variable (H : Hashing)

/-- `AddOrphanTx` at time `now`. -/
def addOrphanTx (p : OrphanPool) (tx : CMutableTransaction) (peer : Nat) (now : Int) : OrphanPool :=
  let hash := tx.computeHash H
  if (p.find hash).isSome then p
  else if tx.getTransactionWeight H > maxStandardTxWeight then p
  else
    { mapOrphanTransactions := p.mapOrphanTransactions.insert hash
        { tx := tx, fromPeer := peer, nTimeExpire := now + orphanTxExpireTime,
          list_pos := p.g_orphan_list.length }
      g_orphan_list := p.g_orphan_list ++ [hash]
      g_orphans_by_wtxid :=
        if (p.g_orphans_by_wtxid.lookup (tx.computeWitnessHash H)).isSome then p.g_orphans_by_wtxid
        else p.g_orphans_by_wtxid.insert (tx.computeWitnessHash H) hash
      mapOrphanTransactionsByPrev := fun prevout =>
        if prevout ∈ tx.prevouts then insertHash hash (p.mapOrphanTransactionsByPrev prevout)
        else p.mapOrphanTransactionsByPrev prevout }

/-- The part of `EraseOrphanTx` that takes the orphan out of `g_orphan_list`: the last entry takes
    its place. -/
def eraseFromList (p : OrphanPool) (old_pos : Nat) : Except Fault OrphanPool :=
  match p.g_orphan_list.getLast? with
  | none => .error (.undefinedBehavior "g_orphan_list.back()")
  | some last =>
    if old_pos + 1 ≠ p.g_orphan_list.length then
      match p.find last with
      | none => .error (.undefinedBehavior "it_last")
      | some orphan =>
        .ok { p with
          mapOrphanTransactions :=
            p.mapOrphanTransactions.insert last { orphan with list_pos := old_pos }
          g_orphan_list := (p.g_orphan_list.set old_pos last).dropLast }
    else .ok { p with g_orphan_list := p.g_orphan_list.dropLast }

/-- `EraseOrphanTx` -/
def eraseOrphanTx (p : OrphanPool) (hash : Uint256) : Except Fault OrphanPool :=
  match p.find hash with
  | none => .ok p
  | some orphan =>
    if p.g_orphan_list[orphan.list_pos]? ≠ some hash then
      .error (.assertion "g_orphan_list[old_pos] == it")
    else do
      let p ← p.eraseFromList orphan.list_pos
      .ok
        { mapOrphanTransactions := p.mapOrphanTransactions.erase hash
          g_orphan_list := p.g_orphan_list
          g_orphans_by_wtxid := p.g_orphans_by_wtxid.erase (orphan.tx.computeWitnessHash H)
          mapOrphanTransactionsByPrev := fun prevout =>
            if prevout ∈ orphan.tx.prevouts then
              (p.mapOrphanTransactionsByPrev prevout).filter (· ≠ hash)
            else p.mapOrphanTransactionsByPrev prevout }

/-- `EraseOrphanTx` of several orphans, one after the other. -/
def eraseAll (p : OrphanPool) : List Uint256 → Except Fault OrphanPool
  | [] => .ok p
  | hash :: rest => do
    let p ← p.eraseOrphanTx H hash
    p.eraseAll rest

/-- `EraseOrphansFor` -/
def eraseOrphansFor (p : OrphanPool) (peer : Nat) : Except Fault OrphanPool :=
  p.eraseAll H ((p.mapOrphanTransactions.entries.filter fun e => e.2.fromPeer = peer).map (·.1))

/-- The sweep of `LimitOrphanTxSize`, and the time of the next one. -/
def sweep (p : OrphanPool) (nNextSweep now : Int) : Except Fault (OrphanPool × Int) :=
  if nNextSweep ≤ now then do
    let entries := p.mapOrphanTransactions.entries
    let expired := entries.filter fun e => e.2.nTimeExpire ≤ now
    let nMinExpTime := (entries.filter fun e => ¬e.2.nTimeExpire ≤ now).foldl
      (fun m e => min e.2.nTimeExpire m) (now + orphanTxExpireTime - orphanTxExpireInterval)
    let p ← p.eraseAll H (expired.map (·.1))
    .ok (p, nMinExpTime + orphanTxExpireInterval)
  else .ok (p, nNextSweep)

/-- The eviction loop of `LimitOrphanTxSize`, with the positions the random generator returns. -/
def evict (nMaxOrphans : Nat) : Nat → List Nat → OrphanPool → Except Fault OrphanPool
  | 0, _, p => .ok p
  | fuel + 1, rng, p =>
    if p.mapOrphanTransactions.entries.length > nMaxOrphans then do
      let randompos := rng.headD 0 % p.g_orphan_list.length
      match p.g_orphan_list[randompos]? with
      | none => .error (.undefinedBehavior "g_orphan_list[randompos]")
      | some hash => do
        let p ← p.eraseOrphanTx H hash
        evict nMaxOrphans fuel rng.tail p
    else .ok p

/-- `LimitOrphanTxSize`. Every round of the eviction removes an orphan, so that their number bounds
    the loop. -/
def limitOrphanTxSize (p : OrphanPool) (nMaxOrphans : Nat) (nNextSweep now : Int) (rng : List Nat) :
    Except Fault (OrphanPool × Int) := do
  let (p, nNextSweep) ← p.sweep H nNextSweep now
  let p ← evict H nMaxOrphans p.mapOrphanTransactions.entries.length rng p
  .ok (p, nNextSweep)

/-! ### The invariant -/

/-- The indexes tell what is in the pool. -/
structure Wf (p : OrphanPool) : Prop where
  keyed : ∀ hash orphan, p.find hash = some orphan → orphan.tx.computeHash H = hash
  byPrev : ∀ prevout hash, hash ∈ p.mapOrphanTransactionsByPrev prevout ↔
    ∃ orphan, p.find hash = some orphan ∧ prevout ∈ orphan.tx.prevouts
  list : Indexed p.g_orphan_list fun hash => (p.find hash).map COrphanTx.list_pos

variable {H}

def txOf (p : OrphanPool) (hash : Uint256) : Option CMutableTransaction := (p.find hash).map COrphanTx.tx

variable {orphan : COrphanTx} {hash : Uint256} {p p' : OrphanPool}

theorem txOf_eq_some {tx : CMutableTransaction} :
    p.txOf hash = some tx ↔ ∃ orphan, p.find hash = some orphan ∧ orphan.tx = tx :=
  Option.map_eq_some_iff

def posOf (p : OrphanPool) (hash : Uint256) : Option Nat := (p.find hash).map COrphanTx.list_pos

theorem wf_iff : p.Wf H ↔ (∀ hash tx, p.txOf hash = some tx → tx.computeHash H = hash) ∧
    (∀ prevout hash, hash ∈ p.mapOrphanTransactionsByPrev prevout ↔
      ∃ tx, p.txOf hash = some tx ∧ prevout ∈ tx.prevouts) ∧ Indexed p.g_orphan_list p.posOf := by
  have hprev : ∀ prevout hash, (∃ tx, p.txOf hash = some tx ∧ prevout ∈ tx.prevouts) ↔
      ∃ orphan, p.find hash = some orphan ∧ prevout ∈ orphan.tx.prevouts := by
    simp [txOf]
  constructor
  · intro h
    refine ⟨fun hash tx htx => ?_, fun prevout hash => (h.byPrev prevout hash).trans (hprev ..).symm, h.list⟩
    obtain ⟨orphan, hfind, rfl⟩ := txOf_eq_some.mp htx
    exact h.keyed hash orphan hfind
  · intro h
    exact ⟨fun hash orphan hfind => h.1 hash _ (txOf_eq_some.mpr ⟨orphan, hfind, rfl⟩),
      fun prevout hash => (h.2.1 prevout hash).trans (hprev ..), h.2.2⟩

theorem Wf.byPrev_iff (hwf : p.Wf H) (prevout : COutPoint) (hash : Uint256) :
    hash ∈ p.mapOrphanTransactionsByPrev prevout ↔
      ∃ tx, p.txOf hash = some tx ∧ prevout ∈ tx.prevouts := (wf_iff.mp hwf).2.1 prevout hash

theorem txOf_put (p p' : OrphanPool) {r : Option COrphanTx} (hash : Uint256)
    (h : p'.mapOrphanTransactions = FiniteMap.put p.mapOrphanTransactions hash r) :
    p'.txOf = update p.txOf hash (r.map COrphanTx.tx) ∧ p'.posOf = update p.posOf hash (r.map COrphanTx.list_pos) := by
  unfold txOf posOf find
  rw [h]
  exact ⟨FiniteMap.map_lookup_put .., FiniteMap.map_lookup_put ..⟩

theorem wf_empty : empty.Wf H := wf_iff.mpr ⟨nofun, fun _ _ => iff_of_false nofun nofun, fun _ _ => iff_of_false nofun nofun⟩

theorem Wf.addOrphanTx (hwf : p.Wf H) (tx : CMutableTransaction) (peer : Nat) (now : Int) :
    (p.addOrphanTx H tx peer now).Wf H := by
  unfold OrphanPool.addOrphanTx
  by_cases hknown : (p.find (tx.computeHash H)).isSome
  · rw [if_pos hknown]
    exact hwf
  by_cases hlarge : tx.getTransactionWeight H > maxStandardTxWeight
  · rw [if_neg hknown, if_pos hlarge]
    exact hwf
  rw [if_neg hknown, if_neg hlarge]
  have hnone : p.find (tx.computeHash H) = none := by simpa using hknown
  obtain ⟨hkeyed, hprev, hlist⟩ := wf_iff.mp hwf
  -- the new entry is the only one that changes
  generalize hp' : OrphanPool.mk _ _ _ _ = p'
  obtain ⟨htx, hpos⟩ := txOf_put p p' (r := some _) (tx.computeHash H) (by rw [← hp']; rfl)
  rw [wf_iff, htx, hpos, ← hp']
  refine ⟨fun hash tx' htx' => ?_, fun prevout hash => ?_, hlist.push (by rw [posOf, hnone]; rfl)⟩
  · by_cases hhash : hash = tx.computeHash H
    · rw [hhash, update_self] at htx'
      cases htx'
      exact hhash.symm
    · rw [update_of_ne hhash] at htx'
      exact hkeyed hash tx' htx'
  · by_cases hhash : hash = tx.computeHash H
    · have hout : tx.computeHash H ∉ p.mapOrphanTransactionsByPrev prevout := by
        rw [hprev, txOf, hnone]
        simp
      rw [hhash]
      dsimp only
      split_ifs with hmem <;> simp [hmem, hout]
    · rw [update_of_ne hhash, ← hprev]
      dsimp only
      split_ifs
      · rw [mem_insertHash, or_iff_right hhash]
      · rfl

theorem Wf.eraseFromList (hwf : p.Wf H) (hfind : p.find hash = some orphan) :
    ∃ p', p.eraseFromList orphan.list_pos = .ok p' ∧
      p'.mapOrphanTransactionsByPrev = p.mapOrphanTransactionsByPrev ∧ p'.txOf = p.txOf ∧
      Indexed p'.g_orphan_list (update p'.posOf hash none) := by
  have hpos : p.posOf hash = some orphan.list_pos := by rw [posOf, hfind]; rfl
  have hlist := (wf_iff.mp hwf).2.2
  have hlt := hlist.lt hpos
  obtain ⟨last, hlast⟩ : ∃ last, p.g_orphan_list.getLast? = some last :=
    ⟨_, List.getLast?_eq_some_getLast (List.ne_nil_of_length_pos (by omega))⟩
  have hposlast : p.posOf last = some (p.g_orphan_list.length - 1) := by
    rw [← hlist, ← hlast, List.getLast?_eq_getElem?]
  obtain ⟨lastOrphan, hlastfind, -⟩ := Option.map_eq_some_iff.mp hposlast
  -- the last element takes the free place, unless it is the one removed
  by_cases hend : orphan.list_pos + 1 ≠ p.g_orphan_list.length
  · obtain ⟨p', hp', hok⟩ : ∃ p' : OrphanPool, p' = { p with
        mapOrphanTransactions := p.mapOrphanTransactions.insert last { lastOrphan with list_pos := orphan.list_pos }
        g_orphan_list := (p.g_orphan_list.set orphan.list_pos last).dropLast } ∧
        p.eraseFromList orphan.list_pos = .ok p' :=
      ⟨_, rfl, by simp only [OrphanPool.eraseFromList, hlast, if_pos hend, hlastfind]⟩
    obtain ⟨htx, hpos'⟩ := txOf_put p p' (r := some _) last (by rw [hp']; rfl)
    refine ⟨p', hok, by rw [hp'], ?_, ?_⟩
    · rw [htx, update_eq_self_iff, txOf, hlastfind]
      rfl
    · rw [hpos', hp']
      exact hlist.remove hpos hlast hend
  · refine ⟨{ p with g_orphan_list := p.g_orphan_list.dropLast },
      by simp only [OrphanPool.eraseFromList, hlast, if_neg hend], rfl, rfl, ?_⟩
    apply hlist.pop
    rw [hpos]
    congr 1
    omega

/-- **Erasing** succeeds, keeps the indexes exact and takes out one orphan. -/
theorem Wf.eraseOrphanTx (hwf : p.Wf H) (hash : Uint256) :
    ∃ p', p.eraseOrphanTx H hash = .ok p' ∧ p'.Wf H ∧
      ∀ h, p'.txOf h = if h = hash then none else p.txOf h := by
  unfold OrphanPool.eraseOrphanTx
  cases hfind : p.find hash with
  | none =>
    refine ⟨p, rfl, hwf, fun h => ?_⟩
    split_ifs with hh
    · rw [hh, txOf, hfind]
      rfl
    · rfl
  | some orphan =>
    obtain ⟨hkeyed, hprev, hlist⟩ := wf_iff.mp hwf
    have hassert := (hlist _ _).mpr (by rw [posOf, hfind]; rfl)
    obtain ⟨q, hq, hbyPrev, hqtx, hqlist⟩ := hwf.eraseFromList hfind
    simp only [hassert, ne_eq, hq]
    refine ⟨_, rfl, ?_⟩
    generalize hp' : OrphanPool.mk _ _ _ _ = p'
    obtain ⟨htx, hpos⟩ := txOf_put q p' (r := none) hash (by rw [← hp']; rfl)
    rw [hqtx] at htx
    rw [wf_iff, htx, hpos, ← hp']
    refine ⟨⟨fun h tx htx' => ?_, fun prevout h => ?_, hqlist⟩, fun h => update_apply ..⟩
    · by_cases hh : h = hash
      · rw [hh, update_self] at htx'
        cases htx'
      · rw [update_of_ne hh] at htx'
        exact hkeyed h tx htx'
    · dsimp only
      rw [hbyPrev]
      by_cases hh : h = hash
      · rw [hh]
        split_ifs with hmem
        · simp
        · rw [hprev, txOf, hfind]
          simpa using hmem
      · rw [update_of_ne hh, ← hprev]
        split_ifs
        · simp [hh]
        · rfl

def size (p : OrphanPool) : Nat := p.mapOrphanTransactions.keys.length

theorem size_eq : p.size = p.mapOrphanTransactions.entries.length := List.length_map _

theorem size_eraseFromList {old_pos : Nat} (h : p.eraseFromList old_pos = .ok p') :
    p'.mapOrphanTransactions.keys.Perm p.mapOrphanTransactions.keys := by
  unfold eraseFromList at h
  split at h
  · cases h
  · split_ifs at h
    · split at h
      · cases h
      · rename_i orphan hfind
        cases h
        have hmem := mem_keys.mp (lookup_isSome.mp (by rw [← find, hfind]; rfl))
        rw [keys_insert]
        exact (List.perm_cons_erase hmem).symm
    · cases h
      exact List.Perm.refl _

theorem size_eraseOrphanTx (hfind : p.find hash = some orphan) (h : p.eraseOrphanTx H hash = .ok p') :
    p'.size < p.size := by
  simp only [eraseOrphanTx, hfind] at h
  split_ifs at h
  obtain ⟨q, hq, h⟩ := Outcome.bind_eq_ok.mp h
  cases h
  have hperm := size_eraseFromList hq
  have hmem := hperm.mem_iff.mpr
    (mem_keys.mp (lookup_isSome.mp (by rw [← find, hfind]; rfl)))
  have hpos := List.length_pos_of_mem hmem
  rw [size, size, keys_erase, List.length_erase_of_mem hmem, ← hperm.length_eq]
  omega

theorem size_eraseOrphanTx_le (h : p.eraseOrphanTx H hash = .ok p') : p'.size ≤ p.size := by
  cases hfind : p.find hash with
  | none =>
    rw [eraseOrphanTx, hfind] at h
    cases h
    exact Nat.le_refl _
  | some orphan => exact (size_eraseOrphanTx hfind h).le

theorem Wf.eraseAll (hwf : p.Wf H) (hashes : List Uint256) :
    ∃ p', p.eraseAll H hashes = .ok p' ∧ p'.Wf H ∧ p'.size ≤ p.size := by
  induction hashes generalizing p with
  | nil => exact ⟨p, rfl, hwf, Nat.le_refl _⟩
  | cons hash rest ih =>
    obtain ⟨q, hq, hqwf, -⟩ := hwf.eraseOrphanTx hash
    obtain ⟨p', hp', hwf', hsize⟩ := ih hqwf
    exact ⟨p', by rw [eraseAll, hq]; exact hp', hwf', hsize.trans (size_eraseOrphanTx_le hq)⟩

theorem Wf.evict (nMaxOrphans : Nat) : ∀ (fuel : Nat) (rng : List Nat) {p : OrphanPool}, p.Wf H →
    p.size ≤ nMaxOrphans + fuel →
    ∃ p', evict H nMaxOrphans fuel rng p = .ok p' ∧ p'.Wf H ∧ p'.size ≤ nMaxOrphans := by
  intro fuel
  induction fuel with
  | zero => intro rng p hwf hsize; exact ⟨p, rfl, hwf, hsize⟩
  | succ fuel ih =>
    intro rng p hwf hsize
    rw [OrphanPool.evict]
    split_ifs with hlarge
    · obtain ⟨e, he⟩ : ∃ e, e ∈ p.mapOrphanTransactions.entries :=
        List.exists_mem_of_length_pos (by omega)
      have hlookup : p.find e.1 = some e.2 := mem_lookup_iff.mpr he
      have hpos : (p.find e.1).map COrphanTx.list_pos = some e.2.list_pos := by rw [hlookup]; rfl
      have hlt := hwf.list.lt hpos
      have hrand : rng.headD 0 % p.g_orphan_list.length < p.g_orphan_list.length :=
        Nat.mod_lt _ (by omega)
      have hdrawn := List.getElem?_eq_getElem hrand
      simp only [hdrawn]
      obtain ⟨q, hq, hqwf, -⟩ := hwf.eraseOrphanTx
        (p.g_orphan_list[rng.headD 0 % p.g_orphan_list.length])
      -- what is drawn from the list is an orphan, so there is one less
      obtain ⟨_, hfind, -⟩ := Option.map_eq_some_iff.mp ((hwf.list _ _).mp hdrawn)
      have hless := size_eraseOrphanTx hfind hq
      obtain ⟨p', hp', hwf'⟩ := ih rng.tail hqwf (by omega)
      exact ⟨p', by rw [hq]; exact hp', hwf'⟩
    · exact ⟨p, rfl, hwf, by rw [size_eq]; omega⟩

theorem Wf.limitOrphanTxSize (hwf : p.Wf H) (nMaxOrphans : Nat) (nNextSweep now : Int) (rng : List Nat) :
    ∃ p' next, p.limitOrphanTxSize H nMaxOrphans nNextSweep now rng = .ok (p', next) ∧ p'.Wf H ∧
      p'.size ≤ nMaxOrphans := by
  have hsweep : ∃ q next, p.sweep H nNextSweep now = .ok (q, next) ∧ q.Wf H := by
    unfold sweep
    split_ifs
    · obtain ⟨q, hq, hqwf, -⟩ := hwf.eraseAll
        ((p.mapOrphanTransactions.entries.filter fun e => e.2.nTimeExpire ≤ now).map (·.1))
      exact ⟨q, _, by simp only [hq]; rfl, hqwf⟩
    · exact ⟨p, _, rfl, hwf⟩
  obtain ⟨q, next, hq, hqwf⟩ := hsweep
  obtain ⟨p', hp', hwf'⟩ := Wf.evict nMaxOrphans q.mapOrphanTransactions.entries.length rng hqwf
    (by rw [size_eq]; omega)
  exact ⟨p', next, by simp only [OrphanPool.limitOrphanTxSize, hq, bind, Except.bind, hp'], hwf'⟩

end OrphanPool

end Defcoin.Relay
