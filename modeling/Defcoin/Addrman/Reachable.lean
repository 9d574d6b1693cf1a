import Defcoin.Framework.Machine
import Defcoin.Addrman.SameIP

/-! # Every run of the address manager

  The public operations as a machine. From a new address manager on, the state is consistent and no
  assertion fails, as long as no `SelectTriedCollision` picks a waiting entry whose tried slot is
  empty: `Remove_` takes entries out of the tried table while others wait for their slots.
-/

namespace Defcoin.Addrman

open Outcome BackPointers Succeeds

namespace CAddrMan
variable {h : Hashes} {s : CAddrMan}

/-! ### The other operations -/

section
variable (hs : Consistent h ∅ 0 s)
include hs

variable (addr : CService)

theorem updateExact_spec {f : CAddrInfo → CAddrInfo}
    (hplace : ∀ info, (f info).place = info.place) (hpos : ∀ info, (f info).nRandomPos = info.nRandomPos) :
    Consistent h ∅ 0 (s.updateExact addr f) := by
  unfold updateExact
  rcases hf : s.find addr.toCNetAddr with - | found
  · exact hs
  · obtain ⟨_, info⟩ := found
    simp only
    split
    · exact hs
    · exact hs.setInfo (find_eq_some hs hf).1 _ (hplace info) (hpos info)

theorem attempt_spec (fCountFailure : Bool) (nTime : Int) :
    Consistent h ∅ 0 (s.attempt_ addr fCountFailure nTime) := by
  apply updateExact_spec hs
  · intro info
    simp only
    split <;> rfl
  · intro info
    simp only
    split <;> rfl

theorem connected_spec (nTime : Int) : Consistent h ∅ 0 (s.connected_ addr nTime) := by
  apply updateExact_spec hs
  · intro info
    split <;> rfl
  · intro info
    split <;> rfl

theorem eraseCollision_spec (id : Int) : Consistent h ∅ 0 (s.eraseCollision id) :=
  hs.others _ _

theorem triedOccupant {slot : TriedBucket × BucketPosition} (hslot : s.vvTried slot ≠ -1) :
    ∃ info, s.mapInfo.lookup (s.vvTried slot) = some info := by
  obtain ⟨_, hp, _⟩ := hs.slots.triedSlot slot hslot
  obtain ⟨info, hinfo, _⟩ := lookup_of_places hp
  exact ⟨info, hinfo⟩

theorem resolveOne_spec (clock : Nat → Int) (nRnd : NewBucket) (id_new : Int) :
    Succeeds (resolveOne h clock nRnd s id_new) fun s' => Consistent h ∅ 0 s' := by
  have hgood : ∀ addr nTime,
      Succeeds ((s.good_ h addr false nTime nRnd).map fun s => s.eraseCollision id_new)
        fun s' => Consistent h ∅ 0 s' := by
    intro addr nTime
    apply map (good_spec hs addr false nTime nRnd)
    intro s' hs'
    exact eraseCollision_spec hs'.1 id_new
  have herase : Succeeds (.ok (s.eraseCollision id_new) : Except Fault CAddrMan)
      fun s' => Consistent h ∅ 0 s' := ok (eraseCollision_spec hs id_new)
  unfold resolveOne
  rcases hinfo : s.mapInfo.lookup id_new with - | _
  · exact herase
  · simp only
    split
    · exact herase
    · split
      case isTrue hslot =>
        -- the entry in the way
        obtain ⟨_, hold⟩ := triedOccupant hs hslot
        simp only [infoAt_of_lookup hold]
        split
        · exact herase
        · split
          · split
            · exact hgood _ _
            · exact ok hs
          · split
            · exact hgood _ _
            · exact ok hs
      case isFalse => exact hgood _ _

theorem resolveCollisions_spec (clock : Int → Nat → Int) (nRnd : Int → NewBucket) :
    Succeeds (s.resolveCollisions_ h clock nRnd) fun s' => Consistent h ∅ 0 s' := by
  apply foldlM (fun _ s' => Consistent h ∅ 0 s') hs
  intro _ id_new _ s' _ hs'
  exact resolveOne_spec hs' (clock id_new) (nRnd id_new) id_new

end

theorem selectLoop_spec {σ : Type} {table : σ → Int}
    (htable : ∀ slot, table slot ≠ -1 → ∃ info, s.mapInfo.lookup (table slot) = some info)
    (probes : List (σ × Bool)) : Succeeds (s.selectLoop table probes) fun _ => True := by
  induction probes with
  | nil => exact ok trivial
  | cons probe probes ih =>
    obtain ⟨slot, _⟩ := probe
    unfold selectLoop
    by_cases hslot : table slot = -1
    · rw [if_pos hslot]
      exact ih
    · rw [if_neg hslot]
      obtain ⟨info, hinfo⟩ := htable slot hslot
      apply bind_of_eq (infoOf_ok hinfo)
      split
      · exact ok trivial
      · exact ih

theorem select_spec (hs : Consistent h ∅ 0 s) (newOnly randbool : Bool)
    (triedProbes : List ((TriedBucket × BucketPosition) × Bool))
    (newProbes : List ((NewBucket × BucketPosition) × Bool)) :
    Succeeds (s.select_ newOnly randbool triedProbes newProbes) fun _ => True := by
  unfold select_
  split
  · exact ok trivial
  · split
    · exact ok trivial
    · split
      · exact selectLoop_spec (fun _ hslot => triedOccupant hs hslot) triedProbes
      · refine selectLoop_spec (fun _ hslot => ?_) newProbes
        obtain ⟨info, hinfo, _⟩ := occupant hs hslot
        exact ⟨info, hinfo⟩

theorem getAddrLoop_spec (nNodes : Nat) (nNow : Nat → Int) (nRnd : Nat → Nat) (rounds n : Nat)
    (hs : Consistent h ∅ 0 s) (hlen : n + rounds = s.vRandom.length) (vAddr : List CAddress) :
    Succeeds (getAddrLoop nNodes nNow nRnd rounds n s vAddr) fun r => Consistent h ∅ 0 r.2 := by
  induction rounds generalizing n s vAddr with
  | zero => exact ok hs
  | succ rounds ih =>
    unfold getAddrLoop
    split
    · exact ok hs
    · have hpos : ∀ k, k < s.vRandom.length → ∃ id, positions s.mapInfo id = some k := by
        intro k hk
        exact ⟨_, (hs.order k _).mp (List.getElem?_eq_getElem hk)⟩
      have hmod := Nat.mod_lt (nRnd n) (show 0 < s.vRandom.length - n by omega)
      obtain ⟨_, h₁⟩ := hpos n (by omega)
      obtain ⟨_, h₂⟩ := hpos (nRnd n % (s.vRandom.length - n) + n) (by omega)
      apply bind (swapRandom_spec hs h₁ h₂)
      intro s₁ hs₁
      obtain ⟨hs₁, _, hlen₁, _⟩ := hs₁
      have hget : s₁.vRandom[n]? = some _ := List.getElem?_eq_getElem (by omega)
      rw [hget]
      obtain ⟨_, hai, _⟩ := Option.map_eq_some_iff.mp ((hs₁.order n _).mp hget)
      apply bind_of_eq (infoOf_ok hai)
      exact ih (n + 1) hs₁ (by omega) _

/-- The waiting entry that is picked has another one in its way. -/
def CollisionStands (h : Hashes) (s : CAddrMan) (nRnd : Nat) : Prop :=
  ∀ id_new newInfo, s.m_tried_collisions[nRnd % s.m_tried_collisions.length]? = some id_new →
    s.mapInfo.lookup id_new = some newInfo → s.vvTried (h.triedSlot newInfo.toCService) ≠ -1

theorem selectTriedCollision_spec (hs : Consistent h ∅ 0 s) (nRnd : Nat) :
    Consistent h ∅ 0 (s.selectTriedCollision_ h nRnd).2 ↔ s.CollisionStands h nRnd := by
  unfold selectTriedCollision_ CollisionStands
  rcases hpick : s.m_tried_collisions[nRnd % s.m_tried_collisions.length]? with - | id_new
  · exact iff_of_true hs nofun
  · simp only
    rcases hinfo : s.mapInfo.lookup id_new with - | newInfo
    · refine iff_of_true (eraseCollision_spec hs id_new) ?_
      intro id newInfo heq hnew
      cases heq
      rw [hinfo] at hnew
      cases hnew
    · simp only
      constructor
      · intro hs' id newInfo' heq hnew hempty
        cases heq
        rw [hinfo] at hnew
        cases hnew
        have hnone := Option.map_eq_none_iff.mp hs.entries_neg_one
        rw [hempty, infoAt, hnone] at hs'
        have hbad := hs'.entries_neg_one
        cases hbad
      · intro hstands
        obtain ⟨_, hold⟩ := triedOccupant hs (hstands id_new newInfo rfl hinfo)
        rw [infoAt_of_lookup hold]
        exact hs

/-! ### The machine -/

/-- A public operation with its arguments, clock readings and random draws. -/
inductive Operation where
  | add (addr : CAddress) (source : CNetAddr) (nTimePenalty : Int) (d : AddDraws)
  | addReplacingSameIP (addr : CAddress) (source : CNetAddr) (nTimePenalty : Int) (d : AddDraws)
  | addAndMarkGood (addr : CAddress) (d : GoodDraws)
  | addAndMarkGoodReplacingSameIP (addr : CAddress) (d : GoodDraws)
  | good (addr : CService) (test_before_evict : Bool) (nTime : Int) (nRnd : NewBucket)
  | attempt (addr : CService) (fCountFailure : Bool) (nTime : Int)
  | connected (addr : CService) (nTime : Int)
  | setServices (addr : CService) (nServices : UInt64)
  | resolveCollisions (clock : Int → Nat → Int) (nRnd : Int → NewBucket)
  | selectTriedCollision (nRnd : Nat)
  | select (newOnly randbool : Bool) (triedProbes : List ((TriedBucket × BucketPosition) × Bool))
      (newProbes : List ((NewBucket × BucketPosition) × Bool))
  | getAddr (max_addresses max_pct : Nat) (nNow : Nat → Int) (nRnd : Nat → Nat)

/-- What an operation does to the state. -/
def perform (h : Hashes) (s : CAddrMan) : Operation → Except Fault CAddrMan
  | .add addr source nTimePenalty d => (s.add_ h addr source nTimePenalty d).map Prod.snd
  | .addReplacingSameIP addr source nTimePenalty d =>
    (s.addReplacingSameIP h addr source nTimePenalty d).map Prod.snd
  | .addAndMarkGood addr d => (s.addAndMarkGood_ h addr d).map Prod.snd
  | .addAndMarkGoodReplacingSameIP addr d => (s.addAndMarkGoodReplacingSameIP h addr d).map Prod.snd
  | .good addr test_before_evict nTime nRnd => s.good_ h addr test_before_evict nTime nRnd
  | .attempt addr fCountFailure nTime => .ok (s.attempt_ addr fCountFailure nTime)
  | .connected addr nTime => .ok (s.connected_ addr nTime)
  | .setServices addr nServices => .ok (s.setServices_ addr nServices)
  | .resolveCollisions clock nRnd => s.resolveCollisions_ h clock nRnd
  | .selectTriedCollision nRnd => .ok (s.selectTriedCollision_ h nRnd).2
  | .select newOnly randbool triedProbes newProbes =>
    (s.select_ newOnly randbool triedProbes newProbes).map fun _ => s
  | .getAddr max_addresses max_pct nNow nRnd => (s.getAddr_ max_addresses max_pct nNow nRnd).map Prod.snd

/-- The address manager as a machine; what the operations return does not matter here. -/
def machine (h : Hashes) : Machine CAddrMan Operation Unit Fault where
  step s op := (s.perform h op).map fun s => ((), s)

/-- What an operation needs: no `SelectTriedCollision` without a collision. -/
def Operation.Allowed (h : Hashes) (s : CAddrMan) : Operation → Prop
  | .selectTriedCollision nRnd => s.CollisionStands h nRnd
  | _ => True

/-- **One operation**: the state stays consistent, and no assertion fails. -/
theorem perform_spec (hs : Consistent h ∅ 0 s) (op : Operation) (hop : op.Allowed h s) :
    Succeeds (s.perform h op) fun s' => Consistent h ∅ 0 s' := by
  cases op with
  | add addr source nTimePenalty d => exact (add_spec hs addr source nTimePenalty d).map fun _ hr => hr.1
  | addReplacingSameIP addr source nTimePenalty d =>
    exact (addReplacingSameIP_spec hs addr source nTimePenalty d).map fun _ hr => hr.1
  | addAndMarkGood addr d => exact (addAndMarkGood_spec hs addr d).map fun _ hr => hr.1
  | addAndMarkGoodReplacingSameIP addr d =>
    exact (addAndMarkGoodReplacingSameIP_spec hs addr d).map fun _ hr => hr.1
  | good addr test_before_evict nTime nRnd =>
    exact (good_spec hs addr test_before_evict nTime nRnd).mono fun _ hr => hr.1
  | attempt addr fCountFailure nTime => exact ok (attempt_spec hs addr fCountFailure nTime)
  | connected addr nTime => exact ok (connected_spec hs addr nTime)
  | setServices addr nServices => exact ok (updateExact_spec hs addr (fun _ => rfl) fun _ => rfl)
  | resolveCollisions clock nRnd => exact resolveCollisions_spec hs clock nRnd
  | selectTriedCollision nRnd => exact ok ((selectTriedCollision_spec hs nRnd).mpr hop)
  | select newOnly randbool triedProbes newProbes =>
    exact (select_spec hs newOnly randbool triedProbes newProbes).map fun _ _ => hs
  | getAddr max_addresses max_pct nNow nRnd =>
    exact (getAddrLoop_spec _ nNow nRnd s.vRandom.length 0 hs (Nat.zero_add _) []).map fun _ hr => hr

theorem allowed_iff_step (s : CAddrMan) (op : Operation) (hs : Consistent h ∅ 0 s) :
    op.Allowed h s ↔ ∃ o s', (machine h).step s op = .ok (o, s') ∧ Consistent h ∅ 0 s' := by
  constructor
  · intro hop
    obtain ⟨s', hs', hinv⟩ := perform_spec hs op hop
    exact ⟨(), s', congrArg (Except.map fun s => ((), s)) hs', hinv⟩
  · intro hstep
    cases op with
    | selectTriedCollision nRnd =>
      obtain ⟨o, s', hs', hinv⟩ := hstep
      cases hs'
      exact (selectTriedCollision_spec hs nRnd).mp hinv
    | _ => trivial

/-- **Every run** of a new address manager is consistent throughout, without a failed assertion,
    exactly if every `SelectTriedCollision` that picks a known entry finds another one in its way. -/
theorem runs_consistent_iff (h : Hashes) (ops : List Operation) :
    (∀ n, ∃ os s, (machine h).run new (ops.take n) = .ok (os, s) ∧ Consistent h ∅ 0 s) ↔
      (machine h).Guarded (fun s op => op.Allowed h s) new ops :=
  (Machine.guarded_iff_invariant allowed_iff_step ops new (Consistent.init h)).symm

/-- A host is verified, another one waits for its slot, and the first one is replaced by its other port. -/
def emptiedSlot : List Operation :=
  [.addAndMarkGood (peer hostA 1337) ⟨1700000000, 1700000000, firstNew.1⟩,
    .add (peer hostB 1337) hostB 0 ⟨1700000000, 1700000000, 0⟩,
    .good (peer hostB 1337).toCService true 1700000000 firstNew.1,
    .addReplacingSameIP (peer hostA 10332) hostA 0 ⟨1700000000, 1700000000, 0⟩,
    .selectTriedCollision 0]

/-- The last operation makes an entry for the id -1. -/
theorem emptiedSlot_inconsistent : ∃ os s,
    (machine oneSlot).run new emptiedSlot = .ok (os, s) ∧ ¬Consistent oneSlot ∅ 0 s := by
  have hmade : ((machine oneSlot).run new emptiedSlot).map
      (fun r => (r.2.mapInfo.lookup (-1)).isSome) = .ok true := by decide +kernel
  rcases hrun : (machine oneSlot).run new emptiedSlot with _ | ⟨os, s⟩
  · rw [hrun] at hmade
    cases hmade
  · refine ⟨os, s, rfl, fun hs => ?_⟩
    rw [hrun] at hmade
    have hsome : (s.mapInfo.lookup (-1)).isSome = true := Except.ok.inj hmade
    rw [Option.map_eq_none_iff.mp hs.entries_neg_one] at hsome
    cases hsome

end CAddrMan

end Defcoin.Addrman
