import Defcoin.Framework.Outcome
import Defcoin.Addrman.Consistent

/-! # What the private functions do

  One specification for each function that the operations are made of: it succeeds from a consistent
  state, the state stays consistent, and the entries change in one place.
-/

namespace Defcoin.Addrman

open Outcome Counting BackPointers Function Succeeds List Option

namespace CAddrMan
variable {h : Hashes} {loose : Set Int} {lost : Int} {s : CAddrMan}

theorem assert_ok {p : Prop} [Decidable p] (hp : p) (expr : String) : assert p expr = .ok () := if_pos hp

variable {service : CService} {s' : CAddrMan} {slot : NewBucket × BucketPosition} {e info : CAddrInfo}
  {id : Int}

theorem infoOf_ok (hinfo : s.mapInfo.lookup id = some info) : s.infoOf id = .ok info := by
  rw [infoOf, hinfo]

theorem infoAt_of_lookup (hinfo : s.mapInfo.lookup id = some info) : s.infoAt id = (info, s) := by
  rw [infoAt, hinfo]

/-! ### The random order -/

def Shuffled (s s' : CAddrMan) : Prop :=
  entries s'.mapInfo = entries s.mapInfo ∧ ∃ m v, s' = { s with mapInfo := m, vRandom := v }

section
variable (hs : Consistent h loose lost s)
include hs

theorem swapRandom_spec {id₁ id₂ : Int} {k₁ k₂ : Nat} (h₁ : positions s.mapInfo id₁ = some k₁)
    (h₂ : positions s.mapInfo id₂ = some k₂) :
    Succeeds (s.swapRandom k₁ k₂) fun s' => Consistent h loose lost s' ∧ s.Shuffled s' ∧
      s'.vRandom.length = s.vRandom.length ∧ positions s'.mapInfo id₁ = some k₂ := by
  unfold swapRandom
  by_cases hk : k₁ = k₂
  · rw [if_pos hk]
    subst hk
    exact ok ⟨hs, ⟨rfl, s.mapInfo, s.vRandom, rfl⟩, rfl, h₁⟩
  · rw [if_neg hk, (hs.order k₁ id₁).mpr h₁, (hs.order k₂ id₂).mpr h₂]
    have hne : id₁ ≠ id₂ := by
      rintro rfl
      exact hk (some.inj (h₁.symm.trans h₂))
    obtain ⟨_, hinfo₁, rfl⟩ := map_eq_some_iff.mp h₁
    obtain ⟨_, hinfo₂, rfl⟩ := map_eq_some_iff.mp h₂
    apply bind_of_eq (infoOf_ok hinfo₁)
    apply bind_of_eq (infoOf_ok hinfo₂)
    obtain ⟨hentries, hpositions, hs'⟩ := hs.swap hinfo₁ hinfo₂ hk rfl
    apply ok
    refine ⟨hs', ⟨hentries, _, _, rfl⟩, ?_, ?_⟩
    · rw [length_set, length_set]
    · rw [hpositions, swapPos, update_of_ne hne, update_self]

def Unlisted (s : CAddrMan) (id : Int) (s' : CAddrMan) : Prop :=
  entries s'.mapInfo = update (entries s.mapInfo) id none ∧
    ∃ m a v, s' = { s with mapInfo := m, mapAddr := a, vRandom := v }

theorem unlist_spec (hinfo : s.mapInfo.lookup id = some info) (htried : info.fInTried = false)
    (hrefs : info.nRefCount = 0) :
    Succeeds (s.unlist id info) fun s' => Consistent h (loose \ {id}) (lost - 1) s' ∧ s.Unlisted id s' := by
  -- the entry changes places with the last one
  have hpos := positions_of_lookup hinfo
  have hlt := hs.order.lt hpos
  have hlast := (hs.order (s.vRandom.length - 1) _).mp (List.getElem?_eq_getElem (by omega))
  apply bind (swapRandom_spec hs hpos hlast)
  rintro s₁ ⟨hs₁, ⟨hentries, m, v, rfl⟩, hlen, hpos₁⟩
  have hentry : entries m id = some info.core := by
    rw [show entries m = entries s.mapInfo from hentries]
    exact entries_of_lookup hinfo
  obtain ⟨info₁, hinfo₁, hcore⟩ := lookup_of_entries hentry
  obtain ⟨hservice, htried₁, hrefs₁⟩ := CAddrInfo.place_of_core hcore
  have hlast₁ : info₁.nRandomPos = v.length - 1 := by
    rw [positions_of_lookup hinfo₁] at hpos₁
    rw [some.inj hpos₁, show v.length = s.vRandom.length from hlen]
  have hs₂ := hs₁.pop hinfo₁ (htried₁.trans htried) (hrefs₁.trans hrefs) hlast₁
  rw [hservice] at hs₂
  apply ok
  refine ⟨hs₂, ?_, _, _, _, rfl⟩
  rw [← hentries]
  exact entries_erase m id

/-- An entry left the order and the maps, and the counter of the new table knows it. -/
def Deleted (s : CAddrMan) (id : Int) (s' : CAddrMan) : Prop :=
  entries s'.mapInfo = update (entries s.mapInfo) id none ∧
    ∃ m a v n, s' = { s with mapInfo := m, mapAddr := a, vRandom := v, nNew := n }

theorem delete_spec (he : entries s.mapInfo id = some e) (htried : e.fInTried = false)
    (hrefs : e.nRefCount = 0) :
    Succeeds (s.delete id) fun s' => Consistent h (loose \ {id}) lost s' ∧ s.Deleted id s' := by
  obtain ⟨_, hinfo, rfl⟩ := lookup_of_entries he
  apply bind_of_eq (infoOf_ok hinfo)
  apply bind_of_eq (assert_ok htried _)
  apply bind_of_eq (assert_ok hrefs _)
  apply bind (unlist_spec hs hinfo htried hrefs)
  rintro s₁ ⟨hs₁, hentries, m, a, v, rfl⟩
  apply ok
  refine ⟨hs₁.recount ?_, hentries, m, a, v, _, rfl⟩
  omega

/-! ### Slots of the new table -/

def dropRef (o : Option CAddrInfo) : Option CAddrInfo :=
  o.bind fun e => if e.nRefCount = 1 then none else some { e with nRefCount := e.nRefCount - 1 }

def Cleared (s : CAddrMan) (slot : NewBucket × BucketPosition) (s' : CAddrMan) : Prop :=
  entries s'.mapInfo =
      update (entries s.mapInfo) (s.vvNew slot) (dropRef (entries s.mapInfo (s.vvNew slot))) ∧
    ∃ m a v n, s' = { s with
      mapInfo := m, mapAddr := a, vRandom := v, nNew := n, vvNew := update s.vvNew slot (-1) }

theorem occupant (hslot : s.vvNew slot ≠ -1) :
    ∃ info, s.mapInfo.lookup (s.vvNew slot) = some info ∧ info.fInTried = false ∧ 1 ≤ info.nRefCount := by
  obtain ⟨p, hp, htried, _⟩ := hs.slots.newSlot slot hslot
  obtain ⟨hcount, _, _⟩ := hs.slots.new _ p hp htried
  obtain ⟨_, he, rfl⟩ := entries_of_places hp
  obtain ⟨info, hinfo, rfl⟩ := lookup_of_entries he
  refine ⟨info, hinfo, htried, ?_⟩
  have hpos : 0 < refs s.vvNew (s.vvNew slot) := refs_pos rfl
  have : info.nRefCount = (refs s.vvNew (s.vvNew slot) : Int) := hcount
  omega

theorem clearNew_spec (slot : NewBucket × BucketPosition) :
    Succeeds (s.clearNew slot) fun s' => Consistent h loose lost s' ∧ s.Cleared slot s' := by
  unfold clearNew
  by_cases hslot : s.vvNew slot = -1
  · rw [if_pos hslot]
    have hnone := hs.entries_neg_one
    apply ok
    refine ⟨hs, ?_, s.mapInfo, s.mapAddr, s.vRandom, s.nNew, ?_⟩
    · rw [hslot, hnone]
      exact (update_eq_self_iff.mpr hnone.symm).symm
    · rw [update_eq_self_iff.mpr hslot.symm]
  · rw [if_neg hslot]
    obtain ⟨info, hinfo, htried, hrefs⟩ := occupant hs hslot
    simp only [infoAt_of_lookup hinfo]
    apply bind_of_eq (assert_ok (by show info.nRefCount > 0; omega) _)
    -- the entry loses the reference, whether or not it is the last
    have hs₁ := hs.takeSlot hinfo htried rfl
    have hentry := entries_of_lookup hinfo
    have hentries₁ := entries_insert s.mapInfo (s.vvNew slot) { info with nRefCount := info.nRefCount - 1 }
    have hentry₁ : entries (s.takeSlot (s.vvNew slot) info slot).mapInfo (s.vvNew slot) =
        some { info.core with nRefCount := info.nRefCount - 1 } :=
      (congrFun hentries₁ _).trans (update_self ..)
    have hsub : (loose ∪ {s.vvNew slot}) \ {s.vvNew slot} ⊆ loose := by
      rw [Set.union_sdiff_right]
      exact Set.sdiff_subset
    by_cases hlast : info.nRefCount - 1 = 0
    · rw [if_pos hlast]
      apply mono (delete_spec hs₁ hentry₁ htried hlast)
      rintro s₂ ⟨hs₂, hentries₂, m, a, v, n, rfl⟩
      refine ⟨hs₂.mono hsub, ?_, m, a, v, n, rfl⟩
      have hone : info.core.nRefCount = 1 := by
        show info.nRefCount = 1
        omega
      rw [hentries₂, hentry, dropRef, bind_some, if_pos hone]
      show update (entries (s.mapInfo.insert _ _)) _ none = _
      rw [hentries₁, update_idem]
    · rw [if_neg hlast]
      apply ok
      refine ⟨?_, ?_, _, s.mapAddr, s.vRandom, s.nNew, rfl⟩
      · refine (hs₁.tighten _ fun e he _ => ?_).mono hsub
        rw [hentry₁] at he
        cases he
        show 1 ≤ info.nRefCount - 1
        omega
      · have hone : ¬info.core.nRefCount = 1 := by
          show ¬info.nRefCount = 1
          omega
        rw [hentry, dropRef, bind_some, if_neg hone]
        exact hentries₁

end

theorem Cleared.entries_of_ne (hc : s.Cleared slot s') (hne : s.vvNew slot ≠ id) :
    entries s'.mapInfo id = entries s.mapInfo id := by
  rw [hc.1, update_of_ne (Ne.symm hne)]

theorem Cleared.giveSlot (info : CAddrInfo) {bucket : NewBucket}
    (hc : s.Cleared (h.slotIn info.toCService bucket) s') (hs' : Consistent h loose lost s')
    (hown : s.vvNew (h.slotIn info.toCService bucket) ≠ id) (hinfo : s.mapInfo.lookup id = some info)
    (htried : info.fInTried = false) (hmax : info.nRefCount < ADDRMAN_NEW_BUCKETS_PER_ADDRESS) :
    ∃ info', s'.mapInfo.lookup id = some info' ∧ info'.core = info.core ∧ Consistent h (loose \ {id}) lost
      (s'.giveSlot id info' (info.nRefCount + 1) (h.slotIn info.toCService bucket)) := by
  have hentry := hc.entries_of_ne hown
  rw [entries_of_lookup hinfo] at hentry
  obtain ⟨info', hinfo', hcore⟩ := lookup_of_entries hentry
  obtain ⟨hservice, htried', hrefs⟩ := CAddrInfo.place_of_core hcore
  refine ⟨info', hinfo', hcore, ?_⟩
  obtain ⟨-, _, _, _, _, rfl⟩ := hc
  have hgiven := hs'.giveSlot hinfo' (htried'.trans htried) (congrArg (· + 1) hrefs) hmax bucket (by
    rw [hservice]
    exact update_self ..)
  rw [hservice] at hgiven
  exact hgiven

theorem vvNew_ne (hs : Consistent h loose lost s) (he : entries s.mapInfo id = some e)
    (hout : e.fInTried = true ∨ e.nRefCount = 0) (slot : NewBucket × BucketPosition) : s.vvNew slot ≠ id := by
  have hid := hs.slots.ids id _ (places_of_entries he)
  intro hslot
  obtain ⟨info, hinfo, htried, hrefs⟩ := occupant hs (by rw [hslot]; exact hid)
  rw [hslot] at hinfo
  rw [entries_of_lookup hinfo] at he
  cases he
  rcases hout with hout | hout
  · rw [show info.fInTried = true from hout] at htried
    cases htried
  · have : info.nRefCount = 0 := hout
    omega

/-! ### `Remove_` -/

/-- An entry is gone, and its slots are empty. -/
structure Removed (s : CAddrMan) (id : Int) (s' : CAddrMan) : Prop where
  entries : entries s'.mapInfo = update (entries s.mapInfo) id none
  vvTried : ∀ slot, s'.vvTried slot = if s.vvTried slot = id then -1 else s.vvTried slot
  vvNew : ∀ slot, s'.vvNew slot = if s.vvNew slot = id then -1 else s.vvNew slot

theorem mem_allSlots {buckets size : Nat} (slot : Fin buckets × Fin size) : slot ∈ allSlots buckets size :=
  mem_product.mpr ⟨mem_finRange _, mem_finRange _⟩

theorem nodup_allSlots (buckets size : Nat) : (allSlots buckets size).Nodup :=
  (nodup_finRange _).product (nodup_finRange _)

section
variable (hs : Consistent h ∅ 0 s)
include hs

theorem clearAll_spec (he : entries s.mapInfo id = some e) (htried : e.fInTried = false)
    {new_refs : List (NewBucket × BucketPosition)} (hnodup : new_refs.Nodup)
    (hmem : ∀ slot, slot ∈ new_refs ↔ s.vvNew slot = id) :
    Succeeds (new_refs.foldlM clearNew s) fun s' => Consistent h ∅ 0 s' ∧ s.Removed id s' := by
  have hid := hs.slots.ids id _ (places_of_entries he)
  -- the slots that are done with are empty, and nothing but the entry has changed
  apply mono (foldlM (fun done s' =>
    Consistent h ∅ 0 s' ∧ (∀ id', id' ≠ id → entries s'.mapInfo id' = entries s.mapInfo id') ∧
      (∀ e, entries s'.mapInfo id = some e → e.fInTried = false) ∧ s'.vvTried = s.vvTried ∧
      (∀ slot ∈ done, s'.vvNew slot = -1) ∧ ∀ slot, slot ∉ done → s'.vvNew slot = s.vvNew slot) ?_ ?_)
  · rintro s' ⟨hs', hothers, hnew, hvvTried, hdone, hrest⟩
    have hvvNew : ∀ slot, s'.vvNew slot = if s.vvNew slot = id then -1 else s.vvNew slot := by
      intro slot
      by_cases hslot : s.vvNew slot = id
      · rw [if_pos hslot]
        exact hdone slot ((hmem slot).mpr hslot)
      · rw [if_neg hslot]
        exact hrest slot fun hm => hslot ((hmem slot).mp hm)
    have hgone : entries s'.mapInfo id = none := by
      by_contra hsome
      obtain ⟨e', he'⟩ := ne_none_iff_exists'.mp hsome
      obtain ⟨hcount, _, hloose⟩ := hs'.slots.new id _ (places_of_entries he') (hnew e' he')
      have hpos : 0 < refs s'.vvNew id := by
        rcases hloose with hloose | hpos
        · exact absurd hloose (Set.notMem_empty id)
        · rw [hcount] at hpos
          exact Int.natCast_pos.mp hpos
      obtain ⟨slot, hslot⟩ := exists_of_refs_pos hpos
      rw [hvvNew] at hslot
      split at hslot
      case isTrue => exact hid hslot.symm
      case isFalse hne => exact hne hslot
    refine ⟨hs', ?_, ?_, hvvNew⟩
    · funext id'
      by_cases heq : id' = id
      · rw [heq, hgone, update_self]
      · rw [hothers id' heq, update_of_ne heq]
    · intro slot
      have hother : s.vvTried slot ≠ id := by
        apply hs.slots.not_in_tried hid
        intro p hp
        rw [places_of_entries he] at hp
        cases hp
        exact htried
      rw [hvvTried, if_neg hother]
  · refine ⟨hs, fun _ _ => rfl, ?_, rfl, fun _ hm => absurd hm not_mem_nil, fun _ _ => rfl⟩
    intro e' he'
    rw [he] at he'
    cases he'
    exact htried
  · rintro done slot rest s₁ hl ⟨hs₁, hothers, hnew, hvvTried, hdone, hrest⟩
    rw [← hl] at hnodup
    have hfresh : slot ∉ done := by
      intro hm
      exact (nodup_append.mp hnodup).2.2 slot hm slot mem_cons_self rfl
    have hslot : s₁.vvNew slot = id := by
      rw [hrest slot hfresh, ← hmem, ← hl]
      exact mem_append_right done mem_cons_self
    apply mono (clearNew_spec hs₁ slot)
    rintro s₂ ⟨hs₂, hc⟩
    have hothers₂ : ∀ id', id' ≠ id → entries s₂.mapInfo id' = entries s.mapInfo id' := by
      intro id' hne
      rw [hc.entries_of_ne (by rw [hslot]; exact Ne.symm hne), hothers id' hne]
    have hnew₂ : ∀ e, entries s₂.mapInfo id = some e → e.fInTried = false := by
      intro e' he'
      rw [hc.1, hslot, update_self] at he'
      obtain ⟨e₁, he₁, hdrop⟩ := bind_eq_some_iff.mp he'
      split at hdrop
      · cases hdrop
      · cases hdrop
        exact hnew e₁ he₁
    obtain ⟨hentries, _, _, _, _, rfl⟩ := hc
    refine ⟨hs₂, hothers₂, hnew₂, hvvTried, ?_, ?_⟩
    · intro slot' hm
      show update s₁.vvNew slot (-1) slot' = -1
      by_cases heq : slot' = slot
      · rw [heq, update_self]
      · rw [update_of_ne heq]
        rcases mem_append.mp hm with hm | hm
        · exact hdone slot' hm
        · exact absurd (mem_singleton.mp hm) heq
    · intro slot' hm
      show update s₁.vvNew slot (-1) slot' = _
      rw [mem_append, not_or, mem_singleton] at hm
      rw [update_of_ne hm.2]
      exact hrest slot' hm.1

theorem removeTried_spec (hinfo : s.mapInfo.lookup id = some info) (htried : info.fInTried = true) :
    Succeeds (s.removeTried h id info) fun s' => Consistent h ∅ 0 s' ∧ s.Removed id s' := by
  -- the entry's own slot is the one that holds it
  have hplace : places s.mapInfo id = some ⟨info.toCService, true, info.nRefCount⟩ := by
    rw [places_of_lookup hinfo, ← htried]
    rfl
  obtain ⟨hrefs, hown⟩ : info.nRefCount = 0 ∧ s.vvTried (h.triedSlot info.toCService) = id :=
    hs.slots.tried id _ hplace rfl
  have href : s.triedRef h id info = some (h.triedSlot info.toCService) := by
    rw [triedRef, if_pos hown]
  unfold removeTried
  rw [href]
  apply bind_of_eq (assert_ok hrefs _)
  have hinfo₁ : (s.leaveTried id info (h.triedSlot info.toCService)).mapInfo.lookup id =
      some { info with fInTried := false } := AList.lookup_insert _
  have hs₁ := (hs.leaveTried hinfo htried).others s.nLastGood (s.m_tried_collisions.erase id)
  apply mono (unlist_spec hs₁ hinfo₁ rfl hrefs)
  rintro s₂ ⟨hs₂, hentries, m, a, v, rfl⟩
  have hempty : (∅ ∪ {id} : Set Int) \ {id} = ∅ := by
    rw [Set.empty_union, Set.sdiff_self]
  rw [hempty] at hs₂
  refine ⟨hs₂, ?_, ?_, ?_⟩
  · rw [hentries]
    show update (entries (s.mapInfo.insert _ _)) id none = _
    rw [entries_insert, update_idem]
  · intro slot
    show update s.vvTried (h.triedSlot info.toCService) (-1) slot = _
    by_cases hslot : slot = h.triedSlot info.toCService
    · rw [hslot, update_self, if_pos hown]
    · rw [update_of_ne hslot, if_neg]
      intro hheld
      have hid := hs.slots.ids id _ hplace
      obtain ⟨_, hp, _, hpos⟩ := hs.slots.triedSlot slot (by rw [hheld]; exact hid)
      rw [hheld, hplace] at hp
      cases hp
      exact hslot hpos.symm
  · intro slot
    rw [if_neg (vvNew_ne hs (entries_of_lookup hinfo) (Or.inl htried) slot)]
    rfl

theorem removeNew_spec (hinfo : s.mapInfo.lookup id = some info) (htried : info.fInTried = false) :
    Succeeds (s.removeNew id) fun s' => Consistent h ∅ 0 s' ∧ s.Removed id s' := by
  refine bind
    (clearAll_spec hs (entries_of_lookup hinfo) htried ((nodup_allSlots _ _).filter _) ?_) ?_
  · intro slot
    rw [mem_filter, decide_eq_true_iff]
    exact and_iff_right (mem_allSlots slot)
  · rintro s₁ ⟨hs₁, hr⟩
    have hgone : (s₁.eraseCollision id).mapInfo.lookup id = none := by
      have hnone : entries s₁.mapInfo id = none := by rw [hr.entries, update_self]
      exact map_eq_none_iff.mp hnone
    simp only [hgone]
    exact ok ⟨hs₁.others _ _, hr.entries, hr.vvTried, hr.vvNew⟩

theorem remove_spec (he : entries s.mapInfo id = some e) :
    Succeeds (s.remove_ h id) fun r => Consistent h ∅ 0 r.2 ∧ s.Removed id r.2 := by
  obtain ⟨info, hinfo, rfl⟩ := lookup_of_entries he
  unfold remove_
  rw [hinfo]
  show Succeeds (if info.fInTried then _ else _) _
  by_cases htried : info.fInTried = true
  · rw [if_pos htried]
    exact (removeTried_spec hs hinfo htried).map fun _ hr => hr
  · rw [if_neg htried]
    exact (removeNew_spec hs hinfo (Bool.eq_false_iff.mpr htried)).map fun _ hr => hr

/-! ### `MakeTried` -/

def InNew (s : CAddrMan) (id : Int) (service : CService) : Prop :=
  ∃ e, entries s.mapInfo id = some e ∧ e.toCService = service ∧ e.fInTried = false

theorem leaveAll_spec (hin : s.InNew id service) :
    Succeeds ((List.finRange _).foldlM (leaveNew h id) s) fun s' => Consistent h {id} 0 s' ∧
      ∃ info, s'.mapInfo.lookup id = some info ∧ info.toCService = service ∧ info.fInTried = false ∧
        info.nRefCount = 0 := by
  have hid : id ≠ -1 := by
    obtain ⟨e, he, _⟩ := hin
    exact hs.slots.ids id _ (places_of_entries he)
  -- the buckets that are done with do not hold the entry
  apply mono (foldlM (fun done s' => Consistent h {id} 0 s' ∧ s'.InNew id service ∧
    ∀ bucket ∈ done, s'.vvNew (h.slotIn service bucket) ≠ id) ?_ ?_)
  · rintro s' ⟨hs', ⟨e, he, rfl, htried⟩, hdone⟩
    obtain ⟨info, hinfo, rfl⟩ := lookup_of_entries he
    refine ⟨hs', info, hinfo, rfl, htried, ?_⟩
    -- whatever slot held it would be its own slot of that bucket
    have hnone : refs s'.vvNew id = 0 := by
      by_contra hpos
      obtain ⟨slot, hslot⟩ := exists_of_refs_pos (Nat.pos_of_ne_zero hpos)
      obtain ⟨_, hp, _, hown⟩ := hs'.slots.newSlot slot (by rw [hslot]; exact hid)
      rw [hslot, places_of_entries he] at hp
      cases hp
      apply hdone slot.1 (mem_finRange _)
      rw [show h.slotIn info.core.toCService slot.1 = slot from hown]
      exact hslot
    have hcount := (hs'.slots.new id _ (places_of_entries he) htried).1
    rw [hnone] at hcount
    exact hcount
  · exact ⟨hs.mono (Set.empty_subset _), hin, fun _ hm => absurd hm not_mem_nil⟩
  · rintro done bucket rest s₁ - ⟨hs₁, ⟨e, he, rfl, htried⟩, hdone⟩
    obtain ⟨info, hinfo, rfl⟩ := lookup_of_entries he
    apply bind_of_eq (infoOf_ok hinfo)
    by_cases hslot : s₁.vvNew (h.slotIn info.toCService bucket) = id
    · rw [if_pos hslot]
      apply ok
      refine ⟨?_, ⟨{ info.core with nRefCount := info.nRefCount - 1 }, ?_, rfl, htried⟩, ?_⟩
      · have := hs₁.takeSlot hinfo htried hslot
        rw [Set.union_self] at this
        exact this
      · show entries (s₁.mapInfo.insert _ _) id = _
        rw [entries_insert, update_self]
        rfl
      · intro bucket' hm
        show update s₁.vvNew _ (-1) _ ≠ id
        by_cases hsame : h.slotIn info.toCService bucket' = h.slotIn info.toCService bucket
        · rw [show h.slotIn info.core.toCService bucket' = _ from hsame, update_self]
          exact Ne.symm hid
        · rw [show h.slotIn info.core.toCService bucket' = h.slotIn info.toCService bucket' from rfl,
            update_of_ne hsame]
          rcases mem_append.mp hm with hm | hm
          · exact hdone bucket' hm
          · exact absurd (congrArg (h.slotIn info.toCService) (mem_singleton.mp hm)) hsame
    · rw [if_neg hslot]
      apply ok
      refine ⟨hs₁, ⟨info.core, he, rfl, htried⟩, ?_⟩
      intro bucket' hm
      rcases mem_append.mp hm with hm | hm
      · exact hdone bucket' hm
      · rw [mem_singleton.mp hm]
        exact hslot

end

theorem evict_spec (hs : Consistent h loose lost s) (slot : TriedBucket × BucketPosition)
    (he : entries s.mapInfo id = some e) (htried : e.fInTried = false) (hrefs : e.nRefCount = 0) :
    Succeeds (s.evict h slot) fun s' => Consistent h loose lost s' ∧ s'.vvTried slot = -1 ∧
      entries s'.mapInfo id = entries s.mapInfo id := by
  unfold evict
  by_cases hslot : s.vvTried slot = -1
  · rw [if_pos hslot]
    exact ok ⟨hs, hslot, rfl⟩
  · rw [if_neg hslot]
    obtain ⟨_, hp, hptried, hown⟩ := hs.slots.triedSlot slot hslot
    obtain ⟨_, he', rfl⟩ := entries_of_places hp
    obtain ⟨infoOld, hinfo, rfl⟩ := lookup_of_entries he'
    have hown : h.triedSlot infoOld.toCService = slot := hown
    have hne : s.vvTried slot ≠ id := by
      intro heq
      rw [← heq, he'] at he
      cases he
      rw [show infoOld.core.fInTried = true from hptried] at htried
      cases htried
    have hzero : infoOld.nRefCount = 0 := (hs.slots.tried _ _ hp hptried).1
    apply bind_of_eq (infoOf_ok hinfo)
    -- out of the tried table
    have hs₁ := hs.leaveTried hinfo hptried
    rw [hown] at hs₁
    have hentries₁ : entries (s.leaveTried (s.vvTried slot) infoOld slot).mapInfo =
        update (entries s.mapInfo) (s.vvTried slot) (some { infoOld.core with fInTried := false }) :=
      entries_insert s.mapInfo _ _
    have hold₁ : entries (s.leaveTried (s.vvTried slot) infoOld slot).mapInfo (s.vvTried slot) =
        some { infoOld.core with fInTried := false } := by
      rw [hentries₁, update_self]
    have hid₁ : entries (s.leaveTried (s.vvTried slot) infoOld slot).mapInfo id = some e := by
      rw [hentries₁, update_of_ne (Ne.symm hne), he]
    -- its slot of the new table holds neither of the two entries
    apply bind (clearNew_spec hs₁ (h.newSlot infoOld.toCService infoOld.source))
    rintro s₂ ⟨hs₂, hc⟩
    have hid₂ : entries s₂.mapInfo id = some e := by
      rw [hc.entries_of_ne (vvNew_ne hs₁ hid₁ (Or.inr hrefs) _), hid₁]
    obtain ⟨_, hinfo₂, -, hs₃⟩ := hc.giveSlot { infoOld with fInTried := false } hs₂
      (vvNew_ne hs₁ hold₁ (Or.inr hzero) _) (AList.lookup_insert s.mapInfo) rfl
      (by show infoOld.nRefCount < _; rw [hzero]; decide)
    obtain ⟨-, m, _, _, n, rfl⟩ := hc
    apply bind_of_eq (assert_ok (update_self ..) _)
    apply bind_of_eq (infoOf_ok hinfo₂)
    -- back into the new table
    rw [hzero, Set.union_sdiff_right] at hs₃
    apply ok
    refine ⟨(hs₃.mono Set.sdiff_subset).recount ?_, ?_, ?_⟩
    · show n + 1 + lost = n + (lost + 1)
      omega
    · exact update_self ..
    · show entries (m.insert _ _) id = _
      rw [entries_insert, update_of_ne (Ne.symm hne), he]
      exact hid₂

theorem makeTried_spec (hs : Consistent h ∅ 0 s) (hin : s.InNew id service) :
    Succeeds (s.makeTried h id) fun s' => Consistent h ∅ 0 s' ∧
      ∃ e, entries s'.mapInfo id = some e ∧ e.toCService = service := by
  apply bind (leaveAll_spec hs hin)
  rintro s₁ ⟨hs₁, info, hinfo, rfl, htried, hrefs⟩
  have hs₁' : Consistent h {id} 1 { s₁ with nNew := s₁.nNew - 1 } := by
    apply hs₁.recount
    omega
  apply bind_of_eq (infoOf_ok hinfo)
  apply bind_of_eq (assert_ok hrefs _)
  apply bind (evict_spec hs₁' (h.triedSlot info.toCService) (entries_of_lookup hinfo) htried hrefs)
  rintro s₂ ⟨hs₂, hempty, hentry⟩
  apply bind_of_eq (assert_ok hempty _)
  rw [entries_of_lookup hinfo] at hentry
  obtain ⟨info₂, hinfo₂, hcore⟩ := lookup_of_entries hentry
  apply bind_of_eq (infoOf_ok hinfo₂)
  obtain ⟨hservice, htried₂, hrefs₂⟩ := CAddrInfo.place_of_core hcore
  rw [← hservice] at hempty ⊢
  have hs₃ := hs₂.enterTried hinfo₂ (htried₂.trans htried) (hrefs₂.trans hrefs) hempty
  rw [Set.sdiff_self] at hs₃
  apply ok
  refine ⟨hs₃, { info₂.core with fInTried := true }, ?_, rfl⟩
  show entries (s₂.mapInfo.insert _ _) id = _
  rw [entries_insert, update_self]
  rfl

end CAddrMan

end Defcoin.Addrman
