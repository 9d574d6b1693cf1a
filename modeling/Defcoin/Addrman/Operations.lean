import Defcoin.Addrman.Primitives

/-! # What the operations do

  Each public operation succeeds from a consistent state and leaves a consistent one, with one
  exception: `SelectTriedCollision_` makes an entry for the id -1 when the tried slot of a waiting
  entry is empty.
-/

namespace Defcoin.Addrman

open Outcome Counting BackPointers Succeeds AList Set Option Function

namespace CAddrMan
variable {h : Hashes} {loose : Set Int} {lost : Int} {s : CAddrMan}

/-! ### Known addresses -/

def Knows (s : CAddrMan) (a : CNetAddr) : Prop :=
  ∃ id info, s.mapInfo.lookup id = some info ∧ info.toCNetAddr = a

/-- There is an entry for the service in the tried table. -/
def InTried (s : CAddrMan) (service : CService) : Prop :=
  ∃ id info, s.mapInfo.lookup id = some info ∧ info.fInTried = true ∧ info.toCService = service

theorem knows_iff {a : CNetAddr} :
    s.Knows a ↔ ∃ id p, places s.mapInfo id = some p ∧ p.service.toCNetAddr = a := by
  constructor
  · rintro ⟨id, info, hinfo, rfl⟩
    exact ⟨id, info.place, places_of_lookup hinfo, rfl⟩
  · rintro ⟨id, p, hp, rfl⟩
    obtain ⟨info, hinfo, rfl⟩ := lookup_of_places hp
    exact ⟨id, info, hinfo, rfl⟩

theorem inTried_iff {service : CService} :
    s.InTried service ↔ ∃ id p, places s.mapInfo id = some p ∧ p.fInTried = true ∧ p.service = service := by
  constructor
  · rintro ⟨id, info, hinfo, htried, rfl⟩
    exact ⟨id, info.place, places_of_lookup hinfo, htried, rfl⟩
  · rintro ⟨id, p, hp, htried, rfl⟩
    obtain ⟨info, hinfo, rfl⟩ := lookup_of_places hp
    exact ⟨id, info, hinfo, htried, rfl⟩

theorem find_eq_some (hs : Consistent h loose lost s) {a : CNetAddr} {id : Int} {info : CAddrInfo}
    (hf : s.find a = some (id, info)) : s.mapInfo.lookup id = some info ∧ info.toCNetAddr = a := by
  obtain ⟨_, haddr, hrest⟩ := bind_eq_some_iff.mp hf
  obtain ⟨_, hinfo, heq⟩ := map_eq_some_iff.mp hrest
  cases heq
  refine ⟨hinfo, ?_⟩
  obtain ⟨_, he, ha⟩ := (hs.addr a id).mp haddr
  rw [entries_of_lookup hinfo] at he
  cases he
  exact ha

theorem find_eq_none (hs : Consistent h loose lost s) {a : CNetAddr} (hf : s.find a = none) :
    s.mapAddr.lookup a = none ∧ ¬s.Knows a := by
  have haddr : s.mapAddr.lookup a = none := by
    by_contra hsome
    obtain ⟨id, hid⟩ := ne_none_iff_exists'.mp hsome
    obtain ⟨_, he, _⟩ := (hs.addr a id).mp hid
    obtain ⟨info, hinfo, _⟩ := lookup_of_entries he
    rw [find, hid, bind_some, hinfo] at hf
    cases hf
  refine ⟨haddr, ?_⟩
  rintro ⟨id, info, hinfo, ha⟩
  rw [(hs.addr a id).mpr ⟨info.core, entries_of_lookup hinfo, ha⟩] at haddr
  cases haddr

/-! ### Erosion -/

/-- Entries of the new table may have lost or won references, or be gone; nothing else changed. -/
def Eroded (s s' : CAddrMan) : Prop :=
  ∀ id, places s'.mapInfo id = places s.mapInfo id ∨
    ∃ p, places s.mapInfo id = some p ∧ p.fInTried = false ∧
      (places s'.mapInfo id = none ∨ ∃ n, places s'.mapInfo id = some { p with nRefCount := n })

namespace Eroded
variable {s' s'' : CAddrMan}

theorem refl (s : CAddrMan) : Eroded s s := fun _ => .inl rfl

theorem trans (h₁ : Eroded s s') (h₂ : Eroded s' s'') : Eroded s s'' := by
  intro id
  rcases h₂ id with h₂ | ⟨p', hp', htried', h₂⟩
  · rw [h₂]
    exact h₁ id
  · rcases h₁ id with h₁ | ⟨p, hp, htried, hnone | ⟨_, hn⟩⟩
    · rw [h₁] at hp'
      exact .inr ⟨p', hp', htried', h₂⟩
    · rw [hnone] at hp'
      cases hp'
    · rw [hn] at hp'
      cases hp'
      exact .inr ⟨p, hp, htried, h₂⟩

theorem update {id : Int} {e : CAddrInfo} {o : Option CAddrInfo} (he : entries s.mapInfo id = some e)
    (htried : e.fInTried = false) (ho : ∀ e', o = some e' → ∃ n, e'.place = { e.place with nRefCount := n })
    (hs' : entries s'.mapInfo = update (entries s.mapInfo) id o) : Eroded s s' := by
  intro id'
  rw [places_update hs']
  by_cases heq : id' = id
  · subst heq
    refine .inr ⟨e.place, places_of_entries he, htried, ?_⟩
    rw [update_self]
    rcases o with - | e'
    · exact .inl rfl
    · obtain ⟨n, hn⟩ := ho e' rfl
      exact .inr ⟨n, congrArg some hn⟩
  · rw [update_of_ne heq]
    exact .inl rfl

theorem old (hr : Eroded s s') {id : Int} {p' : Place} (hp' : places s'.mapInfo id = some p') :
    ∃ p, places s.mapInfo id = some p ∧ p'.service = p.service := by
  rcases hr id with heq | ⟨p, hp, _, hnone | ⟨_, hn⟩⟩
  · exact ⟨p', heq.symm.trans hp', rfl⟩
  · rw [hnone] at hp'
    cases hp'
  · rw [hn] at hp'
    cases hp'
    exact ⟨p, hp, rfl⟩

theorem inTried (hr : Eroded s s') (service : CService) : s'.InTried service ↔ s.InTried service := by
  rw [inTried_iff, inTried_iff]
  constructor
  · rintro ⟨id, p', hp', htried', hservice⟩
    rcases hr id with heq | ⟨p, hp, htried, hnone | ⟨_, hn⟩⟩
    · rw [heq] at hp'
      exact ⟨id, p', hp', htried', hservice⟩
    · rw [hnone] at hp'
      cases hp'
    · rw [hn] at hp'
      cases hp'
      rw [show p.fInTried = true from htried'] at htried
      cases htried
  · rintro ⟨id, p, hp, htried, hservice⟩
    rcases hr id with heq | ⟨p', hp', htried', _⟩
    · exact ⟨id, p, heq.trans hp, htried, hservice⟩
    · rw [hp] at hp'
      cases hp'
      rw [htried] at htried'
      cases htried'

end Eroded

variable {s' : CAddrMan} {id : Int} {info info' : CAddrInfo}

theorem Cleared.eroded (hs : Consistent h loose lost s) {slot : NewBucket × BucketPosition}
    (hc : s.Cleared slot s') : Eroded s s' := by
  by_cases hslot : s.vvNew slot = -1
  · have hnone := hs.entries_neg_one
    intro id
    rw [places_update hc.1, hslot]
    refine .inl (congrFun (update_eq_self_iff.mpr ?_) id)
    rw [places, hnone]
    rfl
  · obtain ⟨_, hinfo, htried, _⟩ := occupant hs hslot
    refine Eroded.update (entries_of_lookup hinfo) htried ?_ hc.1
    intro e' he'
    rw [entries_of_lookup hinfo] at he'
    obtain ⟨_, he, hdrop⟩ := bind_eq_some_iff.mp he'
    cases he
    split at hdrop
    case isTrue => cases hdrop
    case isFalse =>
      cases hdrop
      exact ⟨_, rfl⟩

/-! ### `Add_` -/

/-- An entry without references can take the slot. -/
def Yields (s : CAddrMan) (slot : NewBucket × BucketPosition) (nNow : Int) : Prop :=
  s.vvNew slot = -1 ∨ ∃ info, s.mapInfo.lookup (s.vvNew slot) = some info ∧
    (info.isTerrible nNow = true ∨ info.nRefCount > 1)

theorem mayInsert_spec (hs : Consistent h loose lost s) (nRefCount : Int) (slot : NewBucket × BucketPosition)
    (nNow : Int) : ∃ fInsert, s.mayInsert nRefCount slot nNow = (fInsert, s) ∧
      (nRefCount = 0 → (fInsert = true ↔ s.Yields slot nNow)) := by
  unfold mayInsert
  by_cases hslot : s.vvNew slot = -1
  · rw [if_pos hslot]
    exact ⟨true, rfl, fun _ => iff_of_true rfl (.inl hslot)⟩
  · rw [if_neg hslot]
    obtain ⟨info, hinfo, _, _⟩ := occupant hs hslot
    simp only [infoAt_of_lookup hinfo]
    refine ⟨_, rfl, ?_⟩
    rintro rfl
    simp only [BEq.rfl, Bool.and_true, Bool.or_eq_true, decide_eq_true_eq]
    constructor
    · intro hmay
      exact .inr ⟨info, hinfo, hmay⟩
    · rintro (hempty | ⟨info', hinfo', hmay⟩)
      · exact absurd hempty hslot
      · rw [hinfo] at hinfo'
        cases hinfo'
        exact hmay

theorem placeNew_spec (hs : Consistent h {id} 0 s) (hinfo : s.mapInfo.lookup id = some info)
    (htried : info.fInTried = false) (hmax : info.nRefCount < ADDRMAN_NEW_BUCKETS_PER_ADDRESS)
    (bucket : NewBucket) (nNow : Int) :
    Succeeds (s.placeNew id (h.slotIn info.toCService bucket) nNow) fun s' =>
      Consistent h ∅ 0 s' ∧ Eroded s s' ∧ ((∃ p, places s'.mapInfo id = some p) ↔
        1 ≤ info.nRefCount ∨ s.Yields (h.slotIn info.toCService bucket) nNow) := by
  have hpresent := places_of_lookup hinfo
  have hnonneg : 0 ≤ info.nRefCount := by
    have : info.nRefCount = (refs s.vvNew id : Int) := (hs.slots.new id _ hpresent htried).1
    omega
  -- an entry with a slot is not loose
  have htight : 1 ≤ info.nRefCount → Consistent h ∅ 0 s := by
    intro hpos
    have hs' := hs.tighten id fun e he _ => by
      rw [entries_of_lookup hinfo] at he
      cases he
      exact hpos
    rw [sdiff_self] at hs'
    exact hs'
  unfold placeNew
  by_cases hown : s.vvNew (h.slotIn info.toCService bucket) = id
  · rw [if_pos hown]
    obtain ⟨_, hinfo', _, hpos⟩ := occupant hs (by
      rw [hown]
      exact hs.slots.ids id _ hpresent)
    rw [hown, hinfo] at hinfo'
    cases hinfo'
    exact ok ⟨htight hpos, Eroded.refl s, iff_of_true ⟨_, hpresent⟩ (.inl hpos)⟩
  · rw [if_neg hown]
    apply bind_of_eq (infoOf_ok hinfo)
    obtain ⟨fInsert, hmay, hyields⟩ := mayInsert_spec hs info.nRefCount (h.slotIn info.toCService bucket) nNow
    simp only [hmay]
    rcases fInsert with - | -
    · by_cases hzero : info.nRefCount = 0
      · rw [if_pos hzero]
        apply mono (delete_spec hs (entries_of_lookup hinfo) htried hzero)
        intro s' hs'
        obtain ⟨hs', hentries, _⟩ := hs'
        rw [sdiff_self] at hs'
        refine ⟨hs', ?_, iff_of_false ?_ ?_⟩
        · apply Eroded.update (entries_of_lookup hinfo) htried _ hentries
          intro e' he'
          cases he'
        · rw [places_update hentries, update_self]
          intro hsome
          obtain ⟨p, hp⟩ := hsome
          cases hp
        · intro hcond
          rcases hcond with hpos | hy
          · omega
          · exact Bool.false_ne_true ((hyields hzero).mpr hy)
      · rw [if_neg hzero]
        have hpos : 1 ≤ info.nRefCount := by omega
        exact ok ⟨htight hpos, Eroded.refl s, iff_of_true ⟨_, hpresent⟩ (.inl hpos)⟩
    · apply bind (clearNew_spec hs _)
      intro s₁ hs₁
      obtain ⟨hs₁, hc⟩ := hs₁
      have heroded := hc.eroded hs
      obtain ⟨info₁, hinfo₁, hcore, hs₂⟩ := hc.giveSlot info hs₁ hown hinfo htried hmax
      obtain ⟨-, m, a, _, _, rfl⟩ := hc
      apply bind_of_eq (infoOf_ok hinfo₁)
      obtain ⟨-, htried₁, hrefs₁⟩ := CAddrInfo.place_of_core hcore
      rw [← hrefs₁, sdiff_self] at hs₂
      have hentries₂ := entries_insert m id { info₁ with nRefCount := info₁.nRefCount + 1 }
      apply ok
      refine ⟨hs₂, heroded.trans (Eroded.update (entries_of_lookup hinfo₁) (htried₁.trans htried) ?_ hentries₂), ?_⟩
      · intro e' he'
        cases he'
        exact ⟨_, rfl⟩
      · apply iff_of_true
        · exact ⟨_, places_of_lookup (lookup_insert _)⟩
        · by_cases hzero : info.nRefCount = 0
          · exact .inr ((hyields hzero).mp rfl)
          · exact .inl (by omega)

theorem mayAddSlot_true {addr : CAddress} {nRnd : Nat} (hmay : mayAddSlot addr nRnd info = true) :
    info.fInTried = false ∧ info.nRefCount ≠ ADDRMAN_NEW_BUCKETS_PER_ADDRESS := by
  unfold mayAddSlot at hmay
  split at hmay
  · cases hmay
  · split at hmay
    · cases hmay
    · split at hmay
      · cases hmay
      · exact ⟨by simpa using ‹¬info.fInTried = true›, ‹_›⟩

theorem eroded_setInfo (hinfo : s.mapInfo.lookup id = some info) (hplace : info'.place = info.place) :
    Eroded s (s.setInfo id info') := by
  intro id'
  rw [setInfo, places_update (entries_insert s.mapInfo id info')]
  refine .inl (congrFun (update_eq_self_iff.mpr ?_) id')
  rw [places_of_lookup hinfo]
  exact congrArg some hplace

theorem addFound_spec (hs : Consistent h ∅ 0 s) (hinfo : s.mapInfo.lookup id = some info) (addr : CAddress)
    (source : CNetAddr) (nTimePenalty : Int) (d : AddDraws) :
    Succeeds (s.addFound h id info addr source nTimePenalty d) fun s' =>
      Consistent h ∅ 0 s' ∧ Eroded s s' ∧ s'.Knows info.toCNetAddr := by
  -- the entry is updated in its place
  generalize hup : updateFound addr nTimePenalty d.nNow info = info'
  have hplace : info'.place = info.place := by rw [← hup]; rfl
  have hpos : info'.nRandomPos = info.nRandomPos := by
    rw [← hup]
    rfl
  have hs₁ := hs.setInfo hinfo info' hplace hpos
  have heroded := eroded_setInfo hinfo hplace
  have hinfo₁ : (s.setInfo id info').mapInfo.lookup id = some info' := lookup_insert _
  have haddr := congrArg (fun p => p.service.toCNetAddr) hplace
  unfold addFound
  rw [hup]
  by_cases hmay : mayAddSlot addr d.nRnd info' = true
  · obtain ⟨htried, hmax⟩ := mayAddSlot_true hmay
    obtain ⟨_, hle, hloose⟩ := hs₁.slots.new id _ (places_of_lookup hinfo₁) htried
    have hle : info'.nRefCount ≤ ADDRMAN_NEW_BUCKETS_PER_ADDRESS := hle
    have hpos : 1 ≤ info'.nRefCount := by
      rcases hloose with hloose | hpos
      · exact absurd hloose (notMem_empty id)
      · exact hpos
    simp only [hmay]
    apply mono (placeNew_spec (hs₁.mono (empty_subset {id})) hinfo₁ htried (by omega)
      (h.getNewBucket info'.toCNetAddr source) d.nNowTerrible)
    intro s₂ hs₂
    obtain ⟨hs₂, heroded₂, hkept⟩ := hs₂
    refine ⟨hs₂, heroded.trans heroded₂, ?_⟩
    obtain ⟨p, hp⟩ := hkept.mpr (.inl hpos)
    rw [knows_iff]
    refine ⟨id, p, hp, ?_⟩
    obtain ⟨_, hp₁, hservice⟩ := heroded₂.old hp
    rw [places_of_lookup hinfo₁] at hp₁
    cases hp₁
    rw [hservice]
    exact haddr
  · rw [if_pos hmay]
    exact ok ⟨hs₁, heroded, id, info', hinfo₁, haddr⟩

theorem places_created (s : CAddrMan) (addr : CAddress) (source : CNetAddr)
    (hplace : info'.place = ⟨addr.toCService, false, 0⟩) :
    places ((s.create addr source).2.setInfo s.nIdCount info').mapInfo =
      update (places s.mapInfo) s.nIdCount (some ⟨addr.toCService, false, 0⟩) := by
  have hcreate := places_update (entries_insert s.mapInfo s.nIdCount
    { CAddrInfo.ofAddress addr source with nRandomPos := s.vRandom.length })
  have hset := places_update (entries_insert (s.create addr source).2.mapInfo s.nIdCount info')
  rw [setInfo, hset, show places (s.create addr source).2.mapInfo = _ from hcreate, update_idem]
  exact congrArg (update (places s.mapInfo) s.nIdCount) (congrArg some hplace)

theorem created_spec (hs : Consistent h ∅ 0 s) (addr : CAddress) (source : CNetAddr)
    (hf : s.find addr.toCNetAddr = none) (update : CAddrInfo → CAddrInfo)
    (hplace : ∀ info, (update info).place = info.place)
    (hpos : ∀ info, (update info).nRandomPos = info.nRandomPos) :
    ∃ info s', (s.create addr source).2.mapInfo.lookup s.nIdCount = some info ∧
      s' = { (s.create addr source).2.setInfo s.nIdCount (update info) with nNew := s.nNew + 1 } ∧
      Consistent h {s.nIdCount} 0 s' ∧ s'.mapInfo.lookup s.nIdCount = some (update info) ∧
      (update info).place = ⟨addr.toCService, false, 0⟩ ∧
      places s'.mapInfo = Function.update (places s.mapInfo) s.nIdCount (some ⟨addr.toCService, false, 0⟩) := by
  have hs₁ := hs.create addr source (find_eq_none hs hf).1
  have hinfo : (s.create addr source).2.mapInfo.lookup s.nIdCount =
      some { CAddrInfo.ofAddress addr source with nRandomPos := s.vRandom.length } := lookup_insert _
  have hs₂ := hs₁.setInfo hinfo _ (hplace _) (hpos _)
  rw [empty_union] at hs₂
  refine ⟨_, _, hinfo, rfl, hs₂.recount ?_, lookup_insert _, hplace _, ?_⟩
  · show s.nNew + 1 + 0 = s.nNew + (0 + 1)
    omega
  · exact places_created s addr source (hplace _)

theorem inTried_of_created {service : CService} (hnone : places s.mapInfo id = none)
    (hplaces : places s'.mapInfo = update (places s.mapInfo) id (some ⟨service, false, 0⟩))
    (service' : CService) : s'.InTried service' ↔ s.InTried service' := by
  rw [inTried_iff, inTried_iff, hplaces]
  constructor
  · rintro ⟨id', p, hp, htried, hservice⟩
    by_cases heq : id' = id
    · subst heq
      rw [update_self] at hp
      cases hp
      cases htried
    · rw [update_of_ne heq] at hp
      exact ⟨id', p, hp, htried, hservice⟩
  · rintro ⟨id', p, hp, htried, hservice⟩
    refine ⟨id', p, ?_, htried, hservice⟩
    rw [update_of_ne, hp]
    rintro rfl
    rw [hnone] at hp
    cases hp

theorem places_nIdCount (hs : Consistent h loose lost s) : places s.mapInfo s.nIdCount = none := by
  by_contra hsome
  obtain ⟨_, hp⟩ := ne_none_iff_exists'.mp hsome
  obtain ⟨e, he, _⟩ := entries_of_places hp
  have := hs.ids s.nIdCount e he
  omega

section
variable (hs : Consistent h ∅ 0 s)
include hs

theorem addCreated_spec (addr : CAddress) (source : CNetAddr) (hf : s.find addr.toCNetAddr = none)
    (nTimePenalty : Int) (d : AddDraws) :
    Succeeds (s.addCreated h addr source nTimePenalty d) fun s' =>
      Consistent h ∅ 0 s' ∧ (∀ service, s'.InTried service ↔ s.InTried service) ∧
        (s'.Knows addr.toCNetAddr ↔ s.Yields (h.newSlot addr.toCService source) d.nNowTerrible) := by
  have hfresh := places_nIdCount hs
  obtain ⟨info, s₁, hcreated, hs₁eq, hs₁, hinfo₁, hplace, hplaces₁⟩ := created_spec hs addr source hf
    (fun info => { info with nTime := toUint32 (max 0 (info.nTime - nTimePenalty)) })
    (fun _ => rfl) (fun _ => rfl)
  generalize hinfo' : { info with nTime := toUint32 (max 0 (info.nTime - nTimePenalty)) } = info'
    at hs₁eq hinfo₁ hplace
  have hservice : info'.toCService = addr.toCService := congrArg Place.service hplace
  have htried := congrArg Place.fInTried hplace
  have hrefs : info'.nRefCount = 0 := congrArg Place.nRefCount hplace
  have hbody : s.addCreated h addr source nTimePenalty d =
      s₁.placeNew s.nIdCount (h.newSlot addr.toCService source) d.nNowTerrible := by
    unfold addCreated
    simp only [show (s.create addr source).1 = s.nIdCount from rfl, infoOf_ok hcreated]
    rw [hs₁eq, ← hinfo']
    rfl
  -- the slot is held by an old entry or by none
  have hyields : s₁.Yields (h.newSlot addr.toCService source) d.nNowTerrible ↔
      s.Yields (h.newSlot addr.toCService source) d.nNowTerrible := by
    have hheld : s.vvNew (h.newSlot addr.toCService source) ≠ s.nIdCount :=
      hs.slots.not_in_new (by have := hs.nIdCount; omega) (by
        intro p hp
        rw [hfresh] at hp
        cases hp) _
    have hlookup : s₁.mapInfo.lookup (s.vvNew (h.newSlot addr.toCService source)) =
        s.mapInfo.lookup (s.vvNew (h.newSlot addr.toCService source)) := by
      rw [hs₁eq]
      exact (lookup_insert_ne hheld).trans (lookup_insert_ne hheld)
    have hvvNew : s₁.vvNew = s.vvNew := by
      rw [hs₁eq]
      rfl
    unfold Yields
    rw [hvvNew, hlookup]
  have hplaceNew := placeNew_spec hs₁ hinfo₁ htried (by rw [hrefs]; decide)
    (h.getNewBucket addr.toCNetAddr source) d.nNowTerrible
  rw [hservice] at hplaceNew
  rw [hbody]
  apply mono hplaceNew
  intro s₂ hs₂
  obtain ⟨hs₂, heroded, hkept⟩ := hs₂
  refine ⟨hs₂, ?_, ?_⟩
  · intro service
    rw [heroded.inTried, inTried_of_created hfresh hplaces₁]
  · rw [← hyields]
    constructor
    · intro hknows
      -- no other entry has the address
      obtain ⟨id, p, hp, ha⟩ := knows_iff.mp hknows
      obtain ⟨p₁, hp₁, hsame⟩ := heroded.old hp
      have hid : id = s.nIdCount := by
        by_contra hne
        rw [hplaces₁, Function.update_of_ne hne] at hp₁
        rw [hsame] at ha
        exact (find_eq_none hs hf).2 (knows_iff.mpr ⟨id, p₁, hp₁, ha⟩)
      rw [hid] at hp
      rcases hkept.mp ⟨p, hp⟩ with hpos | hy
      · omega
      · exact hy
    · intro hy
      obtain ⟨p, hp⟩ := hkept.mpr (.inr hy)
      obtain ⟨p₁, hp₁, hsame⟩ := heroded.old hp
      rw [hplaces₁, Function.update_self] at hp₁
      cases hp₁
      exact knows_iff.mpr ⟨s.nIdCount, p, hp, congrArg CService.toCNetAddr hsame⟩

/-- **`Add_`**: no entry of the tried table is touched, and an unknown address is known afterwards
    exactly if it is routable and its slot can be taken. -/
theorem add_spec (addr : CAddress) (source : CNetAddr) (nTimePenalty : Int) (d : AddDraws) :
    Succeeds (s.add_ h addr source nTimePenalty d) fun r =>
      Consistent h ∅ 0 r.2 ∧ (∀ service, r.2.InTried service ↔ s.InTried service) ∧
        (r.2.Knows addr.toCNetAddr ↔ s.Knows addr.toCNetAddr ∨ h.isRoutable addr.toCNetAddr = true ∧
            s.Yields (h.newSlot addr.toCService source) d.nNowTerrible) := by
  unfold add_
  by_cases hroutable : h.isRoutable addr.toCNetAddr = true
  · simp only [hroutable, true_and]
    rcases hf : s.find addr.toCNetAddr with - | ⟨id, info⟩
    · have hunknown := (find_eq_none hs hf).2
      apply map (addCreated_spec hs addr source hf _ d)
      intro s' hs'
      obtain ⟨hs', htried, hknows⟩ := hs'
      refine ⟨hs', htried, ?_⟩
      rw [hknows, or_iff_right hunknown]
    · obtain ⟨hinfo, haddr⟩ := find_eq_some hs hf
      apply map (addFound_spec hs hinfo addr source _ d)
      intro s' hs'
      obtain ⟨hs', heroded, hknows⟩ := hs'
      rw [haddr] at hknows
      exact ⟨hs', heroded.inTried, iff_of_true hknows (.inl ⟨id, info, hinfo, haddr⟩)⟩
  · rw [if_pos hroutable]
    refine ok ⟨hs, fun _ => Iff.rfl, ?_⟩
    constructor
    · intro hknows
      exact .inl hknows
    · intro hcond
      rcases hcond with hknows | ⟨hr, _⟩
      · exact hknows
      · exact absurd hr hroutable

/-! ### `Good_` and `AddAndMarkGood_` -/

theorem promote_spec (hinfo : s.mapInfo.lookup id = some info) (test_before_evict : Bool) (nRnd : NewBucket) :
    Succeeds (s.promote h id info test_before_evict nRnd) fun s' =>
      Consistent h ∅ 0 s' ∧ s'.Knows info.toCNetAddr := by
  have hknows : s.Knows info.toCNetAddr := ⟨id, info, hinfo, rfl⟩
  unfold promote
  by_cases htried : info.fInTried = true
  · rw [if_pos htried]
    exact ok ⟨hs, hknows⟩
  · rw [if_neg htried]
    split
    case isTrue => exact ok ⟨hs, hknows⟩
    case isFalse =>
      split
      case isTrue =>
        -- the entry waits
        unfold addCollision
        split
        · exact ok ⟨hs.others _ _, hknows⟩
        · exact ok ⟨hs, hknows⟩
      case isFalse =>
        have hin : s.InNew id info.toCService :=
          ⟨info.core, entries_of_lookup hinfo, rfl, Bool.eq_false_iff.mpr htried⟩
        apply mono (makeTried_spec hs hin)
        intro s' hs'
        obtain ⟨hs', e, he, hservice⟩ := hs'
        refine ⟨hs', knows_iff.mpr ⟨id, e.place, places_of_entries he, ?_⟩⟩
        exact congrArg CService.toCNetAddr hservice

theorem good_spec (addr : CService) (test_before_evict : Bool) (nTime : Int) (nRnd : NewBucket) :
    Succeeds (s.good_ h addr test_before_evict nTime nRnd) fun s' =>
      Consistent h ∅ 0 s' ∧ (s.Knows addr.toCNetAddr → s'.Knows addr.toCNetAddr) := by
  have hs₀ := hs.others nTime s.m_tried_collisions
  unfold good_
  simp only
  rcases hf : find { s with nLastGood := nTime } addr.toCNetAddr with - | found
  · exact ok ⟨hs₀, fun hknows => hknows⟩
  · obtain ⟨id, info⟩ := found
    obtain ⟨hinfo, haddr⟩ := find_eq_some hs₀ hf
    simp only
    by_cases hexact : info.toCService ≠ addr
    · rw [if_pos hexact]
      exact ok ⟨hs₀, fun hknows => hknows⟩
    · rw [if_neg hexact]
      have hs₁ : Consistent h ∅ 0 (setInfo { s with nLastGood := nTime } id (markGood nTime info)) :=
        hs₀.setInfo hinfo _ rfl rfl
      apply mono (promote_spec hs₁ (lookup_insert _) test_before_evict nRnd)
      intro s' hs'
      obtain ⟨hs', hknows⟩ := hs'
      rw [← haddr]
      exact ⟨hs', fun _ => hknows⟩

theorem findOrCreate_spec (addr : CAddress) (nNow : Int) :
    ∃ id s' info, s.findOrCreate addr nNow = (id, s') ∧ Consistent h {id} 0 s' ∧
      s'.mapInfo.lookup id = some info ∧ info.toCNetAddr = addr.toCNetAddr := by
  unfold findOrCreate
  rcases hf : s.find addr.toCNetAddr with - | found
  · obtain ⟨info, s₁, hcreated, hs₁eq, hs₁, hinfo₁, hplace, _⟩ := created_spec hs addr addr.toCNetAddr hf
      (fun info => { info with
        nTime := if addr.nTime ≠ 0 then addr.nTime else toUint32 nNow, nServices := addr.nServices })
      (fun _ => rfl) (fun _ => rfl)
    refine ⟨s.nIdCount, s₁, _, ?_, hs₁, hinfo₁, ?_⟩
    · simp only [show (s.create addr addr.toCNetAddr).1 = s.nIdCount from rfl, infoAt_of_lookup hcreated]
      rw [hs₁eq]
      rfl
    · exact congrArg (fun p => p.service.toCNetAddr) hplace
  · obtain ⟨id, info⟩ := found
    obtain ⟨hinfo, haddr⟩ := find_eq_some hs hf
    refine ⟨id, _, _, rfl, ?_, lookup_insert _, haddr⟩
    apply Consistent.mono _ (empty_subset {id})
    exact hs.setInfo hinfo _ rfl rfl

end

theorem ensureSlot_spec (hs : Consistent h {id} 0 s) (hinfo : s.mapInfo.lookup id = some info) (a : CNetAddr) :
    Succeeds (s.ensureSlot h id a) fun s' => Consistent h ∅ 0 s' ∧ s'.Knows info.toCNetAddr := by
  apply bind_of_eq (infoOf_ok hinfo)
  by_cases hbare : info.fInTried = false ∧ info.nRefCount = 0
  · obtain ⟨htried, hrefs⟩ := hbare
    rw [if_pos ⟨htried, hrefs⟩]
    apply bind (clearNew_spec hs _)
    intro s₁ hs₁
    obtain ⟨hs₁, hc⟩ := hs₁
    obtain ⟨_, hinfo₁, hcore, hs₂⟩ := hc.giveSlot info hs₁
      (vvNew_ne hs (entries_of_lookup hinfo) (.inr hrefs) _) hinfo htried (by rw [hrefs]; decide)
    apply bind_of_eq (infoOf_ok hinfo₁)
    rw [hrefs, sdiff_self] at hs₂
    refine ok ⟨hs₂, id, _, lookup_insert _, ?_⟩
    exact congrArg (fun e => e.toCNetAddr) hcore
  · rw [if_neg hbare]
    have hs' := hs.tighten id fun e he htried => by
      rw [entries_of_lookup hinfo] at he
      cases he
      have hcount : info.nRefCount = (refs s.vvNew id : Int) :=
        (hs.slots.new id _ (places_of_lookup hinfo) htried).1
      have hne : info.nRefCount ≠ 0 := fun hzero => hbare ⟨htried, hzero⟩
      show 1 ≤ info.nRefCount
      omega
    rw [sdiff_self] at hs'
    exact ok ⟨hs', id, info, hinfo, rfl⟩

theorem addAndMarkGood_spec (hs : Consistent h ∅ 0 s) (addr : CAddress) (d : GoodDraws) :
    Succeeds (s.addAndMarkGood_ h addr d) fun r => Consistent h ∅ 0 r.2 ∧
      (r.2.Knows addr.toCNetAddr ↔ s.Knows addr.toCNetAddr ∨ h.isRoutable addr.toCNetAddr = true) := by
  unfold addAndMarkGood_
  by_cases hroutable : h.isRoutable addr.toCNetAddr = true
  · obtain ⟨_, _, _, hfind, hs₁, hinfo, haddr⟩ := findOrCreate_spec hs addr d.nNow
    simp only [hroutable, hfind]
    apply bind (ensureSlot_spec hs₁ hinfo addr.toCNetAddr)
    intro s₂ hs₂
    obtain ⟨hs₂, hknows₂⟩ := hs₂
    apply bind (good_spec hs₂ addr.toCService false d.nNowGood d.nRnd)
    intro s₃ hs₃
    obtain ⟨hs₃, hknows₃⟩ := hs₃
    rw [haddr] at hknows₂
    exact ok ⟨hs₃, iff_of_true (hknows₃ hknows₂) (.inr trivial)⟩
  · rw [if_pos hroutable]
    refine ok ⟨hs, ?_⟩
    rw [or_iff_left hroutable]

end CAddrMan

end Defcoin.Addrman
