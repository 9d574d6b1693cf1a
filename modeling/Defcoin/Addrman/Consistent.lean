import Defcoin.Framework.BackPointers
import Defcoin.Framework.FiniteMap
import Defcoin.Addrman.Slots

/-! # Consistent address managers

  What `Check_` tests: the map of entries, the map of addresses, the random order, both tables and
  both counters tell the same. In the middle of an operation some entries may be without a slot, and
  the counter of the new table may be off by a known number.
-/

namespace Defcoin.Addrman

open Counting BackPointers FiniteMap Function CAddrInfo CAddrMan Option

/-! ### Entries -/

def CAddrInfo.core (info : CAddrInfo) : CAddrInfo := { info with nRandomPos := 0 }

theorem CAddrInfo.place_of_core {info info' : CAddrInfo} (h : info'.core = info.core) :
    info'.toCService = info.toCService ∧ info'.fInTried = info.fInTried ∧ info'.nRefCount = info.nRefCount :=
  ⟨congrArg (·.toCService) h, congrArg (·.fInTried) h, congrArg (·.nRefCount) h⟩

section Entries
variable (m : AList fun _ : Int => CAddrInfo)

def entries (id : Int) : Option CAddrInfo := (m.lookup id).map core

def positions (id : Int) : Option Nat := (m.lookup id).map nRandomPos

def places (id : Int) : Option Place := (entries m id).map place

def addresses (id : Int) : Option CNetAddr := (entries m id).map fun e => e.toCNetAddr

end Entries

section Lookup
variable {m : AList fun _ : Int => CAddrInfo} {p : Place} {e info : CAddrInfo} {id : Int}

theorem entries_of_lookup (h : m.lookup id = some info) : entries m id = some info.core := by
  rw [entries, h]
  rfl

theorem lookup_of_entries (h : entries m id = some e) : ∃ info, m.lookup id = some info ∧ info.core = e :=
  map_eq_some_iff.mp h

theorem positions_of_lookup (h : m.lookup id = some info) : positions m id = some info.nRandomPos := by
  rw [positions, h]
  rfl

theorem places_of_entries (h : entries m id = some e) : places m id = some e.place := by
  rw [places, h]
  rfl

theorem entries_of_places (h : places m id = some p) : ∃ e, entries m id = some e ∧ e.place = p :=
  map_eq_some_iff.mp h

theorem places_of_lookup (h : m.lookup id = some info) : places m id = some info.place := by
  rw [places_of_entries (entries_of_lookup h)]
  rfl

theorem lookup_of_places (h : places m id = some p) : ∃ info, m.lookup id = some info ∧ info.place = p := by
  obtain ⟨_, he, rfl⟩ := entries_of_places h
  obtain ⟨info, hinfo, rfl⟩ := lookup_of_entries he
  exact ⟨info, hinfo, rfl⟩

variable (m) in
theorem entries_insert (id : Int) (info : CAddrInfo) :
    entries (m.insert id info) = update (entries m) id (some info.core) :=
  map_lookup_put core m id (some info)

variable (m) in
theorem entries_erase (id : Int) : entries (m.erase id) = update (entries m) id none :=
  map_lookup_put core m id none

variable (m) in
theorem positions_insert (id : Int) (info : CAddrInfo) :
    positions (m.insert id info) = update (positions m) id (some info.nRandomPos) :=
  map_lookup_put nRandomPos m id (some info)

variable (m) in
theorem positions_erase (id : Int) : positions (m.erase id) = update (positions m) id none :=
  map_lookup_put nRandomPos m id none

theorem places_congr {m' : AList fun _ : Int => CAddrInfo} (h : entries m' = entries m) :
    places m' = places m := by
  funext id
  rw [places, h]
  rfl

theorem places_update {m' : AList fun _ : Int => CAddrInfo} {id : Int} {o : Option CAddrInfo}
    (h : entries m' = update (entries m) id o) : places m' = update (places m) id (o.map place) :=
  (congrArg (Option.map place ∘ ·) h).trans (comp_update ..)

theorem addresses_update {m' : AList fun _ : Int => CAddrInfo} {id : Int} {o : Option CAddrInfo}
    (h : entries m' = update (entries m) id o) :
    addresses m' = update (addresses m) id (o.map fun e => e.toCNetAddr) :=
  (congrArg (Option.map (fun e : CAddrInfo => e.toCNetAddr) ∘ ·) h).trans (comp_update ..)

theorem inverse_addresses {f : CNetAddr → Option Int} : Inverse f (addresses m) ↔
    ∀ a id, f a = some id ↔ ∃ e, entries m id = some e ∧ e.toCNetAddr = a := by
  simp only [Inverse, addresses, map_eq_some_iff]

end Lookup

/-! ### Consistency -/

/-- The entries that `nNew` counts. -/
def CAddrInfo.fInNew (info : CAddrInfo) : Bool := !info.fInTried

/-- The parts of an address manager tell the same; `loose` entries may be without a slot, and `lost`
    entries are not counted in `nNew`. -/
structure Consistent (h : Hashes) (loose : Set Int) (lost : Int) (s : CAddrMan) : Prop where
  nIdCount : 0 ≤ s.nIdCount
  ids : ∀ id e, entries s.mapInfo id = some e → 0 ≤ id ∧ id < s.nIdCount
  addr : ∀ a id, s.mapAddr.lookup a = some id ↔ ∃ e, entries s.mapInfo id = some e ∧ e.toCNetAddr = a
  order : Indexed s.vRandom (positions s.mapInfo)
  slots : Slots h loose (places s.mapInfo) s.vvTried s.vvNew
  nTried : s.nTried = count fInTried s.mapInfo
  nNew : s.nNew + lost = count fInNew s.mapInfo

namespace Consistent
variable {h : Hashes} {loose : Set Int} {lost : Int} {s : CAddrMan}

theorem init (h : Hashes) : Consistent h ∅ 0 new where
  nIdCount := le_refl 0
  ids _ _ he := nomatch he
  addr _ _ := ⟨fun hl => (nomatch hl), fun ⟨_, he, _⟩ => (nomatch he)⟩
  order _ _ := ⟨fun hk => (nomatch hk), fun hp => (nomatch hp)⟩
  slots := Slots.empty h
  nTried := rfl
  nNew := rfl

variable {loose' : Set Int} {id lost' nNew : Int} {info : CAddrInfo}

section
variable (hs : Consistent h loose lost s)
include hs

theorem mono (hsub : loose ⊆ loose') : Consistent h loose' lost s :=
  { hs with slots := hs.slots.mono hsub }

theorem tighten (id : Int) (hid : ∀ e, entries s.mapInfo id = some e → e.fInTried = false → 1 ≤ e.nRefCount) :
    Consistent h (loose \ {id}) lost s := by
  refine { hs with slots := hs.slots.tighten fun p hp htried => ?_ }
  obtain ⟨e, he, rfl⟩ := entries_of_places hp
  exact hid e he htried

theorem recount (hn : nNew + lost' = s.nNew + lost) : Consistent h loose lost' { s with nNew := nNew } :=
  ⟨hs.nIdCount, hs.ids, hs.addr, hs.order, hs.slots, hs.nTried, hn.trans hs.nNew⟩

theorem others (nLastGood : Int) (m_tried_collisions : List Int) :
    Consistent h loose lost { s with nLastGood := nLastGood, m_tried_collisions := m_tried_collisions } :=
  ⟨hs.nIdCount, hs.ids, hs.addr, hs.order, hs.slots, hs.nTried, hs.nNew⟩

theorem entries_neg_one : entries s.mapInfo (-1) = none := by
  by_contra hsome
  obtain ⟨e, he⟩ := ne_none_iff_exists'.mp hsome
  have := hs.ids (-1) e he
  omega

theorem entries_unique {id' : Int} {e e' : CAddrInfo} (he : entries s.mapInfo id = some e)
    (he' : entries s.mapInfo id' = some e') (ha : e.toCNetAddr = e'.toCNetAddr) : id = id' := by
  have h₁ := (hs.addr e.toCNetAddr id).mpr ⟨e, he, rfl⟩
  have h₂ := (hs.addr e.toCNetAddr id').mpr ⟨e', he', ha.symm⟩
  rw [h₁] at h₂
  exact some.inj h₂

/-- **Rewriting** an entry in its place, with what that does to tables and counters. -/
theorem rewrite (hinfo : s.mapInfo.lookup id = some info) (info' : CAddrInfo)
    (haddr : info'.toCNetAddr = info.toCNetAddr) (hpos : info'.nRandomPos = info.nRandomPos)
    {vvTried : TriedBucket × BucketPosition → Int} {vvNew : NewBucket × BucketPosition → Int} {nTried : Int}
    (hslots : Slots h loose' (update (places s.mapInfo) id (some info'.place)) vvTried vvNew)
    (htried : nTried + tally fInTried info = s.nTried + tally fInTried info')
    (hnew : nNew + lost' + tally fInNew info = s.nNew + lost + tally fInNew info') :
    Consistent h loose' lost'
      { s.setInfo id info' with vvTried := vvTried, vvNew := vvNew, nTried := nTried, nNew := nNew } := by
  have hentries := entries_insert s.mapInfo id info'
  have hold := entries_of_lookup hinfo
  constructor
  · exact hs.nIdCount
  · intro id' e he
    rw [setInfo, hentries] at he
    by_cases heq : id' = id
    · subst heq
      exact hs.ids id' _ hold
    · rw [update_of_ne heq] at he
      exact hs.ids id' e he
  · have hsame : addresses (s.mapInfo.insert id info') = addresses s.mapInfo := by
      rw [addresses_update hentries, update_eq_self_iff, addresses, hold]
      exact congrArg some haddr
    rw [← inverse_addresses, setInfo, hsame]
    exact inverse_addresses.mpr hs.addr
  · have hsame : positions (s.setInfo id info').mapInfo = positions s.mapInfo := by
      rw [setInfo, positions_insert, hpos]
      apply update_eq_self_iff.mpr
      rw [positions, hinfo]
      rfl
    rw [hsame]
    exact hs.order
  · rw [setInfo, places_update hentries]
    exact hslots
  · have hcount := count_insert_old (p := fInTried) hinfo info'
    have := hs.nTried
    show nTried = count fInTried (s.mapInfo.insert id info')
    omega
  · have hcount := count_insert_old (p := fInNew) hinfo info'
    have := hs.nNew
    show nNew + lost' = count fInNew (s.mapInfo.insert id info')
    omega

theorem setInfo (hinfo : s.mapInfo.lookup id = some info) (info' : CAddrInfo)
    (hplace : info'.place = info.place) (hpos : info'.nRandomPos = info.nRandomPos) :
    Consistent h loose lost (s.setInfo id info') := by
  have hservice := congrArg Place.service hplace
  have htried : info'.fInTried = info.fInTried := congrArg Place.fInTried hplace
  refine hs.rewrite hinfo info' (congrArg CService.toCNetAddr hservice) hpos ?_ ?_ ?_
  · have hsame : update (places s.mapInfo) id (some info'.place) = places s.mapInfo := by
      apply update_eq_self_iff.mpr
      rw [hplace, places_of_lookup hinfo]
    rw [hsame]
    exact hs.slots
  · rw [tally, tally, htried]
  · rw [tally, tally, fInNew, fInNew, htried]

theorem takeSlot (hinfo : s.mapInfo.lookup id = some info) (htried : info.fInTried = false)
    {slot : NewBucket × BucketPosition} (hslot : s.vvNew slot = id) :
    Consistent h (loose ∪ {id}) lost (s.takeSlot id info slot) := by
  have hplace : places s.mapInfo id = some ⟨info.toCService, false, info.nRefCount⟩ := by
    rw [places_of_lookup hinfo, ← htried]
    rfl
  have hslots := hs.slots.unlink hplace hslot
  rw [← htried] at hslots
  exact hs.rewrite hinfo { info with nRefCount := info.nRefCount - 1 } rfl rfl hslots rfl rfl

theorem giveSlot {n : Int} (hinfo : s.mapInfo.lookup id = some info) (htried : info.fInTried = false)
    (hn : info.nRefCount + 1 = n) (hmax : n ≤ ADDRMAN_NEW_BUCKETS_PER_ADDRESS) (bucket : NewBucket)
    (hempty : s.vvNew (h.slotIn info.toCService bucket) = -1) :
    Consistent h (loose \ {id}) lost (s.giveSlot id info n (h.slotIn info.toCService bucket)) := by
  subst hn
  have hplace : places s.mapInfo id = some ⟨info.toCService, false, info.nRefCount⟩ := by
    rw [places_of_lookup hinfo, ← htried]
    rfl
  have hslots := hs.slots.link hplace hmax hempty
  rw [← htried] at hslots
  exact hs.rewrite hinfo { info with nRefCount := info.nRefCount + 1 } rfl rfl hslots rfl rfl

theorem leaveTried (hinfo : s.mapInfo.lookup id = some info) (htried : info.fInTried = true) :
    Consistent h (loose ∪ {id}) (lost + 1) (s.leaveTried id info (h.triedSlot info.toCService)) := by
  have hplace : places s.mapInfo id = some ⟨info.toCService, true, info.nRefCount⟩ := by
    rw [places_of_lookup hinfo, ← htried]
    rfl
  apply hs.rewrite hinfo { info with fInTried := false } rfl rfl (hs.slots.leaveTried hplace)
  · rw [tally, htried]
    show s.nTried - 1 + 1 = s.nTried + 0
    omega
  · rw [tally, fInNew, htried]
    show s.nNew + (lost + 1) + 0 = s.nNew + lost + 1
    omega

theorem enterTried (hinfo : s.mapInfo.lookup id = some info) (htried : info.fInTried = false)
    (hrefs : info.nRefCount = 0) (hempty : s.vvTried (h.triedSlot info.toCService) = -1) :
    Consistent h (loose \ {id}) (lost - 1) (s.enterTried id info (h.triedSlot info.toCService)) := by
  have hplace : places s.mapInfo id = some ⟨info.toCService, false, 0⟩ := by
    rw [places_of_lookup hinfo, ← htried, ← hrefs]
    rfl
  have hslots := hs.slots.enterTried hplace hempty
  rw [← hrefs] at hslots
  apply hs.rewrite hinfo { info with fInTried := true } rfl rfl hslots
  · rw [tally, htried]
    show s.nTried + 1 + 0 = s.nTried + 1
    omega
  · rw [tally, fInNew, htried]
    show s.nNew + (lost - 1) + 1 = s.nNew + lost + 0
    omega

theorem swap {id₁ id₂ : Int} {info₁ info₂ : CAddrInfo} (hinfo₁ : s.mapInfo.lookup id₁ = some info₁)
    (hinfo₂ : s.mapInfo.lookup id₂ = some info₂) (hne : info₁.nRandomPos ≠ info₂.nRandomPos)
    {m : AList fun _ : Int => CAddrInfo}
    (hm : m = (s.mapInfo.insert id₁ { info₁ with nRandomPos := info₂.nRandomPos }).insert id₂ { info₂ with nRandomPos := info₁.nRandomPos }) :
    entries m = entries s.mapInfo ∧
      positions m = swapPos (positions s.mapInfo) info₁.nRandomPos info₂.nRandomPos id₁ id₂ ∧
      Consistent h loose lost { s with
        mapInfo := m,
        vRandom := BackPointers.swap s.vRandom info₁.nRandomPos info₂.nRandomPos id₁ id₂ } := by
  have hids : id₁ ≠ id₂ := by
    rintro rfl
    rw [hinfo₁] at hinfo₂
    exact hne (congrArg nRandomPos (some.inj hinfo₂))
  have hinfo₂' : (s.mapInfo.insert id₁ { info₁ with nRandomPos := info₂.nRandomPos }).lookup id₂ =
      some info₂ := by
    rw [AList.lookup_insert_ne (Ne.symm hids), hinfo₂]
  -- the rewritten entries differ from the old ones in their positions only
  have hentries : entries m = entries s.mapInfo := by
    have hself₁ : update (entries s.mapInfo) id₁ (some info₁.core) = entries s.mapInfo :=
      update_eq_self_iff.mpr (entries_of_lookup hinfo₁).symm
    have hself₂ : update (entries s.mapInfo) id₂ (some info₂.core) = entries s.mapInfo :=
      update_eq_self_iff.mpr (entries_of_lookup hinfo₂).symm
    rw [hm, entries_insert, entries_insert]
    show update (update (entries s.mapInfo) id₁ (some info₁.core)) id₂ (some info₂.core) = _
    rw [hself₁, hself₂]
  have hcount : ∀ p : CAddrInfo → Bool, (∀ info k, p { info with nRandomPos := k } = p info) →
      count p m = count p s.mapInfo := by
    intro p hp
    rw [hm, count_insert_same hinfo₂' (hp info₂ _), count_insert_same hinfo₁ (hp info₁ _)]
  have hpositions : positions m = swapPos (positions s.mapInfo) info₁.nRandomPos info₂.nRandomPos id₁ id₂ := by
    rw [hm, positions_insert, positions_insert]
    rfl
  refine ⟨hentries, hpositions, ?_⟩
  constructor
  · exact hs.nIdCount
  · intro id e he
    rw [hentries] at he
    exact hs.ids id e he
  · intro a id
    rw [hentries]
    exact hs.addr a id
  · rw [hpositions]
    exact hs.order.swap (positions_of_lookup hinfo₁) (positions_of_lookup hinfo₂) hne
  · rw [places_congr hentries]
    exact hs.slots
  · rw [hcount fInTried fun _ _ => rfl]
    exact hs.nTried
  · rw [hcount fInNew fun _ _ => rfl]
    exact hs.nNew

/-- **Dropping** the last entry of the random order, if it is in no slot. -/
theorem pop (hinfo : s.mapInfo.lookup id = some info) (htried : info.fInTried = false)
    (hrefs : info.nRefCount = 0) (hlast : info.nRandomPos = s.vRandom.length - 1) :
    Consistent h (loose \ {id}) (lost - 1) { s with
      vRandom := s.vRandom.dropLast, mapAddr := s.mapAddr.erase info.toCNetAddr,
      mapInfo := s.mapInfo.erase id } := by
  have hentry := entries_of_lookup hinfo
  constructor
  · exact hs.nIdCount
  · intro id' e he
    rw [entries_erase] at he
    by_cases heq : id' = id
    · subst heq
      rw [update_self] at he
      cases he
    · rw [update_of_ne heq] at he
      exact hs.ids id' e he
  · have hinv := (inverse_addresses.mpr hs.addr).erase ((hs.addr _ id).mpr ⟨_, hentry, rfl⟩)
    rw [← lookup_put] at hinv
    rw [← inverse_addresses, addresses_update (entries_erase s.mapInfo id)]
    exact hinv
  · rw [positions_erase]
    apply hs.order.pop
    rw [positions_of_lookup hinfo, hlast]
  · rw [places_update (entries_erase s.mapInfo id)]
    have hplace : places s.mapInfo id = some ⟨info.toCService, false, 0⟩ := by
      rw [places_of_lookup hinfo, ← htried, ← hrefs]
      rfl
    exact hs.slots.drop hplace
  · have hcount := count_erase (p := fInTried) hinfo
    rw [tally, htried] at hcount
    rw [hs.nTried, hcount]
    rfl
  · have hcount := count_erase (p := fInNew) hinfo
    rw [tally, fInNew, htried] at hcount
    have := hs.nNew
    show s.nNew + (lost - 1) = count _ (s.mapInfo.erase id)
    simp only [Bool.not_false, if_true] at hcount
    omega

/-- **Making** an entry; the counter of the new table does not know it yet. -/
theorem create (addr : CAddress) (source : CNetAddr) (hnew : s.mapAddr.lookup addr.toCNetAddr = none) :
    Consistent h (loose ∪ {s.nIdCount}) (lost + 1) (s.create addr source).2 := by
  -- the id is new
  have hlookup : s.mapInfo.lookup s.nIdCount = none := by
    by_contra hsome
    obtain ⟨_, hinfo⟩ := ne_none_iff_exists'.mp hsome
    have := hs.ids s.nIdCount _ (entries_of_lookup hinfo)
    omega
  have hentry : entries s.mapInfo s.nIdCount = none := by
    rw [entries, hlookup]
    rfl
  have hentries := entries_insert s.mapInfo s.nIdCount
    { ofAddress addr source with nRandomPos := s.vRandom.length }
  have hnonneg := hs.nIdCount
  constructor
  · show 0 ≤ s.nIdCount + 1
    omega
  · intro id e he
    show 0 ≤ id ∧ id < s.nIdCount + 1
    rw [show entries (s.create addr source).2.mapInfo = _ from hentries] at he
    by_cases heq : id = s.nIdCount
    · omega
    · rw [update_of_ne heq] at he
      have := hs.ids id e he
      omega
  · have hinv := (inverse_addresses.mpr hs.addr).insert hnew (by rw [addresses, hentry]; rfl)
    rw [← lookup_put] at hinv
    rw [← inverse_addresses, show addresses (s.create addr source).2.mapInfo = _ from addresses_update hentries]
    exact hinv
  · show Indexed (s.vRandom ++ [s.nIdCount]) (positions (s.mapInfo.insert _ _))
    rw [positions_insert]
    apply hs.order.push
    rw [positions, hlookup]
    rfl
  · rw [show places (s.create addr source).2.mapInfo = _ from places_update hentries]
    apply hs.slots.create (by omega)
    rw [places, hentry]
    rfl
  · show s.nTried = count _ (s.mapInfo.insert _ _)
    rw [count_insert_new hlookup, hs.nTried]
    rfl
  · show s.nNew + (lost + 1) = count _ (s.mapInfo.insert _ _)
    rw [count_insert_new hlookup, Int.natCast_add, ← hs.nNew, ← Int.add_assoc]
    rfl

end

end Consistent

end Defcoin.Addrman
