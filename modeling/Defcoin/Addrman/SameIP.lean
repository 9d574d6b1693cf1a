import Defcoin.Addrman.Operations

/-! # Replacing an entry with the same address

  `AddReplacingSameIP` and `AddAndMarkGoodReplacingSameIP` first remove an entry with the address of
  the new one and another port. Whether the new entry is then kept is decided as for any other, so
  the host can be forgotten: this module says exactly when.
-/

namespace Defcoin.Addrman

open Outcome Function Succeeds

namespace CAddrMan
variable {h : Hashes} {s : CAddrMan}

/-- An entry with the address and another port is there, and will be removed. -/
def Replaces (s : CAddrMan) (addr : CAddress) : Prop :=
  ∃ id info, s.mapInfo.lookup id = some info ∧ info.toCNetAddr = addr.toCNetAddr ∧ info.port ≠ addr.port

def HeldBy (s : CAddrMan) (slot : NewBucket × BucketPosition) (a : CNetAddr) : Prop :=
  ∃ info, s.mapInfo.lookup (s.vvNew slot) = some info ∧ info.toCNetAddr = a

/-- The slot of a new entry can be taken, perhaps because the entry to be removed holds it. -/
def HasRoom (h : Hashes) (s : CAddrMan) (addr : CAddress) (source : CNetAddr) (nNow : Int) : Prop :=
  s.Yields (h.newSlot addr.toCService source) nNow ∨
    s.HeldBy (h.newSlot addr.toCService source) addr.toCNetAddr

/-! ### Removing -/

theorem yields_iff {slot : NewBucket × BucketPosition} {nNow : Int} :
    s.Yields slot nNow ↔ s.vvNew slot = -1 ∨ ∃ e, entries s.mapInfo (s.vvNew slot) = some e ∧
      (e.isTerrible nNow = true ∨ e.nRefCount > 1) := by
  constructor
  · intro hy
    rcases hy with hempty | ⟨info, hinfo, hcond⟩
    · exact .inl hempty
    · exact .inr ⟨info.core, entries_of_lookup hinfo, hcond⟩
  · intro hy
    rcases hy with hempty | ⟨e, he, hcond⟩
    · exact .inl hempty
    · obtain ⟨info, hinfo, rfl⟩ := lookup_of_entries he
      exact .inr ⟨info, hinfo, hcond⟩

namespace Removed
variable {id : Int} {s' : CAddrMan}

theorem yields (hr : s.Removed id s') (slot : NewBucket × BucketPosition) (nNow : Int) :
    s'.Yields slot nNow ↔ s.Yields slot nNow ∨ s.vvNew slot = id := by
  rw [yields_iff, yields_iff, hr.vvNew, hr.entries]
  by_cases hheld : s.vvNew slot = id
  · rw [if_pos hheld]
    exact iff_of_true (.inl rfl) (.inr hheld)
  · rw [if_neg hheld, update_of_ne hheld, or_iff_left hheld]

theorem exists_places (hr : s.Removed id s') {P : Place → Prop} :
    (∃ id' p, places s'.mapInfo id' = some p ∧ P p) ↔
      ∃ id' p, id' ≠ id ∧ places s.mapInfo id' = some p ∧ P p := by
  rw [places_update hr.entries]
  constructor
  · intro h
    obtain ⟨id', p, hp, hP⟩ := h
    by_cases heq : id' = id
    · rw [heq, update_self] at hp
      cases hp
    · rw [update_of_ne heq] at hp
      exact ⟨id', p, heq, hp, hP⟩
  · intro h
    obtain ⟨id', p, hne, hp, hP⟩ := h
    exact ⟨id', p, by rw [update_of_ne hne, hp], hP⟩

theorem knows (hr : s.Removed id s') (a : CNetAddr) :
    s'.Knows a ↔ ∃ id' p, id' ≠ id ∧ places s.mapInfo id' = some p ∧ p.service.toCNetAddr = a := by
  rw [knows_iff, hr.exists_places]

theorem inTried (hr : s.Removed id s') (service : CService) :
    s'.InTried service ↔ ∃ id' p, id' ≠ id ∧ places s.mapInfo id' = some p ∧ p.fInTried = true ∧
      p.service = service := by
  rw [inTried_iff, hr.exists_places]

end Removed

theorem lookup_unique {loose : Set Int} {lost : Int} (hs : Consistent h loose lost s) {id id' : Int}
    {info info' : CAddrInfo} (hinfo : s.mapInfo.lookup id = some info)
    (hinfo' : s.mapInfo.lookup id' = some info') (ha : info.toCNetAddr = info'.toCNetAddr) :
    id = id' ∧ info = info' := by
  obtain rfl := hs.entries_unique (entries_of_lookup hinfo) (entries_of_lookup hinfo') ha
  exact ⟨rfl, Option.some.inj (hinfo.symm.trans hinfo')⟩

structure SameIPRemoved (s : CAddrMan) (addr : CAddress) (s' : CAddrMan) : Prop where
  knows : s'.Knows addr.toCNetAddr ↔ s.Knows addr.toCNetAddr ∧ ¬s.Replaces addr
  inTried : ∀ service, s'.InTried service ↔
    s.InTried service ∧ (service.toCNetAddr = addr.toCNetAddr → service.port = addr.port)
  yields : s.Replaces addr → ∀ slot nNow, s'.Yields slot nNow ↔
    s.Yields slot nNow ∨ s.HeldBy slot addr.toCNetAddr

theorem sameIPRemoved_refl {addr : CAddress}
    (hport : ∀ id info, s.mapInfo.lookup id = some info → info.toCNetAddr = addr.toCNetAddr →
      info.port = addr.port) : s.SameIPRemoved addr s := by
  have hnot : ¬s.Replaces addr := by
    intro hrep
    obtain ⟨id, info, hinfo, ha, hne⟩ := hrep
    exact hne (hport id info hinfo ha)
  constructor
  · exact (and_iff_left hnot).symm
  · intro service
    refine (and_iff_left_of_imp ?_).symm
    intro hin ha
    obtain ⟨id, info, hinfo, _, rfl⟩ := hin
    exact hport id info hinfo ha
  · intro hrep
    exact absurd hrep hnot

section
variable (hs : Consistent h ∅ 0 s)
include hs

theorem Removed.sameIP {addr : CAddress} {id : Int} {info : CAddrInfo} {s' : CAddrMan}
    (hinfo : s.mapInfo.lookup id = some info) (ha : info.toCNetAddr = addr.toCNetAddr)
    (hport : info.port ≠ addr.port) (hr : s.Removed id s') : s.SameIPRemoved addr s' := by
  have hrep : s.Replaces addr := ⟨id, info, hinfo, ha, hport⟩
  -- any entry with the address is the one that is removed
  have hunique : ∀ id' info', s.mapInfo.lookup id' = some info' → info'.toCNetAddr = addr.toCNetAddr →
      id = id' ∧ info = info' :=
    fun id' info' hinfo' ha' => lookup_unique hs hinfo hinfo' (ha.trans ha'.symm)
  constructor
  · rw [hr.knows]
    refine iff_of_false ?_ fun hk => hk.2 hrep
    intro hknows
    obtain ⟨id', p, hne, hp, ha'⟩ := hknows
    obtain ⟨info', hinfo', rfl⟩ := lookup_of_places hp
    exact hne (hunique id' info' hinfo' ha').1.symm
  · intro service
    rw [hr.inTried]
    constructor
    · intro hin
      obtain ⟨id', p, hne, hp, htried, rfl⟩ := hin
      obtain ⟨info', hinfo', rfl⟩ := lookup_of_places hp
      refine ⟨⟨id', info', hinfo', htried, rfl⟩, fun ha' => ?_⟩
      exact absurd (hunique id' info' hinfo' ha').1.symm hne
    · intro hin
      obtain ⟨⟨id', info', hinfo', htried, rfl⟩, hsame⟩ := hin
      refine ⟨id', info'.place, ?_, places_of_lookup hinfo', htried, rfl⟩
      rintro rfl
      rw [hinfo] at hinfo'
      cases hinfo'
      exact hport (hsame ha)
  · intro _ slot nNow
    rw [hr.yields]
    have hheld : s.vvNew slot = id ↔ s.HeldBy slot addr.toCNetAddr := by
      constructor
      · intro heq
        exact ⟨info, by rw [heq]; exact hinfo, ha⟩
      · intro hb
        obtain ⟨info', hinfo', ha'⟩ := hb
        exact (hunique _ info' hinfo' ha').1.symm
    rw [hheld]

theorem removeSameIP_spec (addr : CAddress) :
    Succeeds (s.removeSameIP h addr) fun s' => Consistent h ∅ 0 s' ∧ s.SameIPRemoved addr s' := by
  unfold removeSameIP
  rcases hf : s.find addr.toCNetAddr with - | found
  · refine ok ⟨hs, sameIPRemoved_refl fun id info hinfo ha => ?_⟩
    exact absurd ⟨id, info, hinfo, ha⟩ (find_eq_none hs hf).2
  · obtain ⟨id, info⟩ := found
    obtain ⟨hinfo, ha⟩ := find_eq_some hs hf
    simp only
    by_cases hport : info.port ≠ addr.port
    · rw [if_pos hport]
      apply map (remove_spec hs (entries_of_lookup hinfo))
      intro r hr
      exact ⟨hr.1, hr.2.sameIP hs hinfo ha hport⟩
    · rw [if_neg hport]
      refine ok ⟨hs, sameIPRemoved_refl fun id' info' hinfo' ha' => ?_⟩
      obtain ⟨-, rfl⟩ := lookup_unique hs hinfo hinfo' (ha.trans ha'.symm)
      exact not_not.mp hport

/-! ### The two operations -/

theorem addReplacingSameIP_spec (addr : CAddress) (source : CNetAddr) (nTimePenalty : Int) (d : AddDraws) :
    Succeeds (s.addReplacingSameIP h addr source nTimePenalty d) fun r => Consistent h ∅ 0 r.2 ∧
      (∀ service, r.2.InTried service ↔
        s.InTried service ∧ (service.toCNetAddr = addr.toCNetAddr → service.port = addr.port)) ∧
      (s.Knows addr.toCNetAddr → (r.2.Knows addr.toCNetAddr ↔ ¬s.Replaces addr ∨
        h.isRoutable addr.toCNetAddr = true ∧ s.HasRoom h addr source d.nNowTerrible)) := by
  apply bind (removeSameIP_spec hs addr)
  intro s₁ hs₁
  obtain ⟨hs₁, hrem⟩ := hs₁
  apply mono (add_spec hs₁ addr source nTimePenalty d)
  intro r hr
  obtain ⟨hr, htried, hknows⟩ := hr
  refine ⟨hr, ?_, ?_⟩
  · intro service
    rw [htried, hrem.inTried]
  · intro hknown
    rw [hknows, hrem.knows]
    by_cases hrep : s.Replaces addr
    · have hold : ¬(s.Knows addr.toCNetAddr ∧ ¬s.Replaces addr) := fun hk => hk.2 hrep
      rw [or_iff_right hold, or_iff_right (not_not.mpr hrep), hrem.yields hrep]
      rfl
    · exact iff_of_true (.inl ⟨hknown, hrep⟩) (.inl hrep)

theorem addAndMarkGoodReplacingSameIP_spec (addr : CAddress) (d : GoodDraws) :
    Succeeds (s.addAndMarkGoodReplacingSameIP h addr d) fun r => Consistent h ∅ 0 r.2 ∧
      (s.Knows addr.toCNetAddr → (r.2.Knows addr.toCNetAddr ↔
        ¬s.Replaces addr ∨ h.isRoutable addr.toCNetAddr = true)) := by
  apply bind (removeSameIP_spec hs addr)
  intro s₁ hs₁
  obtain ⟨hs₁, hrem⟩ := hs₁
  apply mono (addAndMarkGood_spec hs₁ addr d)
  intro r hr
  obtain ⟨hr, hknows⟩ := hr
  refine ⟨hr, fun hknown => ?_⟩
  rw [hknows, hrem.knows, and_iff_right hknown]

end

/-! ### A host that is forgotten -/

def firstTried : TriedBucket × BucketPosition := (⟨0, by decide⟩, ⟨0, by decide⟩)

def firstNew : NewBucket × BucketPosition := (⟨0, by decide⟩, ⟨0, by decide⟩)

/-- Every address belongs into the first slot. -/
def oneSlot : Hashes where
  getTriedBucket _ := firstTried.1
  getNewBucket _ _ := firstNew.1
  getBucketPosition _ _ _ := firstNew.2
  isRoutable _ := true
  isValid _ := true

def hostA : CNetAddr := { m_net := 1, m_addr := [8, 8, 113, 5] }

def hostB : CNetAddr := { m_net := 1, m_addr := [9, 9, 100, 7] }

def peer (host : CNetAddr) (port : Nat) : CAddress :=
  { host with port := port, nTime := 1700000000, nServices := 1 }

/-- The entry that is made for a peer as number `n`. -/
def peerInfo (host : CNetAddr) (port n : Nat) : CAddrInfo :=
  { CAddrInfo.ofAddress (peer host port) host with nRandomPos := n }

def triedHost : CAddrMan :=
  (CAddrMan.new.create (peer hostA 1337) hostA).2.enterTried 0 (peerInfo hostA 1337 0) firstTried

def triedAndNewHost : CAddrMan :=
  { (triedHost.create (peer hostB 1337) hostB).2.giveSlot 1 (peerInfo hostB 1337 1) 1 firstNew with nNew := 1 }

theorem consistent_triedHost : Consistent oneSlot ∅ 0 triedHost := by
  have hmade := (Consistent.init oneSlot).create (peer hostA 1337) hostA rfl
  have hinfo : (CAddrMan.new.create (peer hostA 1337) hostA).2.mapInfo.lookup 0 =
      some (peerInfo hostA 1337 0) := AList.lookup_insert _
  have htried := hmade.enterTried hinfo rfl rfl rfl
  refine htried.mono ?_
  rw [show CAddrMan.new.nIdCount = 0 from rfl, Set.union_sdiff_right]
  exact Set.sdiff_subset

theorem consistent_triedAndNewHost : Consistent oneSlot ∅ 0 triedAndNewHost := by
  have hmade := consistent_triedHost.create (peer hostB 1337) hostB rfl
  have hinfo : (triedHost.create (peer hostB 1337) hostB).2.mapInfo.lookup 1 =
      some (peerInfo hostB 1337 1) := AList.lookup_insert _
  have hslot := hmade.giveSlot hinfo rfl rfl (by decide) firstNew.1 rfl
  rw [show triedHost.nIdCount = 1 from rfl, Set.union_sdiff_right] at hslot
  exact (hslot.mono Set.sdiff_subset).recount rfl

/-- **A known host stays known** through a replacement exactly if nothing is replaced, or the new
    entry is kept: its address is routable and, for `AddReplacingSameIP`, its slot can be taken. -/
theorem replacement_keeps_host_iff (h : Hashes) (s : CAddrMan) (hs : Consistent h ∅ 0 s) (addr : CAddress)
    (hknown : s.Knows addr.toCNetAddr) :
    (∀ source nTimePenalty d, Succeeds (s.addReplacingSameIP h addr source nTimePenalty d) fun r =>
      (r.2.Knows addr.toCNetAddr ↔ ¬s.Replaces addr ∨
        h.isRoutable addr.toCNetAddr = true ∧ s.HasRoom h addr source d.nNowTerrible)) ∧
    ∀ d, Succeeds (s.addAndMarkGoodReplacingSameIP h addr d) fun r =>
      (r.2.Knows addr.toCNetAddr ↔ ¬s.Replaces addr ∨ h.isRoutable addr.toCNetAddr = true) := by
  constructor
  · intro source nTimePenalty d
    apply mono (addReplacingSameIP_spec hs addr source nTimePenalty d)
    intro r hr
    exact hr.2.2 hknown
  · intro d
    apply mono (addAndMarkGoodReplacingSameIP_spec hs addr d)
    intro r hr
    exact hr.2 hknown

/-- The host in the tried table is offered with its other port: its entry is removed, and the new
    one finds the slot taken. -/
theorem replacement_forgets_host : Consistent oneSlot ∅ 0 triedAndNewHost ∧ triedAndNewHost.Knows hostA ∧
    Succeeds (triedAndNewHost.addReplacingSameIP oneSlot (peer hostA 10332) hostA 0
      ⟨1700000000, 1700000000, 0⟩) fun r => ¬r.2.Knows hostA := by
  have hknown : triedAndNewHost.Knows hostA :=
    ⟨0, { peerInfo hostA 1337 0 with fInTried := true }, by decide, rfl⟩
  have hreplaces : triedAndNewHost.Replaces (peer hostA 10332) :=
    ⟨0, { peerInfo hostA 1337 0 with fInTried := true }, by decide, rfl, by decide⟩
  refine ⟨consistent_triedAndNewHost, hknown, ?_⟩
  apply mono (addReplacingSameIP_spec consistent_triedAndNewHost (peer hostA 10332) hostA 0 _)
  intro r hr hstill
  rcases (hr.2.2 hknown).mp hstill with hnot | ⟨-, hroom⟩
  · exact hnot hreplaces
  · rcases hroom with (hempty | ⟨info, hinfo, hcond⟩) | ⟨info, hinfo, haddr⟩
    · exact absurd hempty (by decide)
    · cases hinfo
      exact absurd hcond (by decide)
    · cases hinfo
      exact absurd haddr (by decide)

/-- The same host, after a handshake on its other port. -/
theorem replacement_keeps_host_iff_markedGood : Consistent oneSlot ∅ 0 triedAndNewHost ∧
    triedAndNewHost.Knows hostA ∧
    ∀ d, Succeeds (triedAndNewHost.addAndMarkGoodReplacingSameIP oneSlot (peer hostA 10332) d) fun r =>
      r.2.Knows hostA := by
  have hknown : triedAndNewHost.Knows hostA :=
    ⟨0, { peerInfo hostA 1337 0 with fInTried := true }, by decide, rfl⟩
  refine ⟨consistent_triedAndNewHost, hknown, fun d => ?_⟩
  apply mono ((replacement_keeps_host_iff oneSlot triedAndNewHost consistent_triedAndNewHost
    (peer hostA 10332) hknown).2 d)
  intro r hr
  exact hr.mpr (.inr rfl)

end CAddrMan

end Defcoin.Addrman
