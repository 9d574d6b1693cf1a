import Defcoin.Framework.Counting
import Defcoin.Addrman.Model

/-! # Entries and their slots

  What the tables have to do with the entries. An entry is in the tried table, in its own slot and
  without references, or it is in the new table, in as many slots as its reference count says and in
  each bucket at its own position.
-/

namespace Defcoin.Addrman

open Counting Function

/-! ### Consistency -/

structure Place where
  service : CService
  fInTried : Bool
  nRefCount : Int

def CAddrInfo.place (info : CAddrInfo) : Place :=
  { service := info.toCService, fInTried := info.fInTried, nRefCount := info.nRefCount }

/-- Entries and slots tell the same; `loose` entries may be without a slot. -/
structure Slots (h : Hashes) (loose : Set Int) (place : Int → Option Place)
    (vvTried : TriedBucket × BucketPosition → Int) (vvNew : NewBucket × BucketPosition → Int) : Prop where
  ids : ∀ id p, place id = some p → id ≠ -1
  tried : ∀ id p, place id = some p → p.fInTried = true →
    p.nRefCount = 0 ∧ vvTried (h.triedSlot p.service) = id
  triedSlot : ∀ slot, vvTried slot ≠ -1 →
    ∃ p, place (vvTried slot) = some p ∧ p.fInTried = true ∧ h.triedSlot p.service = slot
  new : ∀ id p, place id = some p → p.fInTried = false →
    p.nRefCount = refs vvNew id ∧ p.nRefCount ≤ ADDRMAN_NEW_BUCKETS_PER_ADDRESS ∧
      (id ∈ loose ∨ 1 ≤ p.nRefCount)
  newSlot : ∀ slot, vvNew slot ≠ -1 →
    ∃ p, place (vvNew slot) = some p ∧ p.fInTried = false ∧ h.slotIn p.service slot.1 = slot

namespace Slots
variable {h : Hashes} {loose : Set Int} {place : Int → Option Place}
  {vvTried : TriedBucket × BucketPosition → Int} {vvNew : NewBucket × BucketPosition → Int}

theorem empty (h : Hashes) : Slots h ∅ (fun _ => none) (fun _ => -1) (fun _ => -1) where
  ids _ _ hp := nomatch hp
  tried _ _ hp := nomatch hp
  triedSlot _ hslot := absurd rfl hslot
  new _ _ hp := nomatch hp
  newSlot _ hslot := absurd rfl hslot

variable {loose' : Set Int} {id : Int}

section
variable (hs : Slots h loose place vvTried vvNew)
include hs

theorem mono (hsub : loose ⊆ loose') : Slots h loose' place vvTried vvNew where
  ids := hs.ids
  tried := hs.tried
  triedSlot := hs.triedSlot
  new id p hp htried :=
    let ⟨hcount, hmax, hloose⟩ := hs.new id p hp htried
    ⟨hcount, hmax, hloose.imp_left fun hl => hsub hl⟩
  newSlot := hs.newSlot

theorem tighten (hid : ∀ p, place id = some p → p.fInTried = false → 1 ≤ p.nRefCount) :
    Slots h (loose \ {id}) place vvTried vvNew where
  ids := hs.ids
  tried := hs.tried
  triedSlot := hs.triedSlot
  new id' p hp htried := by
    obtain ⟨hcount, hmax, hloose⟩ := hs.new id' p hp htried
    refine ⟨hcount, hmax, ?_⟩
    by_cases heq : id' = id
    · subst heq
      exact .inr (hid p hp htried)
    · exact hloose.imp_left fun hl => ⟨hl, heq⟩
  newSlot := hs.newSlot

theorem not_in_new (hid : id ≠ -1) (hnone : ∀ p, place id = some p → p.fInTried = true)
    (slot : NewBucket × BucketPosition) : vvNew slot ≠ id := by
  intro hslot
  obtain ⟨p, hp, htried, _⟩ := hs.newSlot slot (by rw [hslot]; exact hid)
  rw [hslot] at hp
  rw [hnone p hp] at htried
  cases htried

theorem refs_eq_zero (hid : id ≠ -1) (hnone : ∀ p, place id = some p → p.fInTried = true) :
    refs vvNew id = 0 := by
  by_contra hpos
  obtain ⟨slot, hslot⟩ := exists_of_refs_pos (Nat.pos_of_ne_zero hpos)
  exact hs.not_in_new hid hnone slot hslot

theorem not_in_tried (hid : id ≠ -1) (hnone : ∀ p, place id = some p → p.fInTried = false)
    (slot : TriedBucket × BucketPosition) : vvTried slot ≠ id := by
  intro hslot
  obtain ⟨p, hp, htried, _⟩ := hs.triedSlot slot (by rw [hslot]; exact hid)
  rw [hslot] at hp
  rw [hnone p hp] at htried
  cases htried

/-- **Moves** change one entry, and the tables only where they hold its id. -/
theorem replace {o : Option Place} {vvTried' : TriedBucket × BucketPosition → Int}
    {vvNew' : NewBucket × BucketPosition → Int} (hid : id ≠ -1)
    (hloose : ∀ id' ∈ loose, id' ≠ id → id' ∈ loose')
    (htried : ∀ id', id' ≠ -1 → id' ≠ id → ∀ slot, vvTried' slot = id' ↔ vvTried slot = id')
    (hnew : ∀ id', id' ≠ -1 → id' ≠ id → ∀ slot, vvNew' slot = id' ↔ vvNew slot = id')
    (hown : ∀ p, o = some p → p.fInTried = true → p.nRefCount = 0 ∧ vvTried' (h.triedSlot p.service) = id)
    (hownSlot : ∀ slot, vvTried' slot = id → ∃ p, o = some p ∧ p.fInTried = true ∧ h.triedSlot p.service = slot)
    (hownNew : ∀ p, o = some p → p.fInTried = false → p.nRefCount = refs vvNew' id ∧ p.nRefCount ≤ ADDRMAN_NEW_BUCKETS_PER_ADDRESS ∧ (id ∈ loose' ∨ 1 ≤ p.nRefCount))
    (hownNewSlot : ∀ slot, vvNew' slot = id → ∃ p, o = some p ∧ p.fInTried = false ∧ h.slotIn p.service slot.1 = slot) :
    Slots h loose' (update place id o) vvTried' vvNew' := by
  -- an entry is the changed one, or it is as it was
  have hcases : ∀ id' p, update place id o id' = some p → (id' = id ∧ o = some p) ∨ (id' ≠ id ∧ place id' = some p) := by
    intro id' p hp
    by_cases heq : id' = id
    · rw [heq, update_self] at hp
      exact .inl ⟨heq, hp⟩
    · rw [update_of_ne heq] at hp
      exact .inr ⟨heq, hp⟩
  constructor
  · intro id' p hp
    rcases hcases id' p hp with ⟨rfl, -⟩ | ⟨-, hp⟩
    · exact hid
    · exact hs.ids id' p hp
  · intro id' p hp hin
    rcases hcases id' p hp with ⟨rfl, ho⟩ | ⟨hne, hp⟩
    · exact hown p ho hin
    · obtain ⟨hcount, hslot⟩ := hs.tried id' p hp hin
      exact ⟨hcount, (htried id' (hs.ids id' p hp) hne _).mpr hslot⟩
  · intro slot hslot
    by_cases heq : vvTried' slot = id
    · rw [heq, update_self]
      exact hownSlot slot heq
    · have hsame := (htried _ hslot heq slot).mp rfl
      rw [update_of_ne heq, ← hsame]
      exact hs.triedSlot slot (hsame ▸ hslot)
  · intro id' p hp hin
    rcases hcases id' p hp with ⟨rfl, ho⟩ | ⟨hne, hp⟩
    · exact hownNew p ho hin
    · obtain ⟨hcount, hmax, hl⟩ := hs.new id' p hp hin
      rw [refs_congr (hnew id' (hs.ids id' p hp) hne)]
      exact ⟨hcount, hmax, hl.imp_left fun hl => hloose id' hl hne⟩
  · intro slot hslot
    by_cases heq : vvNew' slot = id
    · rw [heq, update_self]
      exact hownNewSlot slot heq
    · have hsame := (hnew _ hslot heq slot).mp rfl
      rw [update_of_ne heq, ← hsame]
      exact hs.newSlot slot (hsame ▸ hslot)

theorem create (hid : id ≠ -1) (hnone : place id = none) (service : CService) :
    Slots h (loose ∪ {id}) (update place id (some ⟨service, false, 0⟩)) vvTried vvNew := by
  have habsent : ∀ {b} p, place id = some p → p.fInTried = b := by simp [hnone]
  apply hs.replace hid (fun _ hl _ => .inl hl) (fun _ _ _ _ => Iff.rfl) (fun _ _ _ _ => Iff.rfl)
  · rintro p ⟨⟩ ⟨⟩
  · exact fun slot hslot => absurd hslot (hs.not_in_tried hid habsent slot)
  · rintro p ⟨⟩ -
    exact ⟨by rw [hs.refs_eq_zero hid habsent]; rfl, (by decide : 0 ≤ ADDRMAN_NEW_BUCKETS_PER_ADDRESS),
      .inl (.inr rfl)⟩
  · exact fun slot hslot => absurd hslot (hs.not_in_new hid habsent slot)

end

section Moves
variable {id : Int} {service : CService} {n : Int}

section
variable (hs : Slots h loose place vvTried vvNew)
include hs

theorem not_tried_of_new (hp : place id = some ⟨service, false, n⟩) (slot : TriedBucket × BucketPosition) :
    vvTried slot ≠ id := by
  apply hs.not_in_tried (hs.ids id _ hp)
  rw [hp]
  rintro p ⟨⟩
  rfl

theorem slotIn_of_new (hp : place id = some ⟨service, false, n⟩) {slot : NewBucket × BucketPosition}
    (hslot : vvNew slot = id) : h.slotIn service slot.1 = slot := by
  obtain ⟨p, hp', -, hpos⟩ := hs.newSlot slot (hslot ▸ hs.ids id _ hp)
  rw [hslot, hp] at hp'
  cases hp'
  exact hpos

theorem drop (hp : place id = some ⟨service, false, 0⟩) :
    Slots h (loose \ {id}) (update place id none) vvTried vvNew := by
  have hrefs : refs vvNew id = 0 := Int.ofNat.inj (hs.new id _ hp rfl).1.symm
  apply hs.replace (hs.ids id _ hp) (fun _ hl hne => Set.mem_sdiff_singleton.mpr ⟨hl, hne⟩)
    (fun _ _ _ _ => Iff.rfl) (fun _ _ _ _ => Iff.rfl)
  · rintro p ⟨⟩
  · exact fun slot hslot => absurd hslot (hs.not_tried_of_new hp slot)
  · rintro p ⟨⟩
  · intro slot hslot
    have := refs_pos hslot
    omega

theorem link (hp : place id = some ⟨service, false, n⟩) (hn : n < ADDRMAN_NEW_BUCKETS_PER_ADDRESS)
    {bucket : NewBucket} (hempty : vvNew (h.slotIn service bucket) = -1) :
    Slots h (loose \ {id}) (update place id (some ⟨service, false, n + 1⟩)) vvTried
      (update vvNew (h.slotIn service bucket) id) := by
  have hid := hs.ids id _ hp
  have hcount : n = (refs vvNew id : Int) := (hs.new id _ hp rfl).1
  have hrefs := refs_update vvNew (h.slotIn service bucket) id id
  rw [hempty, if_neg hid.symm, if_pos rfl] at hrefs
  apply hs.replace hid (fun _ hl hne => Set.mem_sdiff_singleton.mpr ⟨hl, hne⟩) (fun _ _ _ _ => Iff.rfl)
    (fun id' hid' hne => update_eq_iff (hempty ▸ hid'.symm) hne.symm)
  · rintro p ⟨⟩ ⟨⟩
  · exact fun slot hslot => absurd hslot (hs.not_tried_of_new hp slot)
  · rintro p ⟨⟩ -
    refine ⟨?_, hn, .inr ?_⟩
    · show n + 1 = _
      omega
    · show 1 ≤ n + 1
      omega
  · intro slot hslot
    refine ⟨_, rfl, rfl, ?_⟩
    by_cases hown : slot = h.slotIn service bucket
    · rw [hown]
      rfl
    · rw [update_of_ne hown] at hslot
      exact hs.slotIn_of_new hp hslot

theorem unlink (hp : place id = some ⟨service, false, n⟩) {slot : NewBucket × BucketPosition}
    (hslot : vvNew slot = id) :
    Slots h (loose ∪ {id}) (update place id (some ⟨service, false, n - 1⟩)) vvTried
      (update vvNew slot (-1)) := by
  have hid := hs.ids id _ hp
  obtain ⟨hcount, hmax, -⟩ := hs.new id _ hp rfl
  have hrefs := refs_update vvNew slot (-1) id
  rw [hslot, if_pos rfl, if_neg hid.symm] at hrefs
  apply hs.replace hid (fun _ hl _ => .inl hl) (fun _ _ _ _ => Iff.rfl)
    (fun id' hid' hne => update_eq_iff (hslot ▸ hne.symm) hid'.symm)
  · rintro p ⟨⟩ ⟨⟩
  · exact fun slot hslot => absurd hslot (hs.not_tried_of_new hp slot)
  · rintro p ⟨⟩ -
    have hcount' : n = (refs vvNew id : Int) := hcount
    refine ⟨?_, ?_, .inl (.inr rfl)⟩
    · show n - 1 = _
      omega
    · show n - 1 ≤ _
      omega
  · intro slot' hslot'
    refine ⟨_, rfl, rfl, ?_⟩
    by_cases hsame : slot' = slot
    · rw [hsame, update_self] at hslot'
      exact absurd hslot'.symm hid
    · rw [update_of_ne hsame] at hslot'
      exact hs.slotIn_of_new hp hslot'

theorem enterTried (hp : place id = some ⟨service, false, 0⟩) (hempty : vvTried (h.triedSlot service) = -1) :
    Slots h (loose \ {id}) (update place id (some ⟨service, true, 0⟩))
      (update vvTried (h.triedSlot service) id) vvNew := by
  have hrefs : refs vvNew id = 0 := Int.ofNat.inj (hs.new id _ hp rfl).1.symm
  apply hs.replace (hs.ids id _ hp) (fun _ hl hne => Set.mem_sdiff_singleton.mpr ⟨hl, hne⟩)
    (fun id' hid' hne => update_eq_iff (hempty ▸ hid'.symm) hne.symm) (fun _ _ _ _ => Iff.rfl)
  · rintro p ⟨⟩ -
    exact ⟨rfl, update_self ..⟩
  · intro slot hslot
    by_cases hown : slot = h.triedSlot service
    · exact ⟨_, rfl, rfl, hown.symm⟩
    · rw [update_of_ne hown] at hslot
      exact absurd hslot (hs.not_tried_of_new hp slot)
  · rintro p ⟨⟩ ⟨⟩
  · intro slot hslot
    have := refs_pos hslot
    omega

theorem leaveTried (hp : place id = some ⟨service, true, n⟩) :
    Slots h (loose ∪ {id}) (update place id (some ⟨service, false, n⟩))
      (update vvTried (h.triedSlot service) (-1)) vvNew := by
  have hid := hs.ids id _ hp
  obtain ⟨hzero, hown⟩ := hs.tried id _ hp rfl
  obtain rfl : n = 0 := hzero
  have htried : ∀ p, place id = some p → p.fInTried = true := by
    rw [hp]
    rintro p ⟨⟩
    rfl
  apply hs.replace hid (fun _ hl _ => .inl hl)
    (fun id' hid' hne => update_eq_iff (hown ▸ hne.symm) hid'.symm) (fun _ _ _ _ => Iff.rfl)
  · rintro p ⟨⟩ ⟨⟩
  · intro slot hslot
    by_cases hsame : slot = h.triedSlot service
    · rw [hsame, update_self] at hslot
      exact absurd hslot.symm hid
    · rw [update_of_ne hsame] at hslot
      obtain ⟨p, hp', -, hpos⟩ := hs.triedSlot slot (hslot ▸ hid)
      rw [hslot, hp] at hp'
      cases hp'
      exact absurd hpos.symm hsame
  · rintro p ⟨⟩ -
    exact ⟨by rw [hs.refs_eq_zero hid htried]; rfl, (by decide : 0 ≤ ADDRMAN_NEW_BUCKETS_PER_ADDRESS),
      .inl (.inr rfl)⟩
  · exact fun slot hslot => absurd hslot (hs.not_in_new hid htried slot)

end

end Moves

end Slots

end Defcoin.Addrman
