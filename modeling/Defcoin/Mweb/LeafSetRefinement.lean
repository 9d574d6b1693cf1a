import Mathlib.Data.Finset.Basic
import Defcoin.Framework.Machine
import Defcoin.Mweb.LeafSetFile

/-! # The layered leaf set refines a finite set

  A stack of `LeafSetCache` layers over the file, driven through its top layer, behaves as a finite
  set of indices together with the next index.
-/

namespace Defcoin.Mweb

open ByteCodec SparseFile LeafSetCache Machine List

/-! ### Stacks of leaf sets -/

namespace LeafSetCache
variable (backed : Nat → UInt8)

/-- `ILeafSet::Add`, with the next index in 64 bits -/
def addU64 (l : LeafSetCache) (idx : UInt64) : LeafSetCache :=
  let l' := l.add backed idx.toNat
  { l' with nextLeafIdx := l'.nextLeafIdx % 2 ^ 64 }

/-- `ILeafSet::Rewind`, with the next index in 64 bits -/
def rewindU64 (l : LeafSetCache) (numLeaves : UInt64) (leavesToAdd : List UInt64) : LeafSetCache :=
  let added := leavesToAdd.foldl (fun l idx => l.addU64 backed idx) l
  { added.removeRange backed numLeaves.toNat (added.nextLeafIdx - numLeaves.toNat) with
    nextLeafIdx := numLeaves.toNat }

end LeafSetCache

/-- An `ILeafSet`. -/
inductive ILeafSet where
  | file (l : LeafSetFile)
  | cache (base : ILeafSet) (c : LeafSetCache)

namespace ILeafSet

/-- `GetNextLeafIdx` -/
def getNextLeafIdx : ILeafSet → Nat
  | file l => l.nextLeafIdx
  | cache _ c => c.nextLeafIdx

/-- `GetByte` -/
def getByte : ILeafSet → Nat → UInt8
  | file l => l.getByte
  | cache base c => c.getByte base.getByte

/-- `ApplyUpdates` -/
def applyUpdates : ILeafSet → Nat → Writes → ILeafSet
  | file l, nextLeafIdx, modifiedBytes => file (l.applyUpdates nextLeafIdx modifiedBytes)
  | cache base c, nextLeafIdx, modifiedBytes => cache base (c.applyUpdates nextLeafIdx modifiedBytes)

/-- Flush every layer, from the updates for the topmost one down to the file. -/
def flushAll : ILeafSet → Nat → Writes → LeafSetFile
  | file l, nextLeafIdx, modifiedBytes => l.applyUpdates nextLeafIdx modifiedBytes
  | cache base c, nextLeafIdx, modifiedBytes =>
    let c' := c.applyUpdates nextLeafIdx modifiedBytes
    flushAll base c'.nextLeafIdx c'.modifiedBytes

end ILeafSet

/-- A stack whose top layer is a cache. -/
structure LeafSetStack where
  base : ILeafSet
  top : LeafSetCache

namespace LeafSetStack

/-- `LeafSetCache(pBacked)` -/
def push (base : ILeafSet) : LeafSetStack := { base, top := .new base.getNextLeafIdx }

variable (s : LeafSetStack)

/-- `GetByte` of the top layer -/
def getByte : Nat → UInt8 := s.top.getByte s.base.getByte

/-- The bytes that `ILeafSet::Root` hashes -/
def rootPreimage : Bytes :=
  (List.range ((s.top.nextLeafIdx + 7) % 2 ^ 64 / 8)).map s.getByte

def flushAll : LeafSetFile :=
  s.base.flushAll s.top.nextLeafIdx s.top.modifiedBytes

end LeafSetStack

inductive LeafSetOp where
  | contains (idx : UInt64)
  | add (idx : UInt64)
  | remove (idx : UInt64)
  | rewind (numLeaves : UInt64) (leavesToAdd : List UInt64)
  | flush
  | push

/-- One operation; only `Contains` has an answer. -/
def LeafSetStack.step (s : LeafSetStack) : LeafSetOp → Except Error (Option Bool × LeafSetStack)
  | .contains idx => .ok (some (s.top.contains s.base.getByte idx.toNat), s)
  | .add idx => .ok (none, { s with top := s.top.addU64 s.base.getByte idx })
  | .remove idx => .ok (none, { s with top := s.top.remove s.base.getByte idx.toNat })
  | .rewind numLeaves leavesToAdd =>
    .ok (none, { s with top := s.top.rewindU64 s.base.getByte numLeaves leavesToAdd })
  | .flush =>
    .ok (none,
      { base := s.base.applyUpdates s.top.nextLeafIdx s.top.modifiedBytes
        top := { s.top with modifiedBytes := ∅ } })
  | .push => .ok (none, .push (.cache s.base s.top))

/-- Stacks under `LeafSetOp`. -/
def leafSetMachine : Machine LeafSetStack LeafSetOp (Option Bool) Error where
  step := LeafSetStack.step

/-! ### A finite set and the next index -/

/-- A finite set of leaf indices below the next index. -/
structure LeafIndexSet where
  members : Finset Nat
  next : Nat
  below : ∀ i ∈ members, i < next

namespace LeafIndexSet

def empty : LeafIndexSet := { members := ∅, next := 0, below := by simp }

variable (a : LeafIndexSet)

def add (idx : Nat) : LeafIndexSet where
  members := insert idx a.members
  next := max a.next (idx + 1)
  below := by
    intro i hi
    rcases Finset.mem_insert.mp hi with rfl | hi
    · omega
    · have := a.below i hi
      omega

def remove (idx : Nat) : LeafIndexSet where
  members := a.members.erase idx
  next := a.next
  below := fun i hi => a.below i (Finset.mem_of_mem_erase hi)

/-- Add indices, and go back to `numLeaves`. -/
def rewind (numLeaves : Nat) (leavesToAdd : List Nat) : LeafIndexSet where
  members := (a.members ∪ leavesToAdd.toFinset).filter (· < numLeaves)
  next := numLeaves
  below := fun _ hi => (Finset.mem_filter.mp hi).2

def step : LeafSetOp → Option Bool × LeafIndexSet
  | .contains idx => (some (decide (idx.toNat ∈ a.members)), a)
  | .add idx => (none, a.add idx.toNat)
  | .remove idx => (none, a.remove idx.toNat)
  | .rewind numLeaves leavesToAdd =>
    (none, a.rewind numLeaves.toNat (leavesToAdd.map UInt64.toNat))
  | .flush => (none, a)
  | .push => (none, a)

end LeafIndexSet

/-- The index after the last word is zero, so the last word ends up above it. -/
theorem leafSetStack_wraps :
    ∃ l s, LeafSetFile.openFile [] = .ok l ∧
      leafSetMachine.run (.push (.file l)) [.add 0xffffffffffffffff] = .ok ([none], s) ∧
      s.top.nextLeafIdx = 0 ∧ s.top.contains s.base.getByte 0xffffffffffffffff = true :=
  ⟨_, _, rfl, rfl, rfl, rfl⟩

/-- An index far enough from the end of the 64-bit words. -/
def InRange (idx : UInt64) : Prop := idx.toNat < 2 ^ 64 - 8

instance : DecidablePred InRange := fun idx => inferInstanceAs (Decidable (idx.toNat < 2 ^ 64 - 8))

/-- Indices added are in range, and rewinds go back. -/
def LeafSetOp.Allowed (a : LeafIndexSet) : LeafSetOp → Prop
  | .add idx => InRange idx
  | .rewind numLeaves leavesToAdd => numLeaves.toNat ≤ a.next ∧ ∀ idx ∈ leavesToAdd, InRange idx
  | _ => True

/-- The bytes and the index stand for a set. -/
structure LeafIndexSet.StoredIn (a : LeafIndexSet) (getByte : Nat → UInt8) (nextLeafIdx : Nat) :
    Prop where
  next : nextLeafIdx = a.next
  inRange : a.next ≤ 2 ^ 64 - 8
  contains : ∀ i, PackedBits.contains getByte i = decide (i ∈ a.members)

namespace LeafIndexSet.StoredIn

variable {a a₂ : LeafIndexSet} {getByte getByte₂ : Nat → UInt8} {n n₂ : Nat}
variable (h : a.StoredIn getByte n)
include h

theorem clean : ∀ i, PackedBits.contains getByte i = true → i < n := by
  intro i hi
  rw [h.contains] at hi
  rw [h.next]
  exact a.below i (by simpa using hi)

theorem next_le : n ≤ 2 ^ 64 - 8 := by
  rw [h.next]
  exact h.inRange

theorem bytes_eq_iff (h₂ : a₂.StoredIn getByte₂ n₂) :
    (range ((n + 7) / 8)).map getByte = (range ((n₂ + 7) / 8)).map getByte₂ ↔
      a.members = a₂.members ∧ (n + 7) / 8 = (n₂ + 7) / 8 := by
  constructor
  · intro heq
    have hlen : (n + 7) / 8 = (n₂ + 7) / 8 := by simpa using congrArg length heq
    refine ⟨?_, hlen⟩
    rw [← hlen] at heq
    have hbyte : ∀ k < (n + 7) / 8, getByte k = getByte₂ k := by
      intro k hk
      exact map_inj_left.mp heq k (mem_range.mpr hk)
    ext i
    -- an index whose byte is not hashed is in neither set
    have hout : ∀ {a : LeafIndexSet} {g : Nat → UInt8} {m : Nat}, a.StoredIn g m → ∀ i ∈ a.members,
        i / 8 < (m + 7) / 8 := by
      intro a g m h i hi
      have := a.below i hi
      rw [← h.next] at this
      omega
    have hbit : i / 8 < (n + 7) / 8 → (i ∈ a.members ↔ i ∈ a₂.members) := by
      intro hlt
      have := h.contains i
      rw [PackedBits.contains, hbyte _ hlt, ← PackedBits.contains, h₂.contains] at this
      simpa using this.symm
    constructor
    · intro hi
      exact (hbit (hout h i hi)).mp hi
    · intro hi
      have := hout h₂ i hi
      rw [← hlen] at this
      exact (hbit this).mpr hi
  · rintro ⟨hmem, hlen⟩
    have hbytes : getByte = getByte₂ := by
      apply PackedBits.eq_of_contains_eq
      intro i
      rw [h.contains, h₂.contains, hmem]
    rw [hlen, hbytes]

end LeafIndexSet.StoredIn

/-! ### The operations of one layer -/

namespace LeafSetCache

variable {backed : Nat → UInt8} {l : LeafSetCache} {a : LeafIndexSet}

theorem addU64_eq (backed : Nat → UInt8) (hnext : l.nextLeafIdx ≤ 2 ^ 64 - 8) {idx : UInt64} (hidx : InRange idx) :
    l.addU64 backed idx = l.add backed idx.toNat ∧
      (l.add backed idx.toNat).nextLeafIdx ≤ 2 ^ 64 - 8 := by
  unfold InRange at hidx
  have hle : (l.add backed idx.toNat).nextLeafIdx ≤ 2 ^ 64 - 8 := by
    rw [nextLeafIdx_add]
    omega
  refine ⟨?_, hle⟩
  have hmod := Nat.mod_eq_of_lt (Nat.lt_of_le_of_lt hle (by decide : 2 ^ 64 - 8 < 2 ^ 64))
  simp only [addU64, hmod]

theorem addAllU64_eq (hnext : l.nextLeafIdx ≤ 2 ^ 64 - 8) {idxs : List UInt64}
    (hidxs : ∀ idx ∈ idxs, InRange idx) :
    idxs.foldl (fun l idx => l.addU64 backed idx) l =
      (idxs.map UInt64.toNat).foldl (fun l idx => l.add backed idx) l := by
  induction idxs generalizing l with
  | nil => rfl
  | cons idx idxs ih =>
    obtain ⟨heq, hle⟩ := addU64_eq backed hnext (hidxs idx (by simp))
    rw [foldl_cons, heq, ih hle fun i hi => hidxs i (by simp [hi])]
    rfl

section
variable (h : a.StoredIn (l.getByte backed) l.nextLeafIdx)
include h

theorem stored_add {idx : UInt64} (hidx : InRange idx) :
    (a.add idx.toNat).StoredIn ((l.addU64 backed idx).getByte backed)
      (l.addU64 backed idx).nextLeafIdx := by
  have hbound := h.next_le
  obtain ⟨heq, hle⟩ := addU64_eq backed hbound hidx
  rw [heq]
  rw [nextLeafIdx_add, h.next] at hle
  refine ⟨by rw [nextLeafIdx_add, h.next]; rfl, hle, fun i => ?_⟩
  have hadd := contains_add backed l idx.toNat i
  rw [contains, contains, h.contains] at hadd
  rw [hadd, LeafIndexSet.add]
  simp [Bool.or_comm]

theorem stored_remove (idx : Nat) :
    (a.remove idx).StoredIn ((l.remove backed idx).getByte backed) l.nextLeafIdx := by
  refine ⟨h.next, h.inRange, fun i => ?_⟩
  have hremove := contains_remove backed l idx i
  rw [contains, contains, h.contains] at hremove
  rw [hremove, LeafIndexSet.remove]
  simp [Bool.and_comm]

theorem stored_rewind {numLeaves : UInt64} {leavesToAdd : List UInt64} (hle : numLeaves.toNat ≤ a.next)
    (hadd : ∀ idx ∈ leavesToAdd, InRange idx) :
    (a.rewind numLeaves.toNat (leavesToAdd.map UInt64.toNat)).StoredIn
      ((l.rewindU64 backed numLeaves leavesToAdd).getByte backed) numLeaves.toNat := by
  have hbound := h.next_le
  have heq : l.rewindU64 backed numLeaves leavesToAdd =
      l.rewind backed numLeaves.toNat (leavesToAdd.map UInt64.toNat) := by
    unfold rewindU64 rewind
    rw [addAllU64_eq hbound hadd]
  have hrange := h.inRange
  refine ⟨rfl, Nat.le_trans hle hrange, fun i => ?_⟩
  have hrewind := contains_rewind backed l numLeaves.toNat (leavesToAdd.map UInt64.toNat) h.clean i
  rw [contains, contains, h.contains] at hrewind
  rw [heq, hrewind, LeafIndexSet.rewind]
  simp

end

end LeafSetCache

/-! ### Flushing -/

namespace ILeafSet

variable {top : LeafSetCache} {a : LeafIndexSet}

theorem stored_applyUpdates (s : ILeafSet)
    (h : a.StoredIn (top.getByte s.getByte) top.nextLeafIdx) :
    a.StoredIn (s.applyUpdates top.nextLeafIdx top.modifiedBytes).getByte top.nextLeafIdx := by
  cases s with
  | file l =>
    have hbytes : (l.applyUpdates top.nextLeafIdx top.modifiedBytes).getByte =
        (l.toLeafSet.applyUpdates top.nextLeafIdx top.modifiedBytes).bytes := by
      rw [← l.toLeafSet_applyUpdates, LeafSetFile.toLeafSet]
    refine ⟨h.next, h.inRange, fun i => ?_⟩
    rw [applyUpdates, getByte, hbytes, LeafSet.contains_applyUpdates l.toLeafSet top h.clean i]
    exact h.contains i
  | cache base c =>
    rw [applyUpdates, getByte, getByte_applyUpdates]
    exact h

theorem openFile_flushAll (s : ILeafSet) (top : LeafSetCache) (h : top.nextLeafIdx < 2 ^ 64) :
    LeafSetFile.openFile (s.flushAll top.nextLeafIdx top.modifiedBytes).file =
      .ok (s.flushAll top.nextLeafIdx top.modifiedBytes) := by
  induction s generalizing top with
  | file l => exact LeafSetFile.openFile_flush _ h
  | cache base c ih => exact ih (c.applyUpdates top.nextLeafIdx top.modifiedBytes) h

theorem stored_flushAll (s : ILeafSet)
    (h : a.StoredIn (top.getByte s.getByte) top.nextLeafIdx) :
    a.StoredIn (s.flushAll top.nextLeafIdx top.modifiedBytes).getByte
      (s.flushAll top.nextLeafIdx top.modifiedBytes).nextLeafIdx := by
  induction s generalizing top with
  | file l => exact (file l).stored_applyUpdates h
  | cache base c ih =>
    have hc : a.StoredIn ((c.applyUpdates top.nextLeafIdx top.modifiedBytes).getByte base.getByte)
        top.nextLeafIdx := by
      rw [getByte_applyUpdates]
      exact h
    exact ih hc

end ILeafSet

/-! ### Runs -/

namespace LeafSetStack

def Shows (s : LeafSetStack) (a : LeafIndexSet) : Prop := a.StoredIn s.getByte s.top.nextLeafIdx

variable {s : LeafSetStack} {a : LeafIndexSet}

theorem shows_push {base : ILeafSet} (h : a.StoredIn base.getByte base.getNextLeafIdx) :
    (push base).Shows a := by
  exact h

theorem step_shows (s : LeafSetStack) (a : LeafIndexSet) (op : LeafSetOp) (h : s.Shows a)
    (hop : op.Allowed a) :
    ∃ s', s.step op = .ok ((a.step op).1, s') ∧ s'.Shows (a.step op).2 := by
  cases op with
  | contains idx =>
    refine ⟨s, ?_, h⟩
    exact congrArg (fun b => Except.ok (some b, s)) (h.contains idx.toNat)
  | add idx => exact ⟨_, rfl, stored_add h hop⟩
  | remove idx => exact ⟨_, rfl, stored_remove h idx.toNat⟩
  | rewind numLeaves leavesToAdd => exact ⟨_, rfl, stored_rewind h hop.1 hop.2⟩
  | flush =>
    refine ⟨_, rfl, ?_⟩
    -- the emptied layer reads through to the one that took its bytes
    exact s.base.stored_applyUpdates h
  | push => exact ⟨_, rfl, shows_push h⟩

/-- A stack that allowed operations lead to from a file, and the set they lead to. -/
def Reached (s : LeafSetStack) (a : LeafIndexSet) : Prop :=
  ∃ (l : LeafSetFile) (a₀ : LeafIndexSet) (ops : List LeafSetOp), a₀.StoredIn l.getByte l.nextLeafIdx ∧
    Machine.AbsGuarded LeafIndexSet.step (fun a op => op.Allowed a) a₀ ops ∧
    leafSetMachine.run (.push (.file l)) ops = .ok ((Machine.absRun LeafIndexSet.step a₀ ops).1, s) ∧
    a = (Machine.absRun LeafIndexSet.step a₀ ops).2

theorem run_shows {l : LeafSetFile} (hl : a.StoredIn l.getByte l.nextLeafIdx) {ops : List LeafSetOp}
    (hops : AbsGuarded LeafIndexSet.step (fun a op => op.Allowed a) a ops) :
    ∃ s, leafSetMachine.run (.push (.file l)) ops =
        .ok ((absRun LeafIndexSet.step a ops).1, s) ∧
      s.Shows (absRun LeafIndexSet.step a ops).2 :=
  run_refines (M := leafSetMachine) step_shows ops _ _ (shows_push hl) hops

theorem Reached.shows (h : s.Reached a) : s.Shows a := by
  obtain ⟨_, _, _, hl, hops, hrun, rfl⟩ := h
  obtain ⟨_, hrun', hs'⟩ := run_shows hl hops
  rw [hrun] at hrun'
  cases hrun'
  exact hs'

theorem Shows.rootPreimage_eq (h : s.Shows a) :
    s.rootPreimage = (range ((s.top.nextLeafIdx + 7) / 8)).map s.getByte := by
  have hbound := h.next_le
  rw [rootPreimage, Nat.mod_eq_of_lt (by omega)]

end LeafSetStack

/-- **Refinement**: with one layer over any file that stores a set, every run of allowed operations
    answers as the set does. Afterwards the top layer contains the set, the bytes hashed by `Root`
    determine it up to their number, and the file stores it once every layer is flushed. -/
theorem leafSetStack_refines_set (l : LeafSetFile) (a : LeafIndexSet)
    (hl : a.StoredIn l.getByte l.nextLeafIdx) (ops : List LeafSetOp)
    (hops : AbsGuarded LeafIndexSet.step (fun a op => op.Allowed a) a ops) :
    ∃ s a', a' = (absRun LeafIndexSet.step a ops).2 ∧
      leafSetMachine.run (.push (.file l)) ops =
        .ok ((absRun LeafIndexSet.step a ops).1, s) ∧
      s.top.nextLeafIdx = a'.next ∧
      (∀ i, s.top.contains s.base.getByte i = decide (i ∈ a'.members)) ∧
      (∀ i, a'.next ≤ i → s.top.contains s.base.getByte i = false) ∧
      (∀ s₂ a₂, LeafSetStack.Reached s₂ a₂ →
        (s.rootPreimage = s₂.rootPreimage ↔
          a'.members = a₂.members ∧ (a'.next + 7) / 8 = (a₂.next + 7) / 8)) ∧
      ∃ l', LeafSetFile.openFile s.flushAll.file = .ok l' ∧ l'.nextLeafIdx = a'.next ∧
        ∀ i, PackedBits.contains l'.getByte i = decide (i ∈ a'.members) := by
  obtain ⟨s, hrun, hs⟩ := LeafSetStack.run_shows hl hops
  refine ⟨s, _, rfl, hrun, hs.next, hs.contains, ?_, ?_, ?_⟩
  · intro i hi
    have hnot := fun hmem => Nat.not_lt.mpr hi (LeafIndexSet.below _ i hmem)
    exact (hs.contains i).trans (by simpa using hnot)
  · intro s₂ a₂ hs₂
    rw [hs.rootPreimage_eq, hs₂.shows.rootPreimage_eq, ← hs.next, ← hs₂.shows.next]
    exact hs.bytes_eq_iff hs₂.shows
  · have hbound := hs.next_le
    have hstored := s.base.stored_flushAll hs
    exact ⟨_, s.base.openFile_flushAll s.top (by omega), hstored.next, hstored.contains⟩

/-- A new file, and a rewind in the upper one of two layers after a flush. -/
theorem leafSetStack_refines_set_rewound :
    ∃ l s, LeafSetFile.openFile [] = .ok l ∧
      leafSetMachine.run (.push (.file l))
        [.add 3, .add 12, .flush, .push, .remove 3, .rewind 10 [4], .contains 12, .contains 4] =
          .ok ([none, none, none, none, none, none, some false, some true], s) ∧
      s.top.nextLeafIdx = 10 := by
  have hnew : LeafIndexSet.empty.StoredIn
      (LeafSetFile.getByte { nextLeafIdx := 0, file := writeLE 8 0, modifiedBytes := ∅ }) 0 := by
    refine ⟨rfl, by decide, fun i => ?_⟩
    have hzero : LeafSetFile.getByte { nextLeafIdx := 0, file := writeLE 8 0, modifiedBytes := ∅ } =
        fun _ => 0 := by
      funext k
      have hend : byteAt (writeLE 8 0) (k + 8) = 0 := getD_eq_default _ _ (by simp)
      simp [LeafSetFile.getByte, hend]
    rw [hzero]
    simp [PackedBits.contains, PackedBits.bit, LeafIndexSet.empty]
  obtain ⟨s, _, rfl, hrun, hnext, -⟩ := leafSetStack_refines_set _ _ hnew
    [.add 3, .add 12, .flush, .push, .remove 3, .rewind 10 [4], .contains 12, .contains 4]
    ⟨show InRange 3 by decide, show InRange 12 by decide, trivial, trivial, trivial,
      ⟨show 10 ≤ 13 by decide, forall_mem_singleton.mpr (show InRange 4 by decide)⟩, trivial, trivial, trivial⟩
  exact ⟨_, s, rfl, hrun, hnext⟩

end Defcoin.Mweb
