import Defcoin.Framework.SparseFile
import Defcoin.Mweb.LeafSet

/-! # The leaf set on disk

  The file of a `LeafSet` starts with the next leaf index in eight bytes; the bits follow. Updates
  are collected as bytes at file positions and written into a copy of the file, which is then
  mapped. File names are left out: each flush writes under a new index and the older files are
  removed later.
-/

namespace Defcoin.Mweb

open ByteCodec SparseFile LeafSetCache

/-- The members of `LeafSet`. -/
structure LeafSetFile where
  nextLeafIdx : Nat
  file : Bytes
  modifiedBytes : Writes

namespace LeafSetFile

section
variable (l : LeafSetFile)

/-- `GetByte`, eight bytes further on in the file -/
def getByte (byteIdx : Nat) : UInt8 :=
  (l.modifiedBytes.lookup (byteIdx + 8)).getD (byteAt l.file (byteIdx + 8))

/-- `SetByte` -/
def setByte (byteIdx : Nat) (value : UInt8) : LeafSetFile :=
  { l with modifiedBytes := l.modifiedBytes.insert (byteIdx + 8) value }

/-- `ILeafSet::Remove` -/
def remove (idx : Nat) : LeafSetFile :=
  l.setByte (idx / 8) (l.getByte (idx / 8) &&& (0xff ^^^ PackedBits.mask (idx % 8)))

/-- `Flush` -/
def flush : LeafSetFile :=
  let modifiedBytes := storeFrom l.modifiedBytes 0 (writeLE 8 l.nextLeafIdx)
  { l with file := writeAll l.file modifiedBytes, modifiedBytes := ∅ }

/-- `ApplyUpdates` -/
def applyUpdates (nextLeafIdx : Nat) (modifiedBytes : Writes) : LeafSetFile :=
  let updated := modifiedBytes.entries.foldl (fun l byte => l.setByte byte.1 byte.2) l
  -- a rewind leaves nothing above the new end
  let cleared := (List.range' nextLeafIdx (l.nextLeafIdx - nextLeafIdx)).foldl remove updated
  flush { cleared with nextLeafIdx }

/-- `Open`. A file too short for the index gets one appended. -/
def openFile (file : Bytes) : Except String LeafSetFile :=
  if file.length < 8 then
    .ok { nextLeafIdx := 0, file := file ++ writeLE 8 0, modifiedBytes := ∅ }
  else
    (readLE 8 (file.take 8)).map fun r => { nextLeafIdx := r.1, file, modifiedBytes := ∅ }

/-- What the file stands for. -/
def toLeafSet : LeafSet := { nextLeafIdx := l.nextLeafIdx, bytes := l.getByte }

end

/-! ### Updates -/

variable (l : LeafSetFile) (modifiedBytes : Writes) (k : Nat)

theorem getByte_setByte (v : UInt8) : (l.setByte k v).getByte = PackedBits.store l.getByte k v := by
  funext j
  unfold getByte setByte PackedBits.store
  by_cases h : j = k
  · subst h
    simp [AList.lookup_insert]
  · simp [h]

theorem getByte_setBytes :
    (modifiedBytes.entries.foldl (fun l byte => l.setByte byte.1 byte.2) l).getByte k =
      (modifiedBytes.lookup k).getD (l.getByte k) := by
  have hput : ∀ (l : LeafSetFile) (byte : Σ _ : Nat, UInt8),
      (l.setByte byte.1 byte.2).getByte k = if byte.1 = k then id byte.2 else l.getByte k := by
    intro l byte
    rw [getByte_setByte, PackedBits.store]
    simp [eq_comm]
  have h := foldl_writes (fun l byte => l.setByte byte.1 byte.2)
    (fun l => l.getByte k) id hput modifiedBytes.entries l modifiedBytes.nodupKeys
  simpa [AList.lookup] using h

theorem getByte_removes {l : LeafSetFile} {c : LeafSetCache} {backed : Nat → UInt8}
    (h : l.getByte = c.getByte backed) (idxs : List Nat) :
    (idxs.foldl remove l).getByte = (idxs.foldl (fun c idx => c.remove backed idx) c).getByte backed := by
  induction idxs generalizing l c with
  | nil => exact h
  | cons idx idxs ih =>
    apply ih
    show (l.remove idx).getByte = (c.remove backed idx).getByte backed
    rw [remove, getByte_setByte, LeafSetCache.remove, LeafSetCache.getByte_setByte, h]

theorem getByte_flush : l.flush.getByte = l.getByte := by
  funext k
  have hlookup : (storeFrom l.modifiedBytes 0 (writeLE 8 l.nextLeafIdx)).lookup (k + 8) =
      l.modifiedBytes.lookup (k + 8) := by
    rw [lookup_storeFrom, if_neg]
    rw [length_writeLE]
    omega
  unfold getByte flush
  simp only [AList.lookup_empty, Option.getD_none]
  rw [byteAt_writeAll, hlookup]

theorem toLeafSet_applyUpdates (nextLeafIdx : Nat) (modifiedBytes : Writes) :
    (l.applyUpdates nextLeafIdx modifiedBytes).toLeafSet =
      l.toLeafSet.applyUpdates nextLeafIdx modifiedBytes := by
  have hset : (modifiedBytes.entries.foldl (fun l byte => l.setByte byte.1 byte.2) l).getByte =
      ((new l.nextLeafIdx).overwrite modifiedBytes).getByte l.getByte := by
    funext k
    rw [getByte_setBytes, getByte_overwrite, getByte_new]
  have hremove := getByte_removes hset (List.range' nextLeafIdx (l.nextLeafIdx - nextLeafIdx))
  have hflush := getByte_flush
    { (List.range' nextLeafIdx (l.nextLeafIdx - nextLeafIdx)).foldl remove
        (modifiedBytes.entries.foldl (fun l byte => l.setByte byte.1 byte.2) l) with nextLeafIdx }
  exact congrArg (LeafSet.mk nextLeafIdx) (hflush.trans hremove)

theorem openFile_flush (h : l.nextLeafIdx < 2 ^ 64) : openFile l.flush.file = .ok l.flush := by
  obtain ⟨htake, hlen⟩ := take_writeAll_storeFrom l.file l.modifiedBytes (writeLE 8 l.nextLeafIdx)
  rw [length_writeLE] at htake hlen
  have hpow : 2 ^ 64 = 256 ^ 8 := by norm_num
  rw [hpow] at h
  have hnext := (parses_le h).run
  have hlong := Nat.not_lt.mpr hlen
  rw [flush, openFile, if_neg hlong, htake, hnext, Except.map]

end LeafSetFile

end Defcoin.Mweb
