import Defcoin.Compressor
import Defcoin.Mweb.Models

/-! # Undo data

  `undo.h`: the coins a block spent, as they are written next to the block and read back when it is
  disconnected. The format has a height and a coinbase flag for every coin, but nothing for the
  pegout flag: coins come back with that flag unset.
-/

namespace Defcoin

open ByteCodec

/-- `CTxUndo`: the coins spent by the inputs of a transaction. -/
structure CTxUndo where
  vprevout : List Coin
  deriving DecidableEq

/-- `CBlockUndo` -/
structure CBlockUndo where
  vtxundo : List CTxUndo
  mwundo : Option Mweb.BlockUndo
  deriving DecidableEq

/-! ### One coin -/

section Formatter
variable (curve : PubKeyCurve)

/-- `TxInUndoFormatter::Ser` -/
def serTxInUndo (txout : Coin) : Bytes :=
  writeVarInt 32 (txout.nHeight.toNat * 2 + txout.fCoinBase.toNat) ++
    ((if decide (txout.nHeight.toNat > 0) then [0] else []) ++ serTxOut curve txout.out)

/-- `TxInUndoFormatter::Unser`, into a new `Coin()`. -/
def unserTxInUndo : Reader Coin := do
  let nCode ← readVarInt (2 ^ 32 - 1)
  -- the version that old releases stored, which is skipped
  let _nVersionDummy ← Mweb.unserIf (decide (nCode / 2 > 0)) (readVarInt (2 ^ 32 - 1)) 0
  let out ← unserTxOut curve
  pure { out := out, fCoinBase := nCode % 2 == 1, nHeight := BitVec.ofNat 31 (nCode / 2), fPegout := false }

end Formatter

def Coin.forgetPegout (c : Coin) : Coin := { c with fPegout := false }

structure Coin.Storable (c : Coin) : Prop where
  value : moneyRange c.out.nValue = true
  script : c.out.scriptPubKey.length ≤ maxScriptSize

theorem parses_txInUndo (curve : PubKeyCurve) {c : Coin} (hc : c.Storable) :
    Parses (unserTxInUndo curve) (serTxInUndo curve c) c.forgetPegout := by
  obtain ⟨out, fCoinBase, nHeight, fPegout⟩ := c
  have hbit := fCoinBase.toNat_lt
  have hdiv : (nHeight.toNat * 2 + fCoinBase.toNat) / 2 = nHeight.toNat := by omega
  have hmod : ((nHeight.toNat * 2 + fCoinBase.toNat) % 2 == 1) = fCoinBase := by
    cases fCoinBase <;> simp
  have hcode := parses_varInt 32 (2 ^ 32 - 1) (n := nHeight.toNat * 2 + fCoinBase.toNat) (by decide)
    (by omega) (by omega)
  have hzero : writeVarInt 32 0 = [0] := by decide
  have hdummy : Parses (Mweb.unserIf (decide ((nHeight.toNat * 2 + fCoinBase.toNat) / 2 > 0))
      (readVarInt (2 ^ 32 - 1)) 0) (if decide (nHeight.toNat > 0) then [0] else []) 0 := by
    rw [hdiv, ← hzero]
    exact Mweb.parses_unserIf (fun _ => parses_varInt 32 _ (by decide) (by decide) (by decide))
      (fun _ => rfl)
  have hout := (parses_txOut curve hc.value hc.script).map fun out =>
    ({ out := out, fCoinBase := (nHeight.toNat * 2 + fCoinBase.toNat) % 2 == 1
       nHeight := BitVec.ofNat 31 ((nHeight.toNat * 2 + fCoinBase.toNat) / 2)
       fPegout := false } : Coin)
  have hheight : BitVec.ofNat 31 nHeight.toNat = nHeight := BitVec.ofNat_toNat ..
  rw [hdiv, hmod, hheight] at hout
  refine hcode.bind (hdummy.bind ?_)
  rw [hdiv, hmod, hheight]
  exact hout

@[simp] theorem serTxInUndo_forgetPegout (curve : PubKeyCurve) (c : Coin) :
    serTxInUndo curve c.forgetPegout = serTxInUndo curve c := rfl

/-! ### Blocks -/

def CTxUndo.forgetPegout (u : CTxUndo) : CTxUndo := ⟨u.vprevout.map Coin.forgetPegout⟩

section Blocks
variable (curve : PubKeyCurve)

/-- `CTxUndo` serialisation. -/
def serTxUndo (u : CTxUndo) : Bytes := writeVector (serTxInUndo curve) u.vprevout

def unserTxUndo : Reader CTxUndo := do
  let vprevout ← readVector (unserTxInUndo curve)
  pure ⟨vprevout⟩

/-- `CBlockUndo` serialisation. -/
def serBlockUndo (u : CBlockUndo) : Bytes :=
  writeVector (serTxUndo curve) u.vtxundo ++
    (match u.mwundo with | some mwundo => Mweb.serBlockUndo mwundo | none => [])

/-- `UnserializeBlockUndo`: the extension block's undo data is there if the transactions' take less
    than `num_bytes`. -/
def unserializeBlockUndo (num_bytes : Nat) : Reader CBlockUndo := do
  let vtxundo ← readVector (unserTxUndo curve)
  let mwundo ← Mweb.unserIf (decide ((serBlockUndo curve ⟨vtxundo, none⟩).length < num_bytes))
    (do let mwundo ← Mweb.unserBlockUndo; pure (some mwundo)) none
  pure ⟨vtxundo, mwundo⟩

/-- The size that `UndoWriteToDisk` records, an `unsigned int`. -/
def CBlockUndo.diskSize (u : CBlockUndo) : Nat := (serBlockUndo curve u).length % 2 ^ 32

end Blocks

structure CBlockUndo.Storable (u : CBlockUndo) : Prop where
  txs : u.vtxundo.length ≤ maxSize
  coins : ∀ tx ∈ u.vtxundo, tx.vprevout.length ≤ maxSize ∧ ∀ c ∈ tx.vprevout, c.Storable
  mweb : ∀ mwundo, u.mwundo = some mwundo → mwundo.Wf

variable {us : List CTxUndo} (curve : PubKeyCurve)

@[simp] theorem serTxUndo_forgetPegout (curve : PubKeyCurve) (u : CTxUndo) :
    serTxUndo curve u.forgetPegout = serTxUndo curve u := by
  simp [serTxUndo, CTxUndo.forgetPegout, writeVector, writeEach, List.flatMap_map]

theorem serBlockUndo_forgetPegout (us : List CTxUndo) :
    serBlockUndo curve ⟨us.map CTxUndo.forgetPegout, none⟩ = serBlockUndo curve ⟨us, none⟩ := by
  simp [serBlockUndo, writeVector, writeEach, List.flatMap_map]

theorem unserializeBlockUndo_txs (htxs : us.length ≤ maxSize)
    (hcoins : ∀ tx ∈ us, tx.vprevout.length ≤ maxSize ∧ ∀ c ∈ tx.vprevout, c.Storable) (num_bytes : Nat)
    (tail : Bytes) :
    unserializeBlockUndo curve num_bytes (writeVector (serTxUndo curve) us ++ tail) =
      (Mweb.unserIf (decide ((serBlockUndo curve ⟨us, none⟩).length < num_bytes))
        (do let mwundo ← Mweb.unserBlockUndo; pure (some mwundo)) none tail) >>=
      fun p => .ok (⟨us.map CTxUndo.forgetPegout, p.1⟩, p.2) := by
  have hread : Parses (readVector (unserTxUndo curve)) (writeVector (serTxUndo curve) us) _ :=
    parses_vector CTxUndo.forgetPegout htxs fun tx htx =>
      (parses_vector Coin.forgetPegout (hcoins tx htx).1 fun c hc =>
        parses_txInUndo curve ((hcoins tx htx).2 c hc)).map CTxUndo.mk
  rw [← serBlockUndo_forgetPegout]
  show (readVector (unserTxUndo curve) (writeVector (serTxUndo curve) us ++ tail) >>= fun p => _) = _
  rw [hread tail]
  rfl

theorem parses_blockUndo_txs (hu : CBlockUndo.Storable ⟨us, none⟩) :
    Parses (unserializeBlockUndo curve (CBlockUndo.diskSize curve ⟨us, none⟩))
      (serBlockUndo curve ⟨us, none⟩) ⟨us.map CTxUndo.forgetPegout, none⟩ := by
  intro rest
  have hsize : ¬ (serBlockUndo curve ⟨us, none⟩).length <
      CBlockUndo.diskSize curve ⟨us, none⟩ := not_lt.mpr (Nat.mod_le _ _)
  have hser : serBlockUndo curve ⟨us, none⟩ ++ rest = writeVector (serTxUndo curve) us ++ rest := by
    simp [serBlockUndo]
  rw [hser, unserializeBlockUndo_txs curve hu.txs hu.coins, decide_eq_false hsize]
  rfl

/-- **Undo data is read back** with every coin but its pegout flags. The extension block's part is
    read if its size was recorded correctly, and is missing otherwise. -/
theorem unserializeBlockUndo_spec {u : CBlockUndo} (hu : u.Storable) (rest : Bytes) :
    ∃ mwundo rest', (mwundo = u.mwundo ∨ mwundo = none) ∧
      unserializeBlockUndo curve (u.diskSize curve) (serBlockUndo curve u ++ rest) =
        .ok (⟨u.vtxundo.map CTxUndo.forgetPegout, mwundo⟩, rest') := by
  obtain ⟨us, mwundo⟩ := u
  cases mwundo with
  | none => exact ⟨none, rest, Or.inl rfl, parses_blockUndo_txs curve hu rest⟩
  | some mw =>
    have hser : serBlockUndo curve ⟨us, some mw⟩ ++ rest =
        writeVector (serTxUndo curve) us ++ (Mweb.serBlockUndo mw ++ rest) := by
      simp [serBlockUndo]
    rw [hser, unserializeBlockUndo_txs curve hu.txs hu.coins]
    by_cases hsize : (serBlockUndo curve ⟨us, none⟩).length <
        CBlockUndo.diskSize curve ⟨us, some mw⟩
    · refine ⟨some mw, rest, Or.inl rfl, ?_⟩
      have hmw := (Mweb.parses_blockUndo (hu.mweb mw rfl)).map some
      rw [decide_eq_true hsize]
      show ((do let mwundo ← Mweb.unserBlockUndo; pure (some mwundo)) (Mweb.serBlockUndo mw ++ rest) >>= _) = _
      rw [hmw rest]
      rfl
    · refine ⟨none, Mweb.serBlockUndo mw ++ rest, Or.inr rfl, ?_⟩
      rw [decide_eq_false hsize]
      rfl

end Defcoin
