import Defcoin.Coins.View
import Defcoin.Mweb.CoinsView
import Defcoin.Transaction

/-! # Checks on transactions

  `CheckTransaction`, which needs no context, and `CheckTxInputs`, which looks up the coins a
  transaction spends. Each check that passes is summed up by one lemma: what is known of the
  transaction, and what it did to the coin view (reading caches, but shows the same coins).
-/

namespace Defcoin

open Outcome

/-! ### How checks end -/

/-- `TxValidationResult`, the members these checks use. -/
inductive TxValidationResult where
  | TX_CONSENSUS | TX_MISSING_INPUTS | TX_PREMATURE_SPEND
  deriving DecidableEq

/-- `BlockValidationResult` -/
inductive BlockValidationResult where
  | BLOCK_CONSENSUS | BLOCK_RECENT_CONSENSUS_CHANGE | BLOCK_CACHED_INVALID | BLOCK_INVALID_HEADER
  | BLOCK_MUTATED | BLOCK_MISSING_PREV | BLOCK_INVALID_PREV | BLOCK_TIME_FUTURE | BLOCK_CHECKPOINT
  deriving DecidableEq

/-- How a check ends when it does not pass. -/
inductive Failure (R : Type) where
  /-- `state.Invalid(result, reject_reason)` -/
  | invalid (result : R) (reject_reason : String)
  /-- `AbortNode(state, message)` -/
  | abort (message : String)
  /-- it does not return -/
  | fault (f : Fault)
  deriving DecidableEq

abbrev TxCheck := Except (Failure TxValidationResult)
abbrev BlockCheck := Except (Failure BlockValidationResult)

def orFault {R α : Type} (x : Except Fault α) : Except (Failure R) α := x.mapError .fault

theorem orFault_eq_ok {R α : Type} {x : Except Fault α} {a : α} :
    orFault (R := R) x = .ok a ↔ x = .ok a := mapError_eq_ok

/-! ### CheckTransaction -/

/-- `WITNESS_SCALE_FACTOR` -/
def witnessScaleFactor : Nat := 4

/-- `MAX_BLOCK_WEIGHT` -/
def maxBlockWeight : Nat := 4000000

/-- The loop of `CheckTransaction` over the output values. -/
def checkOutputValues (nValueOut : Int) : List CTxOut → TxCheck Unit
  | [] => .ok ()
  | txout :: rest => do
    if txout.nValue < 0 then throw (.invalid .TX_CONSENSUS "bad-txns-vout-negative")
    if txout.nValue > maxMoney then throw (.invalid .TX_CONSENSUS "bad-txns-vout-toolarge")
    let next ← orFault (toAmount (nValueOut + txout.nValue))
    if !moneyRange next then throw (.invalid .TX_CONSENSUS "bad-txns-txouttotal-toolarge")
    checkOutputValues next rest

/-- `CheckTransaction` -/
def checkTransaction (tx : CTransaction) : TxCheck Unit := do
  if !tx.isMWEBOnly && tx.vin.isEmpty then throw (.invalid .TX_CONSENSUS "bad-txns-vin-empty")
  if !tx.isMWEBOnly && tx.vout.isEmpty then throw (.invalid .TX_CONSENSUS "bad-txns-vout-empty")
  if tx.serializeSize * witnessScaleFactor > maxBlockWeight then
    throw (.invalid .TX_CONSENSUS "bad-txns-oversize")
  checkOutputValues 0 tx.vout
  if ¬ (tx.vin.map CTxIn.prevout).Nodup then
    throw (.invalid .TX_CONSENSUS "bad-txns-inputs-duplicate")
  if tx.isCoinBase then
    if tx.vin.any fun txin => decide (txin.scriptSig.length < 2) || decide (txin.scriptSig.length > 100) then
      throw (.invalid .TX_CONSENSUS "bad-cb-length")
  else
    if tx.vin.any fun txin => txin.prevout.isNull then
      throw (.invalid .TX_CONSENSUS "bad-txns-prevout-null")

/-- What is known of a transaction that passed `CheckTransaction`. -/
structure CTransaction.Checked (tx : CTransaction) : Prop where
  vin_ne_nil : tx.isMWEBOnly = false → tx.vin ≠ []
  vout_ne_nil : tx.isMWEBOnly = false → tx.vout ≠ []
  size : tx.serializeSize * witnessScaleFactor ≤ maxBlockWeight
  values : ∀ out ∈ tx.vout, moneyRange out.nValue = true
  nodup : (tx.vin.map CTxIn.prevout).Nodup

theorem checkOutputValues_spec {total : Int} {vout : List CTxOut}
    (h : checkOutputValues total vout = .ok ()) : ∀ out ∈ vout, moneyRange out.nValue = true := by
  induction vout generalizing total with
  | nil => simp
  | cons out rest ih =>
    obtain ⟨hneg, h⟩ := unless_eq_ok.mp h
    obtain ⟨hlarge, h⟩ := unless_eq_ok.mp h
    obtain ⟨_, _, h⟩ := bind_eq_ok.mp h
    obtain ⟨_, h⟩ := unless_eq_ok.mp h
    exact List.forall_mem_cons.mpr ⟨moneyRange_iff.mpr ⟨by omega, by omega⟩, ih h⟩

theorem checkTransaction_spec {tx : CTransaction} (h : checkTransaction tx = .ok ()) : tx.Checked := by
  obtain ⟨hvin, h⟩ := unless_eq_ok.mp h
  obtain ⟨hvout, h⟩ := unless_eq_ok.mp h
  obtain ⟨hsize, h⟩ := unless_eq_ok.mp h
  obtain ⟨_, hvalues, h⟩ := bind_eq_ok.mp h
  obtain ⟨hnodup, h⟩ := unless_eq_ok.mp h
  refine ⟨?_, ?_, not_lt.mp hsize, checkOutputValues_spec hvalues, not_not.mp hnodup⟩
  · intro honly hnil
    simp [honly, hnil] at hvin
  · intro honly hnil
    simp [honly, hnil] at hvout

/-! ### Coins of the extension block -/

/-- An exception or failed assert of `libmw`, outside of a handler. -/
def Mweb.Error.toFault : Mweb.Error → Fault
  | .assertion expr => .assertion expr
  | .validation _ => .runtimeError "ValidationException"
  | .crypto msg => .runtimeError msg
  | .file msg => .runtimeError msg
  | .overflow => .undefinedBehavior "CAmount"

namespace Mweb.CoinsView

/-- `CCoinsViewCache::HaveCoin` on an output id: the last action of the highest layer that has one
    decides. -/
def haveCoin : CoinsView → Hash → Bool
  | db d, output_id => (d.coinDB output_id).isSome
  | cache base c, output_id =>
    match (c.updates.getActions output_id).getLast? with
    | some action => action.isSome
    | none => base.haveCoin output_id

/-- `CCoinsViewCache::GetMWEBCoin` -/
def getMWEBCoin : CoinsView → Hash → Except Error (Option Output)
  | db d, output_id => .ok ((d.coinDB output_id).map UTXO.output)
  | cache base c, output_id =>
    match (c.updates.getActions output_id).getLast? with
    | some (some _) => do
      match ← (cache base c).getUTXO output_id with
      | some utxo => .ok (some utxo.output)
      | none => .error (.assertion "utxo != nullptr")
    | some none => .ok none
    | none => base.getMWEBCoin output_id

end Mweb.CoinsView

/-! ### CheckTxInputs -/

/-- `COINBASE_MATURITY` -/
def coinbaseMaturity : Int := 100

/-- `PEGOUT_MATURITY` -/
def pegoutMaturity : Int := 6

section Inputs
variable {B : Type} [CoinsBase B]

namespace CCoinsViewCache

/-- The loop of `HaveInputs` over the canonical inputs. -/
def haveCoins (s : CCoinsViewCache B) : List CTxIn → Bool × CCoinsViewCache B
  | [] => (true, s)
  | txin :: rest =>
    let r := s.haveCoin txin.prevout
    if r.1 then r.2.haveCoins rest else (false, r.2)

/-- `CCoinsViewCache::HaveInputs` -/
def haveInputs (s : CCoinsViewCache B) (mweb : Mweb.CoinsView) (tx : CTransaction) :
    Bool × CCoinsViewCache B :=
  if tx.isCoinBase then (true, s)
  else
    let r := s.haveCoins tx.vin
    let mwebInputs := (tx.mweb_tx.map Mweb.TxBody.inputs).getD []
    (r.1 && mwebInputs.all fun input => mweb.haveCoin input.outputID, r.2)

/-- `AccessCoin` for every input. -/
def accessCoins (s : CCoinsViewCache B) : List CTxIn → List Coin × CCoinsViewCache B
  | [] => ([], s)
  | txin :: rest =>
    let r := s.accessCoin txin.prevout
    let r' := r.2.accessCoins rest
    (r.1 :: r'.1, r'.2)

/-- The loop of `CheckTxInputs`: the value of the inputs. -/
def sumInputs (nSpendHeight : BitVec 31) (s : CCoinsViewCache B) (nValueIn : Int) :
    List CTxIn → TxCheck (Int × CCoinsViewCache B)
  | [] => .ok (nValueIn, s)
  | txin :: rest => do
    let (coin, s') := s.accessCoin txin.prevout
    let depth : Int := nSpendHeight.toNat - coin.nHeight.toNat
    if coin.isSpent then throw (.fault (.assertion "!coin.IsSpent()"))
    if coin.fCoinBase && decide (depth < coinbaseMaturity) then
      throw (.invalid .TX_PREMATURE_SPEND "bad-txns-premature-spend-of-coinbase")
    if coin.fPegout && decide (depth < pegoutMaturity) then
      throw (.invalid .TX_PREMATURE_SPEND "bad-txns-premature-spend-of-pegout")
    let next ← orFault (toAmount (nValueIn + coin.out.nValue))
    if !moneyRange coin.out.nValue || !moneyRange next then
      throw (.invalid .TX_CONSENSUS "bad-txns-inputvalues-outofrange")
    s'.sumInputs nSpendHeight next rest

end CCoinsViewCache

/-- The loop of `CheckTxInputs` over the inputs in the extension block. -/
def checkMWEBInputs (frozen_mweb_output_ids : List Mweb.Hash) (mweb : Mweb.CoinsView) :
    List Mweb.Input → TxCheck Unit
  | [] => .ok ()
  | input :: rest => do
    match ← orFault ((mweb.getMWEBCoin input.outputID).mapError Mweb.Error.toFault) with
    | none => throw (.invalid .TX_CONSENSUS "bad-txns-inputs-missing")
    | some utxo =>
      if input.outputID ∈ frozen_mweb_output_ids then
        throw (.invalid .TX_CONSENSUS "bad-txns-frozen-mweb-output")
      if utxo.receiverPubKey ≠ input.outputPubKey ∨ utxo.commitment ≠ input.commitment then
        throw (.invalid .TX_CONSENSUS "bad-txns-input-mismatch")
      checkMWEBInputs frozen_mweb_output_ids mweb rest

variable (frozen_mweb_output_ids : List Mweb.Hash)

/-- The part of `CheckTxInputs` for a transaction with extension block data: the fee with the fee
    paid there. -/
def addMWEBFee (mweb : Mweb.CoinsView) (txfee_aux : Int) :
    Option Mweb.TxBody → TxCheck Int
  | none => .ok txfee_aux
  | some body => do
    checkMWEBInputs frozen_mweb_output_ids mweb body.inputs
    match body.getTotalFee with
    | none => throw (.invalid .TX_CONSENSUS "bad-txns-mwebfee-outofrange")
    | some mweb_fee =>
      let total ← orFault (toAmount (txfee_aux + mweb_fee))
      if !moneyRange mweb_fee || !moneyRange total then
        throw (.invalid .TX_CONSENSUS "bad-txns-mwebfee-outofrange")
      pure total

/-- `Consensus::CheckTxInputs`: the fee, and the view after the coins were looked up. -/
def checkTxInputs (mweb : Mweb.CoinsView)
    (inputs : CCoinsViewCache B) (tx : CTransaction) (nSpendHeight : BitVec 31) :
    TxCheck (Int × CCoinsViewCache B) := do
  let (have_inputs, inputs) := inputs.haveInputs mweb tx
  if !have_inputs then throw (.invalid .TX_MISSING_INPUTS "bad-txns-inputs-missingorspent")
  let (nValueIn, inputs) ← inputs.sumInputs nSpendHeight 0 tx.vin
  let value_out ← orFault tx.getValueOut
  if nValueIn < value_out then throw (.invalid .TX_CONSENSUS "bad-txns-in-belowout")
  let txfee_aux ← orFault (toAmount (nValueIn - value_out))
  if !moneyRange txfee_aux then throw (.invalid .TX_CONSENSUS "bad-txns-fee-outofrange")
  let txfee ← addMWEBFee frozen_mweb_output_ids mweb txfee_aux tx.mweb_tx
  pure (txfee, inputs)

/-! ### What the checks establish -/

def CoinMap.Holds (m : CoinMap) : List CTxIn → List Coin → Prop :=
  List.Forall₂ fun txin coin => m txin.prevout = some coin

def sumCoins (coins : List Coin) : Int := (coins.map fun coin => coin.out.nValue).sum

@[simp] theorem sumCoins_nil : sumCoins [] = 0 := rfl

@[simp] theorem sumCoins_cons (coin : Coin) (coins : List Coin) :
    sumCoins (coin :: coins) = coin.out.nValue + sumCoins coins := by
  simp [sumCoins]

/-- What is known of the inputs of a transaction that passed `CheckTxInputs`. -/
structure InputsChecked (m : CoinMap) (tx : CTransaction) (coins : List Coin) (txfee : Int) : Prop where
  holds : m.Holds tx.vin coins
  values : ∀ coin ∈ coins, moneyRange coin.out.nValue = true
  fee : txfee = sumCoins coins - tx.valueOut
  fee_range : moneyRange txfee = true

namespace CCoinsViewCache

section
variable {s : CCoinsViewCache B} (hs : s.BaseUnspent)
include hs

theorem haveCoins_reads (vin : List CTxIn) : s.Reads (s.haveCoins vin).2 := by
  induction vin generalizing s with
  | nil => exact Reads.refl s
  | cons txin rest ih =>
    obtain ⟨_, hreads⟩ := haveCoin_reads hs txin.prevout
    rw [haveCoins]
    split
    · exact hreads.trans (ih (hreads.baseUnspent hs))
    · exact hreads

theorem haveInputs_reads (mweb : Mweb.CoinsView) (tx : CTransaction) : s.Reads (s.haveInputs mweb tx).2 := by
  unfold haveInputs
  split
  · exact Reads.refl s
  · exact haveCoins_reads hs tx.vin

theorem accessCoins_reads (vin : List CTxIn) : s.Reads (s.accessCoins vin).2 := by
  induction vin generalizing s with
  | nil => exact Reads.refl s
  | cons txin rest ih =>
    obtain ⟨_, hreads⟩ := accessCoin_reads hs txin.prevout
    exact hreads.trans (ih (hreads.baseUnspent hs))

theorem sumInputs_spec {nSpendHeight : BitVec 31} {s' : CCoinsViewCache B} {vin : List CTxIn} {total v : Int}
    (h : s.sumInputs nSpendHeight total vin = .ok (v, s')) :
    s.Reads s' ∧ ∃ coins, s.view.Holds vin coins ∧ v = total + sumCoins coins ∧
      (∀ coin ∈ coins, moneyRange coin.out.nValue = true) ∧
      (moneyRange total = true → moneyRange v = true) := by
  induction vin generalizing s total with
  | nil =>
    cases h
    exact ⟨Reads.refl _, [], .nil, by simp, by simp, fun h => h⟩
  | cons txin rest ih =>
    obtain ⟨hcoin, hreads⟩ := accessCoin_reads hs txin.prevout
    rw [sumInputs] at h
    generalize s.accessCoin txin.prevout = r at h hcoin hreads
    obtain ⟨coin, _⟩ := r
    obtain ⟨hunspent, h⟩ := unless_eq_ok.mp h
    obtain ⟨_, h⟩ := unless_eq_ok.mp h
    obtain ⟨_, h⟩ := unless_eq_ok.mp h
    obtain ⟨_, hnext, h⟩ := bind_eq_ok.mp h
    obtain ⟨hrange, h⟩ := unless_eq_ok.mp h
    obtain rfl := toAmount_eq_ok (orFault_eq_ok.mp hnext)
    simp only [Bool.or_eq_true, Bool.not_eq_true', not_or, Bool.not_eq_false] at hrange
    -- an unspent coin was read from the map, not made up for a missing one
    have hview : s.view txin.prevout = some coin := hcoin (by simpa using hunspent)
    obtain ⟨hreads', coins, hholds, hv, hall, htotal⟩ := ih (hreads.baseUnspent hs) h
    rw [hreads.view_eq] at hholds
    refine ⟨hreads.trans hreads', coin :: coins, .cons hview hholds, ?_, ?_, fun _ => htotal hrange.2⟩
    · rw [sumCoins_cons]
      omega
    · exact List.forall_mem_cons.mpr ⟨hrange.1, hall⟩

end

end CCoinsViewCache

theorem checkTxInputs_spec {frozen : List Mweb.Hash} {mweb : Mweb.CoinsView}
    {s s' : CCoinsViewCache B} (hs : s.BaseUnspent) {tx : CTransaction} (htx : tx.hasMWEBTx = false)
    {nSpendHeight : BitVec 31} {txfee : Int}
    (h : checkTxInputs frozen mweb s tx nSpendHeight = .ok (txfee, s')) :
    s.Reads s' ∧ ∃ coins, InputsChecked s.view tx coins txfee := by
  have hnone : tx.mweb_tx = none := by simpa [CTransaction.hasMWEBTx] using htx
  have hhave := CCoinsViewCache.haveInputs_reads hs mweb tx
  obtain ⟨_, h⟩ := unless_eq_ok.mp h
  obtain ⟨⟨_, _⟩, hsum, h⟩ := bind_eq_ok.mp h
  obtain ⟨_, hout, h⟩ := bind_eq_ok.mp h
  obtain ⟨_, h⟩ := unless_eq_ok.mp h
  obtain ⟨_, hfee, h⟩ := bind_eq_ok.mp h
  obtain ⟨hrange, h⟩ := unless_eq_ok.mp h
  rw [hnone] at h
  cases h
  obtain ⟨hreads, coins, hholds, hv, hall, _⟩ :=
    CCoinsViewCache.sumInputs_spec (hhave.baseUnspent hs) hsum
  rw [CCoinsViewCache.Reads.view_eq hhave] at hholds
  obtain rfl := toAmount_eq_ok (orFault_eq_ok.mp hfee)
  obtain ⟨rfl, _, _⟩ := CTransaction.getValueOut_spec (orFault_eq_ok.mp hout)
  rw [zero_add] at hv
  subst hv
  exact ⟨hhave.trans hreads, coins, hholds, hall, rfl, by simpa using hrange⟩

end Inputs

end Defcoin
