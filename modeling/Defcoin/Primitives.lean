import Mathlib.Algebra.Group.Int.Defs
import Mathlib.Algebra.Group.Nat.Defs
import Mathlib.Data.List.AList

/-! # Amounts, scripts, coins and transactions

  The data types the validation code works on, under the source's names. Hashes are 256-bit words;
  scripts are byte strings; amounts are integers, with the `int64_t` range stated where the code
  adds or subtracts them. A transaction carries its cached hash, as `CTransaction::hash` does.
-/

namespace Defcoin

/-- A 256-bit hash; the null hash is all zeros. -/
abbrev Uint256 := BitVec 256

instance : LawfulBEq Uint256 := inferInstance

namespace Uint256

def isNull (h : Uint256) : Bool := h == 0

@[simp] theorem isNull_zero : isNull 0 = true := rfl

theorem isNull_eq_false {h : Uint256} (hne : h ≠ 0) : h.isNull = false := by
  simpa [isNull] using hne

/-- The bytes of a hash as one number, the first byte on top: `operator<` compares these. -/
def memcmpKey (hash : Uint256) : Nat :=
  (List.range 32).foldl (fun key i => key * 256 + (hash >>> (8 * i)).toNat % 256) 0

end Uint256

/-- What ends an operation of the source other than a normal return. -/
inductive Fault where
  /-- a failed `assert` -/
  | assertion (expr : String)
  /-- `std::logic_error` -/
  | logicError (what : String)
  /-- `std::runtime_error` -/
  | runtimeError (what : String)
  /-- `std::ios_base::failure` -/
  | iosFailure (what : String)
  /-- a signed 64-bit addition or subtraction left its range -/
  | int64Overflow
  /-- undefined behaviour of another kind -/
  | undefinedBehavior (what : String)
  deriving DecidableEq

/-! ### Amounts

    A `CAmount` is an integer number of the smallest unit. -/

/-- `COIN` -/
def coinUnit : Int := 100000000

/-- `MAX_MONEY` -/
def maxMoney : Int := 84000000 * coinUnit

/-- `MoneyRange` -/
def moneyRange (nValue : Int) : Bool := decide (0 ≤ nValue) && decide (nValue ≤ maxMoney)

theorem moneyRange_iff {nValue : Int} :
    moneyRange nValue = true ↔ 0 ≤ nValue ∧ nValue ≤ maxMoney := by
  simp [moneyRange]

/-- `std::numeric_limits<CAmount>::min()` -/
def int64Min : Int := -2 ^ 63

/-- `std::numeric_limits<CAmount>::max()` -/
def int64Max : Int := 2 ^ 63 - 1

/-- A sum or difference of amounts, which is undefined behaviour outside `int64_t`. -/
def toAmount (value : Int) : Except Fault Int :=
  if int64Min ≤ value ∧ value ≤ int64Max then .ok value else .error .int64Overflow

theorem toAmount_eq_ok {value r : Int} (h : toAmount value = .ok r) : r = value := by
  unfold toAmount at h
  split at h
  · cases h
    rfl
  · cases h

theorem toAmount_of_le {value : Int} (hlo : -(2 * maxMoney) ≤ value) (hhi : value ≤ 2 * maxMoney) :
    toAmount value = .ok value := by
  have hmax : maxMoney = 8400000000000000 := by decide
  have hmin : int64Min = -9223372036854775808 := by decide
  have hint : int64Max = 9223372036854775807 := by decide
  unfold toAmount
  rw [if_pos]
  omega

/-! ### Scripts -/

/-- `CScript`: the bytes of a script. -/
abbrev CScript := List UInt8

/-- `MAX_SCRIPT_SIZE` -/
def maxScriptSize : Nat := 10000

/-- `OP_RETURN` -/
def opReturn : UInt8 := 0x6a

namespace CScript

/-- `CScript::IsUnspendable` -/
def isUnspendable (s : CScript) : Bool :=
  (decide (s.length > 0) && s.head? == some opReturn) || decide (s.length > maxScriptSize)

end CScript

/-! ### Transactions -/

/-- `COutPoint` -/
structure COutPoint where
  hash : Uint256
  n : Nat
  deriving DecidableEq

/-- `COutPoint::NULL_INDEX` -/
def COutPoint.nullIndex : Nat := 2 ^ 32 - 1

/-- `COutPoint::IsNull` -/
def COutPoint.isNull (o : COutPoint) : Bool := o.hash.isNull && o.n == COutPoint.nullIndex

/-- `CTxOut` -/
structure CTxOut where
  nValue : Int
  scriptPubKey : CScript
  deriving DecidableEq

namespace CTxOut

/-- `CTxOut::SetNull` -/
def null : CTxOut := { nValue := -1, scriptPubKey := [] }

/-- `CTxOut::IsNull` -/
def isNull (out : CTxOut) : Bool := out.nValue == -1

end CTxOut

/-! ### Coins -/

/-- `Coin`: an unspent output with where it was created. -/
structure Coin where
  out : CTxOut
  fCoinBase : Bool
  nHeight : BitVec 31
  fPegout : Bool
  deriving DecidableEq

/-- The coin `Coin()` constructs and `Coin::Clear` leaves. -/
def coinEmpty : Coin :=
  { out := CTxOut.null, fCoinBase := false, nHeight := 0, fPegout := false }

/-- `Coin::IsSpent` -/
def Coin.isSpent (c : Coin) : Bool := c.out.isNull

@[simp] theorem coinEmpty_isSpent : coinEmpty.isSpent = true := rfl

end Defcoin
