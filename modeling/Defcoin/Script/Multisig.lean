import Defcoin.Framework.ByteCodec
import Mathlib.Data.List.Forall2
import Mathlib.Data.Nat.Digits.Defs

/-! # OP_CHECKMULTISIG

  The opcode takes keys and signatures from the stack, each list behind its length, and tries the
  keys one after the other. A signature that a key verifies is not tried again; a key that does not
  verify is skipped.
-/

namespace Defcoin.Script

open List ByteCodec

/-! ### Code -/

/-- `ScriptError`, as far as this opcode sets it. -/
inductive ScriptError where
  | UNKNOWN_ERROR
  | INVALID_STACK_OPERATION
  | PUBKEY_COUNT
  | OP_COUNT
  | SIG_COUNT
  | SIG_FINDANDDELETE
  | SIG_NULLFAIL
  | SIG_NULLDUMMY
  | CHECKMULTISIGVERIFY
  | TAPSCRIPT_CHECKMULTISIG
  /-- what the checks of encodings set -/
  | encoding (code : Nat)
  deriving DecidableEq

/-- `SigVersion` -/
inductive SigVersion where
  | BASE
  | WITNESS_V0
  | TAPROOT
  | TAPSCRIPT
  deriving DecidableEq

structure VerifyFlags where
  MINIMALDATA : Bool
  CONST_SCRIPTCODE : Bool
  NULLFAIL : Bool
  NULLDUMMY : Bool

/-- The checks of encodings under the flags, `FindAndDelete` of a pushed signature, with how often
    it was found, and the checker. -/
structure SignatureChecks where
  checkSignatureEncoding : Bytes → Option ScriptError
  checkPubKeyEncoding : Bytes → Option ScriptError
  findAndDelete : Bytes → Bytes → Nat × Bytes
  checkECDSASignature : Bytes → Bytes → Bytes → Bool

/-- `stacktop(-i)`; the exception of `at` is caught. -/
def stacktop (stack : List Bytes) (i : Nat) : Except ScriptError Bytes :=
  match stack[i - 1]? with
  | some vch => .ok vch
  | none => .error .UNKNOWN_ERROR

/-- `CScriptNum::set_vch` -/
def setVch (vch : Bytes) : Int :=
  if vch.getLastD 0 &&& 0x80 ≠ 0 then
    -((Nat.ofDigits 256 (vch.map UInt8.toNat) - 0x80 * 256 ^ (vch.length - 1) : Nat) : Int)
  else Nat.ofDigits 256 (vch.map UInt8.toNat)

/-- `CScriptNum`, of at most four bytes here, so that `getint` changes nothing; its exceptions are caught. -/
def scriptNum (vch : Bytes) (fRequireMinimal : Bool) : Except ScriptError Int :=
  if vch.length > 4 then .error .UNKNOWN_ERROR
  else if fRequireMinimal ∧ vch ≠ [] ∧ vch.getLastD 0 &&& 0x7f = 0 ∧
      (vch.length ≤ 1 ∨ vch.getD (vch.length - 2) 0 &&& 0x80 = 0) then .error .UNKNOWN_ERROR
  else .ok (setVch vch)

section
variable (c : SignatureChecks) (flags : VerifyFlags) (sigversion : SigVersion) (stack : List Bytes)

/-- `nKeysCount`, and `nOpCount` with it. -/
def readKeysCount (nOpCount : Int) : Except ScriptError (Nat × Int) :=
  if stack.length < 1 then .error .INVALID_STACK_OPERATION
  else do
    let nKeysCount ← scriptNum (← stacktop stack 1) flags.MINIMALDATA
    if nKeysCount < 0 ∨ nKeysCount > 20 then .error .PUBKEY_COUNT
    else if nOpCount + nKeysCount > 201 then .error .OP_COUNT
    else .ok (nKeysCount.toNat, nOpCount + nKeysCount)

/-- `nSigsCount` -/
def readSigsCount (nKeysCount : Nat) : Except ScriptError Nat :=
  if stack.length < nKeysCount + 2 then .error .INVALID_STACK_OPERATION
  else do
    let nSigsCount ← scriptNum (← stacktop stack (nKeysCount + 2)) flags.MINIMALDATA
    if nSigsCount < 0 ∨ nSigsCount > nKeysCount then .error .SIG_COUNT
    else if stack.length < nKeysCount + 3 + nSigsCount.toNat then .error .INVALID_STACK_OPERATION
    else .ok nSigsCount.toNat

/-- The signatures are dropped from the script, except in witness scripts. -/
def dropSignatures (isig nSigsCount : Nat) (scriptCode : Bytes) : Except ScriptError Bytes :=
  (range nSigsCount).foldlM (fun scriptCode k => do
    let vchSig ← stacktop stack (isig + k)
    if sigversion = .BASE then
      if (c.findAndDelete scriptCode vchSig).1 > 0 ∧ flags.CONST_SCRIPTCODE then .error .SIG_FINDANDDELETE
      else .ok (c.findAndDelete scriptCode vchSig).2
    else .ok scriptCode) scriptCode

/-- The loop over the keys. There are never more signatures left than keys. -/
def matchLoop (scriptCode : Bytes) : (nKeysCount nSigsCount isig ikey : Nat) → Except ScriptError Bool
  | _, 0, _, _ => .ok true
  | 0, _ + 1, _, _ => .ok false
  | nKeysCount + 1, nSigsCount + 1, isig, ikey => do
    let vchSig ← stacktop stack isig
    let vchPubKey ← stacktop stack ikey
    match c.checkSignatureEncoding vchSig, c.checkPubKeyEncoding vchPubKey with
    | some serror, _ => .error serror
    | none, some serror => .error serror
    | none, none =>
      let fOk := c.checkECDSASignature vchSig vchPubKey scriptCode
      let nSigsLeft := if fOk then nSigsCount else nSigsCount + 1
      if nSigsLeft > nKeysCount then .ok false
      else matchLoop scriptCode nKeysCount nSigsLeft (if fOk then isig + 1 else isig) (ikey + 1)

/-- The arguments are popped; the last of them are the signatures. -/
def cleanUp (fSuccess : Bool) : (i ikey2 : Nat) → List Bytes → Except ScriptError (List Bytes)
  | 0, _, stack => .ok stack
  | _ + 1, _, [] => .error .UNKNOWN_ERROR
  | i + 1, ikey2, vch :: stack =>
    if ¬ fSuccess ∧ flags.NULLFAIL ∧ ikey2 = 0 ∧ vch ≠ [] then .error .SIG_NULLFAIL
    else cleanUp fSuccess i (ikey2 - 1) stack

/-- `OP_CHECKMULTISIG`, and `OP_CHECKMULTISIGVERIFY` with `verify`. -/
def checkMultisig (verify : Bool) (scriptCode : Bytes) (nOpCount : Int) :
    Except ScriptError (List Bytes × Int) :=
  if sigversion = .TAPSCRIPT then .error .TAPSCRIPT_CHECKMULTISIG
  else do
    let (nKeysCount, nOpCount) ← readKeysCount flags stack nOpCount
    let nSigsCount ← readSigsCount flags stack nKeysCount
    let scriptCode ← dropSignatures c flags sigversion stack (nKeysCount + 3) nSigsCount scriptCode
    let fSuccess ← matchLoop c stack scriptCode nKeysCount nSigsCount (nKeysCount + 3) 2
    let stack ← cleanUp flags fSuccess (nKeysCount + 2 + nSigsCount) (nKeysCount + 2) stack
    match stack with
    | [] => .error .INVALID_STACK_OPERATION
    | dummy :: stack =>
      if flags.NULLDUMMY ∧ dummy ≠ [] then .error .SIG_NULLDUMMY
      else if ¬ verify then .ok ((if fSuccess then [1] else []) :: stack, nOpCount)
      else if fSuccess then .ok (stack, nOpCount)
      else .error .CHECKMULTISIGVERIFY

end

/-! ### Matching -/

def Assignable (ok : Bytes → Bytes → Bool) (sigs keys : List Bytes) : Prop :=
  ∃ chosen, chosen <+ keys ∧ Forall₂ (fun sig key => ok sig key = true) sigs chosen

section
variable {ok : Bytes → Bytes → Bool} {sig key : Bytes} {sigs keys : List Bytes}

theorem assignable_nil : Assignable ok [] keys := ⟨[], nil_sublist _, .nil⟩

theorem Assignable.length_le (h : Assignable ok sigs keys) : sigs.length ≤ keys.length := by
  obtain ⟨_, hsub, hall⟩ := h
  rw [hall.length_eq]
  exact hsub.length_le

/-- A key that verifies the first signature may as well be taken for it. -/
theorem assignable_cons_of_ok (h : ok sig key = true) :
    Assignable ok (sig :: sigs) (key :: keys) ↔ Assignable ok sigs keys := by
  constructor
  · intro hassign
    obtain ⟨chosen, hsub, hall⟩ := hassign
    obtain ⟨_, later, _, hlater, rfl⟩ := forall₂_cons_left_iff.mp hall
    exact ⟨later, hsub.tail, hlater⟩
  · intro hassign
    obtain ⟨chosen, hsub, hall⟩ := hassign
    exact ⟨key :: chosen, hsub.cons_cons key, .cons h hall⟩

/-- A key that does not verify the first signature verifies none. -/
theorem assignable_cons_of_not_ok (h : ok sig key = false) :
    Assignable ok (sig :: sigs) (key :: keys) ↔ Assignable ok (sig :: sigs) keys := by
  constructor
  · intro hassign
    obtain ⟨chosen, hsub, hall⟩ := hassign
    obtain ⟨first, later, hfirst, _, rfl⟩ := forall₂_cons_left_iff.mp hall
    refine ⟨first :: later, ?_, hall⟩
    cases hsub with
    | cons _ hsub => exact hsub
    | cons_cons _ _ =>
      rw [h] at hfirst
      cases hfirst
  · intro hassign
    obtain ⟨chosen, hsub, hall⟩ := hassign
    exact ⟨chosen, hsub.cons key, hall⟩

end

/-! ### The opcode -/

section
variable {c : SignatureChecks} {flags : VerifyFlags} {stack : List Bytes}

theorem stacktop_of_drop {i : Nat} {vch : Bytes} {below : List Bytes} (h : stack.drop i = vch :: below) :
    stacktop stack (i + 1) = .ok vch ∧ stack.drop (i + 1) = below := by
  constructor
  · rw [stacktop, Nat.add_sub_cancel, ← head?_drop, h]
    rfl
  · rw [← drop_drop, h]
    rfl

theorem matchLoop_spec (scriptCode : Bytes) {keys sigs below₁ below₂ : List Bytes} {isig ikey : Nat}
    (hsigs : stack.drop isig = sigs ++ below₁) (hkeys : stack.drop ikey = keys ++ below₂)
    (hsigs_ok : ∀ sig ∈ sigs, c.checkSignatureEncoding sig = none)
    (hkeys_ok : ∀ key ∈ keys, c.checkPubKeyEncoding key = none) (hle : sigs.length ≤ keys.length) :
    ∃ fSuccess, matchLoop c stack scriptCode keys.length sigs.length (isig + 1) (ikey + 1) = .ok fSuccess ∧
      (fSuccess = true ↔ Assignable (c.checkECDSASignature · · scriptCode) sigs keys) := by
  induction keys generalizing sigs isig ikey with
  | nil =>
    cases sigs with
    | nil => exact ⟨true, rfl, iff_of_true rfl assignable_nil⟩
    | cons sig sigs => cases hle
  | cons key keys ih =>
    cases sigs with
    | nil => exact ⟨true, rfl, iff_of_true rfl assignable_nil⟩
    | cons sig sigs =>
      obtain ⟨hsig, hsigs'⟩ := stacktop_of_drop hsigs
      obtain ⟨hkey, hkeys'⟩ := stacktop_of_drop hkeys
      rw [forall_mem_cons] at hkeys_ok
      rw [length_cons, length_cons, matchLoop, hsig, hkey]
      simp only [bind, Except.bind, hsigs_ok sig mem_cons_self, hkeys_ok.1]
      cases hok : c.checkECDSASignature sig key scriptCode with
      | true =>
        have hiff := @assignable_cons_of_ok (c.checkECDSASignature · · scriptCode) sig key sigs keys hok
        rw [hiff, if_neg (by simpa using hle)]
        exact ih hsigs' hkeys' (forall_mem_cons.mp hsigs_ok).2 hkeys_ok.2 (Nat.le_of_succ_le_succ hle)
      | false =>
        -- the signature is tried with the next key, unless too few keys are left
        have hiff := @assignable_cons_of_not_ok (c.checkECDSASignature · · scriptCode) sig key sigs keys hok
        rw [hiff, if_neg Bool.false_ne_true]
        split
        · next hfew => exact ⟨false, rfl, iff_of_false nofun fun h => absurd h.length_le (Nat.not_le.mpr hfew)⟩
        · next hmore => exact ih hsigs hkeys' hsigs_ok hkeys_ok.2 (Nat.not_lt.mp hmore)

variable {fSuccess : Bool} {rest : List Bytes}

theorem cleanUp_append (front : List Bytes) (i : Nat) :
    cleanUp flags fSuccess (front.length + i) front.length (front ++ rest) = cleanUp flags fSuccess i 0 rest := by
  induction front with
  | nil => rw [length_nil, Nat.zero_add, nil_append]
  | cons vch front ih =>
    rw [length_cons, Nat.add_right_comm, cons_append, cleanUp, if_neg (by omega)]
    exact ih

theorem cleanUp_sigs (sigs : List Bytes) : cleanUp flags fSuccess sigs.length 0 (sigs ++ rest) =
    if ¬ fSuccess ∧ flags.NULLFAIL ∧ ∃ sig ∈ sigs, sig ≠ [] then .error .SIG_NULLFAIL else .ok rest := by
  induction sigs with
  | nil => simp [cleanUp]
  | cons sig sigs ih =>
    rw [length_cons, cons_append, cleanUp, ih]
    by_cases hsig : sig = []
    · simp [hsig]
    · by_cases hfail : ¬ fSuccess ∧ flags.NULLFAIL = true
      · simp [hsig, hfail]
      · rw [if_neg (by tauto), if_neg (by tauto), if_neg (by tauto)]

/-- **OP_CHECKMULTISIG** on well-encoded keys and signatures pushes whether the signatures can be
    assigned to keys in their order, and consumes its arguments and one element more. -/
theorem checkMultisig_eq (c : SignatureChecks) (flags : VerifyFlags) (sigversion : SigVersion)
    (stack keys sigs rest : List Bytes) (vchKeys vchSigs dummy scriptCode code : Bytes) (nOpCount : Int)
    (htap : sigversion ≠ .TAPSCRIPT) (hstack : stack = vchKeys :: (keys ++ vchSigs :: (sigs ++ dummy :: rest)))
    (hkeys : scriptNum vchKeys flags.MINIMALDATA = .ok keys.length) (hmax : keys.length ≤ 20)
    (hops : nOpCount + keys.length ≤ 201) (hsigs : scriptNum vchSigs flags.MINIMALDATA = .ok sigs.length)
    (hle : sigs.length ≤ keys.length) (hkeys_ok : ∀ key ∈ keys, c.checkPubKeyEncoding key = none)
    (hsigs_ok : ∀ sig ∈ sigs, c.checkSignatureEncoding sig = none)
    (hcode : dropSignatures c flags sigversion stack (keys.length + 3) sigs.length scriptCode = .ok code)
    (hdummy : flags.NULLDUMMY = true → dummy = []) :
    (Assignable (c.checkECDSASignature · · code) sigs keys →
      checkMultisig c flags sigversion stack false scriptCode nOpCount =
        .ok ([1] :: rest, nOpCount + keys.length)) ∧
    (¬ Assignable (c.checkECDSASignature · · code) sigs keys →
      checkMultisig c flags sigversion stack false scriptCode nOpCount =
        if flags.NULLFAIL ∧ ∃ sig ∈ sigs, sig ≠ [] then .error .SIG_NULLFAIL
        else .ok ([] :: rest, nOpCount + keys.length)) := by
  have hdrop : stack.drop (keys.length + 1) = vchSigs :: (sigs ++ dummy :: rest) := by
    rw [hstack, drop_succ_cons, drop_left]
  have hlength : stack.length = keys.length + sigs.length + rest.length + 3 := by
    rw [hstack]
    simp
    omega
  -- the parts of the opcode in their order: two counts, the loop over the keys, the clean-up
  have hfirst : readKeysCount flags stack nOpCount = .ok (keys.length, nOpCount + keys.length) := by
    rw [readKeysCount, if_neg (by omega), hstack]
    simp only [stacktop, Nat.sub_self, List.getElem?_cons_zero, bind, Except.bind, hkeys]
    rw [if_neg (by omega), if_neg (by omega), Int.toNat_natCast]
  have hsecond : readSigsCount flags stack keys.length = .ok sigs.length := by
    rw [readSigsCount, if_neg (by omega), (stacktop_of_drop hdrop).1]
    simp only [bind, Except.bind, hsigs]
    rw [if_neg (by omega), Int.toNat_natCast, if_neg (by omega)]
  obtain ⟨fSuccess, hloop, hiff⟩ := matchLoop_spec code (stacktop_of_drop hdrop).2
    (show stack.drop 1 = keys ++ (vchSigs :: (sigs ++ dummy :: rest)) by rw [hstack]; rfl) hsigs_ok hkeys_ok hle
  have hclean : cleanUp flags fSuccess (keys.length + 2 + sigs.length) (keys.length + 2) stack =
      if ¬ fSuccess ∧ flags.NULLFAIL ∧ ∃ sig ∈ sigs, sig ≠ [] then .error .SIG_NULLFAIL
      else .ok (dummy :: rest) := by
    rw [← cleanUp_sigs]
    have hpop := @cleanUp_append flags fSuccess (sigs ++ dummy :: rest) (vchKeys :: (keys ++ [vchSigs])) sigs.length
    simp only [length_cons, length_append, cons_append, append_assoc] at hpop
    rw [hstack]
    exact hpop
  have hrun : checkMultisig c flags sigversion stack false scriptCode nOpCount =
      if ¬ fSuccess ∧ flags.NULLFAIL ∧ ∃ sig ∈ sigs, sig ≠ [] then .error .SIG_NULLFAIL
      else .ok ((if fSuccess then [1] else []) :: rest, nOpCount + keys.length) := by
    rw [checkMultisig]
    simp only [bind, Except.bind, hfirst, hsecond, hcode, hloop, hclean]
    split_ifs <;> simp_all
  constructor
  · intro h
    rw [hrun, hiff.mpr h]
    simp
  · intro h
    rw [hrun, Bool.eq_false_iff.mpr (mt hiff.mp h)]
    simp

/-- Signatures are equal to their keys. -/
def echoChecks : SignatureChecks where
  checkSignatureEncoding := fun _ => none
  checkPubKeyEncoding := fun _ => none
  findAndDelete := fun code _ => (0, code)
  checkECDSASignature := fun sig key _ => sig == key

theorem checkMultisig_eq_echo :
    checkMultisig echoChecks ⟨true, true, true, true⟩ .WITNESS_V0 [[2], [7], [8], [1], [8], [], [9]] false [] 0 =
      .ok ([[1], [9]], 2) :=
  (checkMultisig_eq echoChecks ⟨true, true, true, true⟩ .WITNESS_V0 _ [[7], [8]] [[8]] [[9]] [2] [1] [] [] [] 0
    (by decide) rfl (by decide) (by decide) (by decide) (by decide) (by decide) (by simp [echoChecks])
    (by simp [echoChecks]) rfl (by simp)).1 ⟨[[8]], by decide, .cons rfl .nil⟩

/-- Under `NULLFAIL`, the opcode fails on a signature that no key verifies. -/
theorem checkMultisig_nullfail :
    checkMultisig echoChecks ⟨true, true, true, true⟩ .WITNESS_V0 [[1], [7], [1], [8], [], [9]] false [] 0 =
      .error .SIG_NULLFAIL := rfl

end
end Defcoin.Script
