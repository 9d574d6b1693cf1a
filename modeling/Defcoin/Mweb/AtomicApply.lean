import Defcoin.Framework.Effect
import Defcoin.Mweb.Reorg
import Defcoin.Mweb.TemporaryCache

/-! # Blocks that fail leave no trace

  `ApplyBlock` step by step, in the order of the source, on the members of the cache, of the layers
  below it and of the temporary cache. Assignments made before an exception stay made, so that what
  a failed block leaves behind can be read off.
-/

namespace Defcoin.Mweb

open ByteCodec Outcome CoinsView CoinsViewCache

/-- The layers below the cache, the cache itself and the temporary cache over it. -/
structure ApplyState where
  base : CoinsView
  cache : CoinsViewCache
  temp : CoinsViewCache

namespace ApplyState

/-- What the temporary cache has as its base. -/
def self (s : ApplyState) : CoinsView := .cache s.base s.cache

def kept (s : ApplyState) : CoinsView × CoinsViewCache := (s.base, s.cache)

end ApplyState

/-- A step of `ApplyBlock`. -/
abbrev ApplyStep := Effect ApplyState Error

namespace ApplyStep

section Steps
variable (cr : Crypto)

/-- `GetUTXO` of the temporary cache -/
def getUTXO (output_id : Hash) : ApplyStep (Option UTXO) :=
  .look fun s => s.temp.getUTXO s.self output_id

/-- `SetBestHeader` -/
def setBestHeader (header : Header) : ApplyStep Unit :=
  .update fun s => { s with temp := { s.temp with header := some header } }

/-- `m_pOutputPMMR->Add` -/
def addLeaf (data : Bytes) : ApplyStep Nat := do
  let leafIdx ← .get fun s => (s.temp.outputPMMR.add cr s.self.getHash data).1
  .update fun s =>
    { s with temp :=
      { s.temp with outputPMMR := (s.temp.outputPMMR.add cr s.self.getHash data).2 } }
  pure leafIdx

/-- `m_pLeafSet->Add` -/
def leafSetAdd (idx : Nat) : ApplyStep Unit :=
  .update fun s =>
    { s with temp := { s.temp with leafSet := s.temp.leafSet.add s.self.getByte idx } }

/-- `m_pLeafSet->Remove` -/
def leafSetRemove (idx : Nat) : ApplyStep Unit :=
  .update fun s =>
    { s with temp := { s.temp with leafSet := s.temp.leafSet.remove s.self.getByte idx } }

/-- `m_pUpdates->AddUTXO` -/
def logAdd (utxo : UTXO) : ApplyStep Unit :=
  .update fun s => { s with temp := { s.temp with updates := s.temp.updates.addUTXO cr utxo } }

/-- `m_pUpdates->SpendUTXO` -/
def logSpend (output_id : Hash) : ApplyStep Unit :=
  .update fun s => { s with temp := { s.temp with updates := s.temp.updates.spendUTXO output_id } }

/-- `AddUTXO` -/
def addUTXO (header_height : BitVec 32) (output : Output) : ApplyStep Unit := do
  let pUTXO ← getUTXO (output.getOutputID cr)
  .failIf pUTXO.isSome (.validation .DUPLICATES)
  let leafIdx ← addLeaf cr (output.getOutputID cr).bytes
  leafSetAdd leafIdx
  logAdd cr { blockHeight := header_height, leafIndex := leafIdx, output }

/-- `SpendUTXO` -/
def spendUTXO (output_id : Hash) : ApplyStep UTXO := do
  match ← getUTXO output_id with
  | none => .fail (.validation .UTXO_MISSING)
  | some utxo =>
    let contained ← .get fun s => s.temp.leafSet.contains s.self.getByte utxo.leafIndex
    .failIf (!contained) (.validation .UTXO_MISSING)
    leafSetRemove utxo.leafIndex
    logSpend output_id
    pure utxo

/-- The loop over the outputs of a block. -/
def addOutputs (height : BitVec 32) : List Output → ApplyStep Unit
  | [] => pure ()
  | output :: rest => do
    addUTXO cr height output
    addOutputs height rest

/-- The loop over the inputs of a block. -/
def spendInputs (allow_historical_metadata_mismatch : Bool) : List Input → ApplyStep (List UTXO)
  | [] => pure []
  | input :: rest => do
    match ← getUTXO input.outputID with
    | none => .fail (.validation .UTXO_MISSING)
    | some utxo =>
      .failIf (!allow_historical_metadata_mismatch && (utxo.output.commitment != input.commitment ||
          utxo.output.receiverPubKey != input.outputPubKey)) (.validation .UTXO_MISMATCH)
      let spentUTXO ← spendUTXO input.outputID
      let coinsSpent ← spendInputs allow_historical_metadata_mismatch rest
      pure (spentUTXO :: coinsSpent)

/-- `ApplyBlockChanges` of the temporary cache -/
def applyBlockChanges (block : Block) (allow_historical_metadata_mismatch : Bool) :
    ApplyStep BlockUndo := do
  let prevHeader ← .get fun s => s.temp.header
  setBestHeader block.header
  let prev_offset := (prevHeader.map Header.kernelOffset).getD BigInt.zero
  .look fun _ => validateForBlock cr block.body block.header.kernelOffset prev_offset
  addOutputs cr (block.header.height.setWidth 32) block.body.outputs
  let coinsSpent ← spendInputs allow_historical_metadata_mismatch block.body.inputs
  .look fun s => s.temp.checkRoots cr s.self block.header
  pure { prevHeader, coinsSpent, coinsAdded := block.body.outputs.map (Output.getOutputID cr) }

/-- `Flush` of the temporary cache into the cache: header and coins, leaf set, MMR, and what is
    cleared afterwards -/
def flush : ApplyStep Unit := do
  let header ← .get fun s => s.temp.header
  match header with
  | none => pure ()
  | some _ =>
    .update fun s => { s with cache := s.cache.writeBatch cr s.temp.updates s.temp.header }
    .update fun s =>
      { s with
        cache :=
          { s.cache with
            leafSet := s.cache.leafSet.applyUpdates s.temp.leafSet.nextLeafIdx
              s.temp.leafSet.modifiedBytes }
        temp := { s.temp with leafSet := { s.temp.leafSet with modifiedBytes := ∅ } } }
    .update fun s =>
      { s with
        cache :=
          { s.cache with
            outputPMMR := s.cache.outputPMMR.batchWrite cr s.base.getHash s.temp.outputPMMR.firstLeaf
              s.temp.outputPMMR.leaves }
        temp := { s.temp with outputPMMR := s.temp.outputPMMR.flushed } }
    .update fun s => { s with temp := { s.temp with updates := ∅ } }

/-- `ApplyBlock` -/
def applyBlock (block : Block) (allow_historical_metadata_mismatch : Bool) : ApplyStep BlockUndo := do
  .update fun s => { s with temp := CoinsViewCache.new s.self }
  let undo ← applyBlockChanges cr block allow_historical_metadata_mismatch
  flush cr
  pure undo

end Steps

/-! ### Frame -/

open Effect ApplyState

section Frame
variable (cr : Crypto)

theorem addUTXO_keeps (height : BitVec 32) (output : Output) : Keeps kept (addUTXO cr height output) := by
  refine .bind (.look _) fun pUTXO => .bind (.look _) fun _ => ?_
  refine .bind (.bind (.look _) fun _ => .bind (.update fun _ => rfl) fun _ => .pure _) fun leafIdx => ?_
  exact .bind (.update fun _ => rfl) fun _ => .update fun _ => rfl

theorem spendUTXO_keeps (output_id : Hash) : Keeps kept (spendUTXO output_id) := by
  refine .bind (.look _) fun pUTXO => ?_
  cases pUTXO with
  | none => exact .look _
  | some utxo =>
    refine .bind (.look _) fun _ => .bind (.look _) fun _ => ?_
    exact .bind (.update fun _ => rfl) fun _ => .bind (.update fun _ => rfl) fun _ => .pure _

theorem addOutputs_keeps (height : BitVec 32) (outputs : List Output) :
    Keeps kept (addOutputs cr height outputs) := by
  induction outputs with
  | nil => exact .pure _
  | cons output outputs ih => exact .bind (addUTXO_keeps cr height output) fun _ => ih

theorem spendInputs_keeps (allow : Bool) (inputs : List Input) : Keeps kept (spendInputs allow inputs) := by
  induction inputs with
  | nil => exact .pure _
  | cons input inputs ih =>
    refine .bind (.look _) fun pUTXO => ?_
    cases pUTXO with
    | none => exact .look _
    | some utxo =>
      refine .bind (.look _) fun _ => ?_
      exact .bind (spendUTXO_keeps input.outputID) fun _ => .bind ih fun _ => .pure _

theorem applyBlockChanges_keeps (block : Block) (allow : Bool) :
    Keeps kept (applyBlockChanges cr block allow) := by
  refine .bind (.look _) fun prevHeader => .bind (.update fun _ => rfl) fun _ => ?_
  refine .bind (.look _) fun _ => .bind (addOutputs_keeps cr _ _) fun _ => ?_
  exact .bind (spendInputs_keeps allow _) fun _ => .bind (.look _) fun _ => .pure _

end Frame

/-! ### Success -/

section Success
variable {cr : Crypto} {s s' : ApplyState}

theorem addUTXO_ok {height : BitVec 32} {output : Output} {u : Unit}
    (h : addUTXO cr height output s = (.ok u, s')) :
    s.temp.addUTXO cr s.self height output = .ok s'.temp := by
  obtain ⟨_, _, hget, h⟩ := bind_eq_ok.mp h
  obtain ⟨hutxo, rfl⟩ := look_eq_ok.mp hget
  obtain ⟨_, _, hcheck, h⟩ := bind_eq_ok.mp h
  obtain ⟨hnone, rfl⟩ := failIf_eq_ok.mp hcheck
  cases h
  rw [Option.isSome_eq_false_iff, Option.isNone_iff_eq_none] at hnone
  exact addUTXO_eq_ok.mpr ⟨hnone ▸ hutxo, rfl⟩

theorem spendUTXO_ok {output_id : Hash} {utxo : UTXO} (h : spendUTXO output_id s = (.ok utxo, s')) :
    s.temp.spendUTXO s.self output_id = .ok (utxo, s'.temp) := by
  obtain ⟨pUTXO, _, hget, h⟩ := bind_eq_ok.mp h
  obtain ⟨hutxo, rfl⟩ := look_eq_ok.mp hget
  cases pUTXO with
  | none => exact absurd h fail_ne_ok
  | some u =>
    obtain ⟨_, _, hread, h⟩ := bind_eq_ok.mp h
    obtain ⟨rfl, rfl⟩ := get_eq_ok.mp hread
    obtain ⟨_, _, hcheck, h⟩ := bind_eq_ok.mp h
    obtain ⟨hin, rfl⟩ := failIf_eq_ok.mp hcheck
    cases h
    exact spendUTXO_eq_ok.mpr ⟨hutxo, by simpa using hin, rfl⟩

theorem self_eq (h : s'.kept = s.kept) : s'.self = s.self := by
  have hbase : s'.base = s.base := congrArg Prod.fst h
  have hcache : s'.cache = s.cache := congrArg Prod.snd h
  rw [self, self, hbase, hcache]

theorem addOutputs_ok {height : BitVec 32} {outputs : List Output} {u : Unit}
    (h : addOutputs cr height outputs s = (.ok u, s')) :
    s.temp.addOutputs cr s.self height outputs = .ok s'.temp := by
  induction outputs generalizing s with
  | nil =>
    cases h
    rfl
  | cons output outputs ih =>
    obtain ⟨_, s₁, hadd, hrest⟩ := bind_eq_ok.mp h
    have hself := addUTXO_keeps cr height output s
    rw [hadd] at hself
    have hrest := ih hrest
    rw [self_eq hself] at hrest
    exact bind_eq_ok.mpr ⟨s₁.temp, addUTXO_ok hadd, hrest⟩

theorem spendInputs_ok {allow : Bool} {inputs : List Input} {spent : List UTXO}
    (h : spendInputs allow inputs s = (.ok spent, s')) :
    s.temp.spendInputs s.self allow inputs = .ok (spent, s'.temp) := by
  induction inputs generalizing s spent with
  | nil =>
    cases h
    rfl
  | cons input inputs ih =>
    obtain ⟨pUTXO, _, hget, h⟩ := bind_eq_ok.mp h
    obtain ⟨hutxo, rfl⟩ := look_eq_ok.mp hget
    cases pUTXO with
    | none => exact absurd h fail_ne_ok
    | some utxo =>
      obtain ⟨_, _, hcheck, h⟩ := bind_eq_ok.mp h
      obtain ⟨hmatch, rfl⟩ := failIf_eq_ok.mp hcheck
      obtain ⟨u, s₃, hspend, h⟩ := bind_eq_ok.mp h
      obtain ⟨us, _, hrest, h⟩ := bind_eq_ok.mp h
      obtain ⟨rfl, rfl⟩ := pure_eq_ok.mp h
      have hself := spendUTXO_keeps input.outputID s
      rw [hspend] at hself
      have hrest := ih hrest
      rw [self_eq hself] at hrest
      have hspend := spendUTXO_ok hspend
      obtain rfl : utxo = u :=
        Option.some.inj (Except.ok.inj (hutxo.symm.trans (spendUTXO_eq_ok.mp hspend).1))
      exact spendInputs_cons_eq_ok.mpr ⟨utxo, us, s₃.temp,
        fun hallow => by simpa [hallow, Input.Matches] using hmatch, hspend, hrest, rfl⟩

theorem applyBlockChanges_ok {block : Block} {allow : Bool} {undo : BlockUndo}
    (h : applyBlockChanges cr block allow s = (.ok undo, s')) :
    s.temp.applyBlockChanges cr s.self block allow = .ok (undo, s'.temp) := by
  obtain ⟨_, _, hprev, h⟩ := bind_eq_ok.mp h
  obtain ⟨rfl, rfl⟩ := get_eq_ok.mp hprev
  obtain ⟨_, _, hset, h⟩ := bind_eq_ok.mp h
  obtain rfl := update_eq_ok.mp hset
  obtain ⟨_, _, hvalidate, h⟩ := bind_eq_ok.mp h
  obtain ⟨hsum, rfl⟩ := look_eq_ok.mp hvalidate
  obtain ⟨_, s₄, hadd, h⟩ := bind_eq_ok.mp h
  obtain ⟨spent, s₅, hspend, h⟩ := bind_eq_ok.mp h
  obtain ⟨_, _, hcheck, h⟩ := bind_eq_ok.mp h
  obtain ⟨hroots, rfl⟩ := look_eq_ok.mp hcheck
  obtain ⟨rfl, rfl⟩ := pure_eq_ok.mp h
  -- the base of the temporary cache is the same all the way
  have hself₄ : s₄.self = s.self := by
    have := addOutputs_keeps cr (block.header.height.setWidth 32) block.body.outputs
      { s with temp := { s.temp with header := some block.header } }
    rw [hadd] at this
    exact self_eq this
  have hself₅ : s₅.self = s.self := by
    have := spendInputs_keeps allow block.body.inputs s₄
    rw [hspend] at this
    exact (self_eq this).trans hself₄
  have hspend := spendInputs_ok hspend
  rw [hself₄] at hspend
  rw [hself₅] at hroots
  refine bind_eq_ok.mpr ⟨_, hsum, bind_eq_ok.mpr ⟨s₄.temp, addOutputs_ok hadd, ?_⟩⟩
  exact bind_eq_ok.mpr ⟨(spent, s₅.temp), hspend, bind_eq_ok.mpr ⟨_, hroots, rfl⟩⟩

end Success

/-! ### Flushing -/

section Flush
variable (cr : Crypto)

theorem flush_spec (s : ApplyState) : (flush cr s).1 = .ok () ∧
      ∃ temp', s.temp.flush cr s.self = .ok ((flush cr s).2.self, temp') := by
  obtain ⟨_, _, ⟨header, _, _, _⟩⟩ := s
  cases header with
  | none => exact ⟨rfl, _, rfl⟩
  | some hdr => exact ⟨rfl, _, rfl⟩

theorem applyBlock_cases (s : ApplyState) (block : Block) (allow : Bool) :
    (∃ e, (applyBlock cr block allow s).1 = .error e ∧ (applyBlock cr block allow s).2.kept = s.kept) ∨
      ∃ undo, (applyBlock cr block allow s).1 = .ok undo ∧
        s.cache.applyBlock cr s.base block allow = .ok (undo, (applyBlock cr block allow s).2.self) := by
  have hkeep := applyBlockChanges_keeps cr block allow { s with temp := new s.self }
  cases hrun : applyBlockChanges cr block allow { s with temp := new s.self } with
  | mk r s₁ =>
    rw [hrun] at hkeep
    cases r with
    | error e =>
      left
      have hend : applyBlock cr block allow s = (.error e, s₁) := bind_of_error hrun _
      rw [hend]
      exact ⟨e, rfl, hkeep⟩
    | ok undo =>
      right
      obtain ⟨hok, temp', hflush⟩ := flush_spec cr s₁
      have hwritten : flush cr s₁ = (.ok (), (flush cr s₁).2) := by rw [← hok]
      have hend : applyBlock cr block allow s = (.ok undo, (flush cr s₁).2) :=
        (bind_of_ok hrun _).trans (bind_of_ok hwritten _)
      rw [hend]
      refine ⟨undo, rfl, ?_⟩
      rw [self_eq hkeep] at hflush
      exact bind_eq_ok.mpr ⟨(undo, s₁.temp), applyBlockChanges_ok hrun,
        bind_eq_ok.mpr ⟨((flush cr s₁).2.self, temp'), hflush, rfl⟩⟩

end Flush

end ApplyStep

theorem CoinsViewCache.Same.observe_eq {base : CoinsView} {c d : CoinsViewCache} (h : c.Same d)
    (cr : Crypto) : (cache base c).observe cr = (cache base d).observe cr := by
  have hbyte : (cache base c).getByte = (cache base d).getByte := by
    funext k
    show (c.leafSet.modifiedBytes.lookup k).getD _ = (d.leafSet.modifiedBytes.lookup k).getD _
    rw [h.modifiedBytes]
  have hutxo : (cache base c).getUTXO = (cache base d).getUTXO := by
    funext id
    show (base.getUTXO id >>= fun u => replay u (c.updates.getActions id)) =
      base.getUTXO id >>= fun u => replay u (d.updates.getActions id)
    rw [h.actions]
  have hnext : (cache base c).getNextLeafIdx = (cache base d).getNextLeafIdx :=
    h.nextLeafIdx
  have hleaf : (cache base c).getLeaf cr = (cache base d).getLeaf cr := by
    rw [getLeaf, getLeaf, h.outputPMMR]
  have hnum : (cache base c).getNumLeaves = (cache base d).getNumLeaves := by
    rw [getNumLeaves, getNumLeaves, h.outputPMMR]
  have hhash : (cache base c).getHash = (cache base d).getHash := by
    rw [getHash, getHash, h.outputPMMR]
  unfold observe outputRoot leafsetRoot
  rw [hbyte, hutxo, hnext, hleaf, hnum, hhash, getBestHeader, getBestHeader, h.header]

/-- **Atomicity**: whatever the cache and the layers below it hold, a block that fails leaves all of
    it as it was, and any other block leads to the cache that applying it directly leads to. -/
theorem applyBlock_atomic (cr : Crypto) (s : ApplyState) (hbuilt : s.cache.outputPMMR.Built cr)
    (block : Block) (allow : Bool) : (∀ e, (ApplyStep.applyBlock cr block allow s).1 = .error e →
      (ApplyStep.applyBlock cr block allow s).2.base = s.base ∧
        (ApplyStep.applyBlock cr block allow s).2.cache = s.cache) ∧
    (∀ undo, (ApplyStep.applyBlock cr block allow s).1 = .ok undo →
      (ApplyStep.applyBlock cr block allow s).2.base = s.base ∧
        ∃ d, s.cache.applyBlockChanges cr s.base block allow = .ok (undo, d) ∧
          (ApplyStep.applyBlock cr block allow s).2.cache.Same d ∧
          (ApplyStep.applyBlock cr block allow s).2.self.observe cr =
            (cache s.base d).observe cr) := by
  rcases ApplyStep.applyBlock_cases cr s block allow with ⟨e, herr, hkept⟩ | ⟨undo, hok, happly⟩
  · constructor
    · intro e' _
      exact ⟨congrArg Prod.fst hkept, congrArg Prod.snd hkept⟩
    · intro undo hok
      rw [herr] at hok
      cases hok
  · constructor
    · intro e herr
      rw [hok] at herr
      cases herr
    · intro undo' hok'
      rw [hok] at hok'
      cases hok'
      obtain ⟨_, d, hself, hd, hsame⟩ := applyBlock_direct hbuilt.wf happly
      obtain ⟨hbase, hcache⟩ := cache.inj hself
      rw [hself, hcache]
      exact ⟨hbase, d, hd, hsame, hsame.observe_eq cr⟩

def afterPegIn : ApplyState :=
  (ApplyStep.applyBlock numberCrypto pegInBlock false ⟨.db emptyDB, emptyCache, emptyCache⟩).2

theorem built_afterPegIn : afterPegIn.cache.outputPMMR.Built numberCrypto :=
  .add (fun _ => BigInt.zero) _ (.add (fun _ => BigInt.zero) _ (.rewind 0 (.new 0)))

/-- The second block, with roots that are not those of what it leads to. -/
def wrongRoots : Block := numberBlock 2 spendBody BigInt.zero BigInt.zero 3

/-- A block that spends and creates coins is applied, and with other roots it throws after the coins
    were changed in the temporary cache. -/
theorem applyBlock_atomic_spend :
    (∃ undo d, undo.coinsSpent.length = 1 ∧ undo.coinsAdded.length = 1 ∧
      afterPegIn.cache.applyBlockChanges numberCrypto afterPegIn.base spendBlock false = .ok (undo, d) ∧
      (ApplyStep.applyBlock numberCrypto spendBlock false afterPegIn).2.cache.Same d) ∧
    (ApplyStep.applyBlock numberCrypto wrongRoots false afterPegIn).1 = .error (.validation .MMR_MISMATCH) ∧
    (ApplyStep.applyBlock numberCrypto wrongRoots false afterPegIn).2.temp.updates.keys.length = 2 ∧
    (ApplyStep.applyBlock numberCrypto wrongRoots false afterPegIn).2.cache = afterPegIn.cache := by
  have hatomic := applyBlock_atomic numberCrypto afterPegIn built_afterPegIn
  constructor
  · obtain ⟨-, d, hd, hsame, -⟩ := (hatomic spendBlock false).2 _ rfl
    exact ⟨_, d, rfl, rfl, hd, hsame⟩
  · exact ⟨rfl, rfl, ((hatomic wrongRoots false).1 _ rfl).2⟩

end Defcoin.Mweb
