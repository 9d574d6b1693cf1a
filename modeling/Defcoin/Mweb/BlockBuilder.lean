import Defcoin.Framework.Machine
import Defcoin.Mweb.LiveCoins
import Defcoin.Mweb.MemMmr
import Defcoin.Mweb.TemporaryCache
import Defcoin.Mweb.Transaction

/-! # Assembling a block

  `BlockBuilder` is offered transactions one by one and keeps those that pass its checks;
  `BuildBlock` aggregates them and computes the header of the block in a cache over the view.

  A block that was built is only held in memory, so its body has the form of an aggregate. Heights
  are not negative, as those of the blocks the builder is made for.
-/

namespace Defcoin.Mweb

open ByteCodec PostOrder Outcome

/-- `mw::Block` as `BuildNextBlock` returns it. -/
structure BuiltBlock where
  header : Header
  body : TxVectors

/-- A block that was read from a stream, as `BuildNextBlock` would have returned it. -/
def Block.built (block : Block) : BuiltBlock where
  header := block.header
  body := block.body.vectors

/-! ### `BuildNextBlock` -/

namespace CoinsViewCache
section BuildNextBlock
variable (cr : Crypto) (base : CoinsView)

/-- The loop over the inputs in `BuildNextBlock`, which spends without looking at the coin. -/
def spendCoins (c : CoinsViewCache) : List Input → Except Error CoinsViewCache
  | [] => .ok c
  | input :: rest => do
    let (_, c') ← c.spendUTXO base input.outputID
    c'.spendCoins rest

/-- The kernel offset of the new header, on top of that of the best header. -/
def headerOffset (bestHeader : Option Header) (offset : BlindingFactor) : Except Error BlindingFactor :=
  match bestHeader with
  | none => .ok offset
  | some prev => addBlindingFactors cr [prev.kernelOffset, offset] []

/-- `CoinsViewCache::BuildNextBlock` -/
def buildNextBlock (c : CoinsViewCache) (height : BitVec 31) (transactions : List Transaction) :
    Except Error BuiltBlock := do
  let tx ← aggregate cr transactions
  let kernelMMR := MemMMR.ofLeaves cr (tx.body.kernels.map Kernel.serialize)
  let added ← c.addOutputs cr base (height.setWidth 32) tx.body.outputs
  let spent ← added.spendCoins base tx.body.inputs
  let v := CoinsView.cache base spent
  let outputRoot ← v.outputRoot cr
  let kernelRoot ← kernelMMR.root cr
  let kernelOffset ← headerOffset cr spent.header tx.kernelOffset
  pure {
    header :=
      { height, outputRoot, kernelRoot
        leafsetRoot := v.leafsetRoot cr
        kernelOffset
        stealthOffset := tx.stealthOffset
        outputMMRSize := BitVec.ofNat 64 v.getNumLeaves
        kernelMMRSize := BitVec.ofNat 64 kernelMMR.getNumLeaves }
    body := tx.body }

end BuildNextBlock

theorem spendCoins_eq (base : CoinsView) (c : CoinsViewCache) (inputs : List Input) :
    c.spendCoins base inputs = (c.spendInputs base true inputs).map Prod.snd := by
  induction inputs generalizing c with
  | nil => rfl
  | cons input inputs ih =>
    rw [spendCoins, spendInputs, spendUTXO]
    rcases c.getUTXO base input.outputID with e | (- | utxo)
    · rfl
    · rfl
    · by_cases hleaf : (!c.leafSet.contains base.getByte utxo.leafIndex) = true
      · simp only [bind, Except.bind, hleaf]
        rfl
      · simp only [bind, Except.bind, hleaf, if_false, Bool.false_eq_true, pure, Except.pure]
        rw [ih]
        rcases spendInputs base _ true inputs with e | ⟨_, _⟩
        · rfl
        · rfl

end CoinsViewCache

/-! ### The builder -/

/-- `BlockBuilder`; `m_pCoinsView` is a cache over the view it was given. -/
structure BlockBuilder where
  height : BitVec 31
  weight : Nat
  coinsView : CoinsView
  stagedTxs : List Transaction
  stagedOutputs : List Hash

/-- `HasCoin` -/
def CoinsView.hasCoin (v : CoinsView) (output_id : Hash) : Except Error Bool := do
  let pUTXO ← v.getUTXO output_id
  pure pUTXO.isSome

/-- A `try` block that catches every `std::exception`: whether it ran to its end. A failed `assert`
    is no exception. -/
def completes {α : Type} : Except Error α → Except Error Bool
  | .ok _ => .ok true
  | .error (.assertion expr) => .error (.assertion expr)
  | .error _ => .ok false

namespace BlockBuilder

/-- `BlockBuilder(height, pCoinsView)` -/
def new (height : BitVec 31) (pCoinsView : CoinsView) : BlockBuilder where
  height
  weight := 0
  coinsView := .cache pCoinsView (CoinsViewCache.new pCoinsView)
  stagedTxs := []
  stagedOutputs := []

section Operations
variable (cr : Crypto)

/-- The comparison of the pegins a transaction is offered with and those of its kernels. -/
def checkPegIns (tx : Transaction) (pegins : List PegInCoin) : Except Error Bool :=
  match tx.body.getPegInAmount with
  | none => .ok false
  | some actual_amount => do
    let expected_amount ← (pegins.foldlM (fun sum pegin => toAmount (sum + pegin.amount)) 0).mapError
      fun _ => .overflow
    let pegin_ids := pegins.map PegInCoin.kernelID
    let pegin_coins := tx.body.getPegIns cr
    .ok (decide (actual_amount = expected_amount) && decide pegin_ids.Nodup &&
      decide (pegin_coins.length = pegins.length) &&
      pegin_coins.all fun pegin => decide (pegin.kernelID ∈ pegin_ids))

/-- The sum of what is staged and of the transaction, which must not be the point at infinity. -/
def checkSums (b : BlockBuilder) (tx : Transaction) : Except Error Bool :=
  completes do
    let commit ← addCommitments cr
      ((tx.body.inputs ++ (collect b.stagedTxs).inputs).map Input.commitment)
      ((tx.body.outputs ++ (collect b.stagedTxs).outputs).map Output.commitment)
    if commit.isZero then throw (.assertion "!commit.IsZero()")

def inputsAvailable (b : BlockBuilder) : List Input → Except Error Bool
  | [] => .ok true
  | input :: rest => do
    let onChain ← b.coinsView.hasCoin input.outputID
    if !onChain && decide (input.outputID ∉ b.stagedOutputs) then .ok false
    else b.inputsAvailable rest

def outputsNew (b : BlockBuilder) : List Output → Except Error Bool
  | [] => .ok true
  | output :: rest => do
    let onChain ← b.coinsView.hasCoin (output.getOutputID cr)
    if onChain then .ok false
    else if output.getOutputID cr ∈ b.stagedOutputs then .ok false
    else b.outputsNew rest

/-- The checks of `AddTransaction`, in order. -/
def admits (b : BlockBuilder) (tx : Transaction) (pegins : List PegInCoin) : Except Error Bool :=
  .ok (decide (Weight.calculate tx.body.vectors + b.weight ≤ Weight.MAX_BLOCK_WEIGHT)) <&&>
    checkPegIns cr tx pegins <&&> completes (tx.validate cr) <&&> b.checkSums cr tx <&&>
    b.inputsAvailable tx.body.inputs <&&> b.outputsNew cr tx.body.outputs

/-- The insertion of the outputs into `m_stagedOutputs`. -/
def stageOutputs (staged : List Hash) : List Output → Except Error (List Hash)
  | [] => .ok staged
  | output :: rest =>
    if output.getOutputID cr ∈ staged then .error (.assertion "inserted.second")
    else stageOutputs (staged ++ [output.getOutputID cr]) rest

/-- `BlockBuilder::AddTransaction` -/
def addTransaction (b : BlockBuilder) (tx : Transaction) (pegins : List PegInCoin) :
    Except Error (Bool × BlockBuilder) := do
  let admitted ← b.admits cr tx pegins
  if admitted then
    let stagedOutputs ← stageOutputs cr b.stagedOutputs tx.body.outputs
    pure (true, { b with
      stagedTxs := b.stagedTxs ++ [tx]
      weight := b.weight + Weight.calculate tx.body.vectors
      stagedOutputs })
  else pure (false, b)

/-- `BlockBuilder::BuildBlock` -/
def buildBlock (b : BlockBuilder) : Except Error BuiltBlock :=
  (CoinsViewCache.new b.coinsView).buildNextBlock cr b.coinsView b.height b.stagedTxs

/-- Transactions are offered with their pegins; the answer says whether one was accepted. -/
def machine : Machine BlockBuilder (Transaction × List PegInCoin) Bool Error where
  step := fun b offer => b.addTransaction cr offer.1 offer.2

end Operations

/-! ### What the checks say -/

variable {cr : Crypto} {s : CoinsState} {b : BlockBuilder}

theorem completes_eq_true {α : Type} {x : Except Error α} :
    completes x = .ok true ↔ ∃ a, x = .ok a := by
  rcases x with e | a
  · rcases e with _ | _ | _ | _ <;> exact iff_of_false nofun fun h => nomatch h.choose_spec
  · exact iff_of_true rfl ⟨a, rfl⟩

theorem checkSums_eq_true {tx : Transaction} : b.checkSums cr tx = .ok true ↔
    ∃ c, addCommitments cr ((tx.body.inputs ++ (collect b.stagedTxs).inputs).map Input.commitment)
        ((tx.body.outputs ++ (collect b.stagedTxs).outputs).map Output.commitment) = .ok c ∧
      c.isZero = false := by
  rw [checkSums, completes_eq_true]
  constructor
  · intro h
    obtain ⟨_, h⟩ := h
    obtain ⟨c, hc, h⟩ := bind_eq_ok.mp h
    refine ⟨c, hc, ?_⟩
    by_contra hzero
    rw [if_pos (by simpa using hzero)] at h
    cases h
  · intro h
    obtain ⟨c, hc, hzero⟩ := h
    refine ⟨(), bind_eq_ok.mpr ⟨c, hc, ?_⟩⟩
    rw [hzero]
    rfl

section Shown
variable (hshows : b.coinsView.Shows cr s)
include hshows

theorem hasCoin_eq (id : Hash) : b.coinsView.hasCoin id = .ok (s.utxos id).isSome := by
  rw [CoinsView.hasCoin, hshows.utxo]
  rfl

theorem inputsAvailable_eq_true {inputs : List Input} : b.inputsAvailable inputs = .ok true ↔
    ∀ i ∈ inputs, s.utxos i.outputID ≠ none ∨ i.outputID ∈ b.stagedOutputs := by
  induction inputs with
  | nil => exact iff_of_true rfl (by simp)
  | cons i inputs ih =>
    rw [inputsAvailable, hasCoin_eq hshows, List.forall_mem_cons, ← ih, Option.ne_none_iff_isSome]
    simp only [bind, Except.bind]
    rcases (s.utxos i.outputID).isSome with - | -
    · by_cases hmem : i.outputID ∈ b.stagedOutputs
      · simp [hmem]
      · simp [hmem]
    · simp

theorem outputsNew_eq_true {outputs : List Output} : b.outputsNew cr outputs = .ok true ↔
    ∀ o ∈ outputs, s.utxos (o.getOutputID cr) = none ∧ o.getOutputID cr ∉ b.stagedOutputs := by
  induction outputs with
  | nil => exact iff_of_true rfl (by simp)
  | cons o outputs ih =>
    rw [outputsNew, hasCoin_eq hshows, List.forall_mem_cons, ← ih]
    simp only [bind, Except.bind]
    rcases s.utxos (o.getOutputID cr) with - | _
    · by_cases hmem : o.getOutputID cr ∈ b.stagedOutputs
      · simp [hmem]
      · simp [hmem]
    · simp

end Shown

theorem stageOutputs_eq_ok {staged staged' : List Hash} {outputs : List Output}
    (h : stageOutputs cr staged outputs = .ok staged') :
    staged' = staged ++ outputs.map (Output.getOutputID cr) := by
  induction outputs generalizing staged with
  | nil =>
    cases h
    simp
  | cons o outputs ih =>
    rw [stageOutputs] at h
    split at h
    · cases h
    · rw [ih h]
      simp

/-- What an offered transaction was checked for, if it was accepted. -/
structure Admitted (cr : Crypto) (s : CoinsState) (b : BlockBuilder) (tx : Transaction)
    (pegins : List PegInCoin) : Prop where
  weight : Weight.calculate tx.body.vectors + b.weight ≤ Weight.MAX_BLOCK_WEIGHT
  pegins : checkPegIns cr tx pegins = .ok true
  valid : tx.validate cr = .ok ()
  sums : ∃ c, addCommitments cr
      ((tx.body.inputs ++ (collect b.stagedTxs).inputs).map Input.commitment)
      ((tx.body.outputs ++ (collect b.stagedTxs).outputs).map Output.commitment) = .ok c ∧
    c.isZero = false
  inputs : ∀ i ∈ tx.body.inputs, s.utxos i.outputID ≠ none ∨ i.outputID ∈ b.stagedOutputs
  outputs : ∀ o ∈ tx.body.outputs,
    s.utxos (o.getOutputID cr) = none ∧ o.getOutputID cr ∉ b.stagedOutputs

theorem admits_eq_true (hshows : b.coinsView.Shows cr s) {tx : Transaction} {pegins : List PegInCoin} :
    b.admits cr tx pegins = .ok true ↔ Admitted cr s b tx pegins := by
  rw [admits, andM_eq_ok_true, andM_eq_ok_true, andM_eq_ok_true,
    andM_eq_ok_true, andM_eq_ok_true, completes_eq_true, checkSums_eq_true,
    inputsAvailable_eq_true hshows, outputsNew_eq_true hshows, Except.ok.injEq, decide_eq_true_iff]
  constructor
  · intro h
    obtain ⟨hweight, hpegins, ⟨_, hvalid⟩, hsums, hinputs, houtputs⟩ := h
    exact ⟨hweight, hpegins, hvalid, hsums, hinputs, houtputs⟩
  · intro h
    exact ⟨h.weight, h.pegins, ⟨(), h.valid⟩, h.sums, h.inputs, h.outputs⟩

theorem addTransaction_cases {b' : BlockBuilder} {tx : Transaction} {pegins : List PegInCoin}
    {accepted : Bool} (hshows : b.coinsView.Shows cr s)
    (h : b.addTransaction cr tx pegins = .ok (accepted, b')) :
    (accepted = false ∧ b' = b) ∨ (accepted = true ∧ Admitted cr s b tx pegins ∧
      b' = { b with
        stagedTxs := b.stagedTxs ++ [tx]
        weight := b.weight + Weight.calculate tx.body.vectors
        stagedOutputs := b.stagedOutputs ++ tx.body.outputs.map (Output.getOutputID cr) }) := by
  obtain ⟨admitted, hadmit, h⟩ := bind_eq_ok.mp h
  rcases admitted with - | -
  · cases h
    exact Or.inl ⟨rfl, rfl⟩
  · obtain ⟨_, hstaged, h⟩ := bind_eq_ok.mp h
    cases h
    obtain rfl := stageOutputs_eq_ok hstaged
    exact Or.inr ⟨rfl, (admits_eq_true hshows).mp hadmit, rfl⟩

end BlockBuilder

end Defcoin.Mweb
