import Coinshift.Authorization
import Coinshift.SwapRules

/-! Validation, connection and disconnection of blocks.
Validation reads the state before the block only; connection and disconnection change the
coin ledger and the swap tables one transaction at a time, neither half reading the other. -/
namespace Coinshift
open Checked

variable {F : Type} (lib : Externals F)

def Transaction.createdOutputs (tx : Transaction) : List PointedOutput :=
  tx.outputs.zipIdx.map (fun o => ⟨.regular (tx.txid lib) (UInt32.ofNat o.2),o.1⟩)

def coinbaseOutputs (merkleRoot : MerkleRoot) (coinbase : List Output) : List PointedOutput :=
  coinbase.zipIdx.map (fun o => ⟨.coinbase merkleRoot (UInt32.ofNat o.2),o.1⟩)

def Transaction.requests (tx : Transaction) : List (Bool × Hash) :=
  tx.inputs.map (fun input => (false,input.2)) ++ (tx.createdOutputs lib).map (fun p => (true,utxoHash lib p))

section Validation

variable (s : State F)

def fillTransaction (tx : Transaction) : Except Error FilledTransaction := do
  let spentUtxos ← collect (fun input => okOr (s.utxos.tryGet input.1) (.noUtxo input.1)) tx.inputs
  pure ⟨tx,spentUtxos⟩

def FilledTransaction.inputs (f : FilledTransaction) : List ((OutPoint × Hash) × Output) :=
  f.transaction.inputs.zip f.spentUtxos

def validateUtxoHashes (f : FilledTransaction) : Except Error Unit :=
  checkAll (fun input =>
    let computed := utxoHash lib ⟨input.1.1,input.2⟩
    ensure (input.1.2 = computed) (.utxoHashMismatch computed input.1.1 input.1.2)) f.inputs

def addSpentValue (valueIn : Amount) (utxo : Output) : Except Error Amount := do
  ensure (utxo.content.isWithdrawal = false) .spendWithdrawalOutput
  okOr (valueIn.checkedAdd utxo.getValue) .amountOverflow

def validateFilledTransaction (f : FilledTransaction) : Except Error Amount := do
  validateUtxoHashes lib f
  let valueIn ← f.spentUtxos.foldlM addSpentValue Amount.zero
  let valueOut ← okOr (Amount.checkedSum (f.transaction.outputs.map Output.getValue)) .amountOverflow
  ensure (valueOut ≤ valueIn) .notEnoughValueIn
  okOr (valueIn.checkedSub valueOut) .amountUnderflow

def spentWithExemption (filled : List FilledTransaction) : List (Output × Bool) :=
  filled.flatMap (fun f => f.spentUtxos.map (fun utxo =>
    (utxo,f.transaction.data.isSwapClaim && utxo.content.isSwapPending)))

def checkAddresses (authorizations : List Authorization) (filled : List FilledTransaction) :
    Except Error Unit :=
  checkAll (fun pair => ensure (pair.2.2 = true ∨ pair.1.getAddress lib = pair.2.1.address)
    .wrongPubKeyForAddress) (authorizations.zip (spentWithExemption filled))

/- The swap rules of `validateTransaction`: as in a block, but for claims. -/
def validateMempoolTransaction (tx : Transaction) (filled : FilledTransaction) : Except Error Unit :=
  match tx.data with
  | .swapCreate _ => validateSwapCreate lib s tx filled
  | .swapClaim .. => validateSwapClaim s tx
  | .swapAccept .. => validateSwapAccept s tx filled
  | .regular => validateNoLockedOutputs s tx

def validateTransaction (ctxt : BatchVerificationContext) (tx : AuthorizedTransaction) :
    Except Error Amount := do
  let filled ← fillTransaction s tx.transaction
  validateMempoolTransaction lib s tx.transaction filled
  checkAddresses lib tx.authorizations [filled]
  (verifyAuthorizedTransaction lib ctxt tx).mapError (fun _ => .authorization)
  validateFilledTransaction lib filled

/- The limits grow by 4% a month for ten years; the source's floating point is exact here. -/
def limitAt (start height : Nat) : Nat :=
  let month := height / 4320
  if month < 120 then start * 104 ^ month / 100 ^ month else start * 111

def bodySigopsLimit (height : Nat) : Nat := limitAt 42800 height

def bodySizeLimit (height : Nat) : Nat := limitAt 8388608 height

structure PrevalidatedBlock where
  filledTransactions : List FilledTransaction
  computedMerkleRoot : MerkleRoot
  totalFees : Amount
  coinbaseValue : Amount
  nextHeight : Nat
  accumulatorDiff : AccumulatorDiff
  deriving DecidableEq, Repr

structure Gathered where
  allInputKeys : List OutPoint
  accumulatorDiffTxs : List (Bool × Hash)
  filledTransactions : List FilledTransaction
  totalFees : Amount

def Gathered.empty : Gathered := ⟨[],[],[],Amount.zero⟩

def gatherTransaction (accumulator : F) (g : Gathered) (tx : Transaction) : Except Error Gathered := do
  let filled ← fillTransaction s tx
  let verified ← verifyProof lib accumulator tx.proof (tx.inputs.map (·.2))
  ensure (verified = true) (.utreexoProofFailed (tx.txid lib))
  validateBlockTransaction lib s tx filled
  let fee ← validateFilledTransaction lib filled
  let totalFees ← okOr (g.totalFees.checkedAdd fee) .amountOverflow
  pure ⟨g.allInputKeys ++ tx.inputs.map (·.1),g.accumulatorDiffTxs ++ tx.requests lib,
    g.filledTransactions ++ [filled],totalFees⟩

def coinbaseRequests (merkleRoot : MerkleRoot) (coinbase : List Output) : List (Bool × Hash) :=
  (coinbaseOutputs merkleRoot coinbase).map (fun p => (true,utxoHash lib p))

def prevalidate (ctxt : BatchVerificationContext) (header : Header) (body : Body) :
    Except Error PrevalidatedBlock := do
  ensure (header.prevSideHash = s.tip) (.invalidHeader (.prevSideHash s.tip header.prevSideHash))
  let nextHeight := s.nextHeight
  ensure (body.authorizations.length ≤ bodySigopsLimit nextHeight) .tooManySigops
  ensure ((encodeBody lib body).length ≤ bodySizeLimit nextHeight) .bodyTooLarge
  let accumulator := s.accumulator lib
  let gathered ← body.transactions.foldlM (gatherTransaction lib s accumulator) Gathered.empty
  let computedMerkleRoot ← Body.computeMerkleRoot lib body.coinbase gathered.filledTransactions
  ensure (computedMerkleRoot = header.merkleRoot) (.invalidBody header.merkleRoot computedMerkleRoot)
  -- the source sorts the keys and looks for equal neighbours
  ensure gathered.allInputKeys.Nodup .utxoDoubleSpent
  let coinbaseValue ← okOr (Amount.checkedSum (body.coinbase.map Output.getValue)) .amountOverflow
  let accumulatorDiff := (AccumulatorDiff.empty.recordAll
    (coinbaseRequests lib computedMerkleRoot body.coinbase)).recordAll gathered.accumulatorDiffTxs
  ensure (coinbaseValue ≤ gathered.totalFees) .notEnoughFees
  checkAddresses lib body.authorizations gathered.filledTransactions
  (verifyAuthorizations lib ctxt body).mapError (fun _ => .authorization)
  let applied ← applyDiff lib accumulator accumulatorDiff
  ensure (lib.getRoots applied = header.roots) .utreexoRootsMismatch
  pure ⟨gathered.filledTransactions,computedMerkleRoot,gathered.totalFees,coinbaseValue,nextHeight,
    accumulatorDiff⟩

end Validation

section Connection

def Ledger.putOutput (l : Ledger) (p : PointedOutput) : Ledger :=
  { l with utxos := l.utxos.put p.outpoint p.output }

def Ledger.spend (txid : Txid) (l : Ledger) (input : (OutPoint × Hash) × Nat) : Except Error Ledger := do
  let spentOutput ← okOr (l.utxos.tryGet input.1.1) (.noUtxo input.1.1)
  pure ⟨l.utxos.delete input.1.1,l.stxos.put input.1.1 ⟨spentOutput,.regular txid (UInt32.ofNat input.2)⟩⟩

def connectLedger (l : Ledger) (tx : Transaction) : Except Error Ledger := do
  let l ← tx.inputs.zipIdx.foldlM (Ledger.spend (tx.txid lib)) l
  pure ((tx.createdOutputs lib).foldl Ledger.putOutput l)

def Transaction.escrowOutpoints (tx : Transaction) (swapId : SwapId) : List OutPoint :=
  ((tx.createdOutputs lib).filter (fun p => (p.output.escrowFor swapId).isSome)).map (·.outpoint)

def SwapTables.unlockIfLockedTo (swapId : SwapId) (w : SwapTables) (outpoint : OutPoint) : SwapTables :=
  if w.isOutputLockedToSwap outpoint = some swapId then w.unlockOutputFromSwap outpoint else w

def Swap.ofCreate (create : SwapCreate) (height : Nat) (creator : Option Address) : Swap :=
  Swap.new create.swapId .l2ToL1 create.parentChain (SwapTxId.fromBytes create.l1TxidBytes)
    (some create.requiredConfirmations) create.l2Recipient (Amount.fromSat create.l2Amount)
    create.l1RecipientAddress (Amount.fromSat create.l1Amount) height
    (some (height + create.parentChain.defaultSwapExpirationBlocks)) creator

/- A claim is trusted: the record is advanced to `ReadyToClaim` first when it is not there yet. -/
def SwapTables.advanceToReady (w : SwapTables) (swap : Swap) : SwapTables :=
  if swap.state = .readyToClaim then w else w.saveSwap { swap with state := .readyToClaim }

def connectSwap (nextHeight : Nat) (w : SwapTables) (filled : FilledTransaction) : Except Error SwapTables :=
  match filled.transaction.data with
  | .swapCreate create => do
      let swap := Swap.ofCreate create nextHeight (filled.spentUtxos.head?.map (·.address))
      ensure (swap.id = create.swapId) (.invalidTransaction .swapIdMismatchInSwapCreate)
      let locked := (filled.transaction.escrowOutpoints lib create.swapId).foldl
        (fun w outpoint => w.lockOutputToSwap outpoint create.swapId) w
      locked.trySaveSwap swap
  | .swapClaim swapId l2ClaimerAddress _ => do
      let swap ← okOr (w.getSwap swapId) (.swapNotFound swapId)
      let advanced := w.advanceToReady swap
      ensure (swap.l2Recipient.isSome ∨ l2ClaimerAddress.isSome)
        (.invalidTransaction .openClaimWithoutClaimer)
      let unlocked := (filled.transaction.inputs.map (·.1)).foldl (SwapTables.unlockIfLockedTo swapId) advanced
      pure (unlocked.saveSwap swap.markCompleted)
  | .swapAccept swapId l2ClaimerAddress => pure (w.reserveSwap swapId l2ClaimerAddress nextHeight)
  | .regular => pure w

def connectPrevalidated (s : State F) (header : Header) (body : Body) (pre : PrevalidatedBlock) :
    Except Error (State F) := do
  ensure (s.tip = header.prevSideHash) (.invalidHeader (.prevSideHash s.tip header.prevSideHash))
  ensure (pre.computedMerkleRoot = header.merkleRoot) (.invalidBody pre.computedMerkleRoot header.merkleRoot)
  let coins := (coinbaseOutputs pre.computedMerkleRoot body.coinbase).foldl Ledger.putOutput s.toLedger
  let tables ← pre.filledTransactions.foldlM
    (both (fun l filled => connectLedger lib l filled.transaction) (connectSwap lib pre.nextHeight))
    (coins,s.toSwapTables)
  let accumulator ← applyDiff lib (s.accumulator lib) pre.accumulatorDiff
  pure { s with
    toLedger := tables.1
    toSwapTables := tables.2
    tip := some (header.hash lib)
    height := some pre.nextHeight
    utreexoAccumulator := some accumulator }

end Connection

section Disconnection

def Ledger.removeOutput (l : Ledger) (p : PointedOutput) : Except Error Ledger := do
  ensure ((l.utxos.tryGet p.outpoint).isSome) (.noUtxo p.outpoint)
  pure { l with utxos := l.utxos.delete p.outpoint }

def Ledger.unspend (l : Ledger) (outpoint : OutPoint) : Except Error Ledger := do
  let spentOutput ← okOr (l.stxos.tryGet outpoint) (.noStxo outpoint)
  pure ⟨l.utxos.put outpoint spentOutput.output,l.stxos.delete outpoint⟩

def disconnectLedger (l : Ledger) (tx : Transaction) : Except Error Ledger := do
  let l ← (tx.createdOutputs lib).reverse.foldlM Ledger.removeOutput l
  (tx.inputs.map (·.1)).reverse.foldlM Ledger.unspend l

/- Every `SwapPending` output of the transaction, whichever swap it is tagged with. -/
def Transaction.pendingOutpoints (tx : Transaction) : List OutPoint :=
  ((tx.createdOutputs lib).filter (·.output.content.isSwapPending)).map (·.outpoint)

def SwapTables.lockIfUnlocked (swapId : SwapId) (w : SwapTables) (outpoint : OutPoint) : SwapTables :=
  if w.isOutputLockedToSwap outpoint = none then w.lockOutputToSwap outpoint swapId else w

def disconnectSwap (w : SwapTables) (tx : Transaction) : Except Error SwapTables :=
  match tx.data with
  | .swapCreate create =>
      let unlocked := (tx.pendingOutpoints lib).reverse.foldl (SwapTables.unlockIfLockedTo create.swapId) w
      pure ((unlocked.clearSwapReservation create.swapId).deleteSwapUnchecked create.swapId)
  | .swapClaim swapId _ _ => do
      let swap ← okOr (w.getSwap swapId) (.swapNotFound swapId)
      let relocked := (tx.inputs.map (·.1)).reverse.foldl (SwapTables.lockIfUnlocked swapId) w
      pure (if swap.state = .completed then relocked.saveSwap { swap with state := .readyToClaim }
        else relocked)
  | .swapAccept swapId _ => pure (w.clearSwapReservation swapId)
  | .regular => pure w

/- The accumulator requests of a disconnection, in the order of its loops. -/
def Transaction.undoRequests (tx : Transaction) : List (Bool × Hash) :=
  (tx.createdOutputs lib).reverse.map (fun p => (false,utxoHash lib p)) ++
    tx.inputs.reverse.map (fun input => (true,input.2))

def disconnectDiff (header : Header) (body : Body) : AccumulatorDiff :=
  (AccumulatorDiff.empty.recordAll (body.transactions.reverse.flatMap (Transaction.undoRequests lib))).recordAll
    ((coinbaseOutputs header.merkleRoot body.coinbase).reverse.map (fun p => (false,utxoHash lib p)))

def previousTip (header : Header) (height : Nat) : Except Error (Option BlockHash × Option Nat) :=
  match header.prevSideHash, height with
  | none, 0 => .ok (none,none)
  | none, _ + 1 => .error .noTip
  | some _, 0 => .error .noTip
  | some prevSideHash, previous + 1 => .ok (some prevSideHash,some previous)

def disconnectTip (s : State F) (header : Header) (body : Body) : Except Error (State F) := do
  let tipHash ← okOr s.tip .noTip
  ensure (tipHash = header.hash lib) (.invalidHeader (.blockHash tipHash (header.hash lib)))
  let tables ← body.transactions.reverse.foldlM (both (disconnectSwap lib) (disconnectLedger lib))
    (s.toSwapTables,s.toLedger)
  let coins ← (coinbaseOutputs header.merkleRoot body.coinbase).reverse.foldlM Ledger.removeOutput tables.2
  let height ← okOr s.height .panic
  let previous ← previousTip header height
  let accumulator ← applyDiff lib (s.accumulator lib) (disconnectDiff lib header body)
  pure { s with
    toLedger := coins
    toSwapTables := tables.1
    tip := previous.1
    height := previous.2
    utreexoAccumulator := some accumulator }

end Disconnection

end Coinshift
