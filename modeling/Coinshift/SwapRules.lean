import Coinshift.State

/-! The swap rules of block validation and of the mempool.
Each validator reads the state before the block: what the block itself does to locks,
records and reservations is not seen by them. -/
namespace Coinshift
open Checked

variable {F : Type} (lib : Externals F) (s : State F)

def amountPaidTo (tx : Transaction) (recipient : Address) : Except Error Amount :=
  okOr (Amount.checkedSum ((tx.outputs.filter (·.address = recipient)).map Output.getValue))
    (.invalidTransaction .outputValueOverflow)

def Output.escrowFor (swapId : SwapId) (o : Output) : Option Amount :=
  match o.content with
  | .swapPending value tag => if tag = swapId then some value else none
  | _ => none

/- An input of a `SwapCreate` may be locked to the very swap being created. -/
def checkCreateInput (swapId : SwapId) (outpoint : OutPoint) : Except Error Unit :=
  match s.isOutputLockedToSwap outpoint with
  | none => .ok ()
  | some lockedSwapId =>
      if lockedSwapId = swapId then .ok ()
      else match s.getSwap lockedSwapId with
        | some _ => .error (.invalidTransaction (.inputLocked outpoint lockedSwapId))
        | none => .error (.invalidTransaction (.orphanedLock outpoint lockedSwapId))

def validateSwapCreate (tx : Transaction) (filled : FilledTransaction) : Except Error Unit :=
  match tx.data with
  | .swapCreate create => do
      let firstInput ← okOr filled.spentUtxos.head? (.invalidTransaction .swapCreateWithoutInputs)
      let computedSwapId := SwapId.fromL2ToL1 lib create.l1RecipientAddress
        (Amount.fromSat create.l1Amount) firstInput.address create.l2Recipient
      ensure (computedSwapId = create.swapId)
        (.invalidTransaction (.swapIdMismatch create.swapId computedSwapId))
      ensure (s.getSwap computedSwapId = none) (.invalidTransaction (.swapAlreadyExists computedSwapId))
      ensure (create.l2Amount ≠ 0) (.invalidTransaction .zeroL2Amount)
      ensure (tx.outputs ≠ []) (.invalidTransaction .noOutputs)
      checkAll (fun input => checkCreateInput s create.swapId input.1) tx.inputs
      let totalInputValue ← okOr (Amount.checkedSum (filled.spentUtxos.map Output.getValue))
        (.invalidTransaction .inputValueOverflow)
      let requiredAmount := Amount.fromSat create.l2Amount
      ensure (requiredAmount ≤ totalInputValue)
        (.invalidTransaction (.insufficientFunds requiredAmount totalInputValue))
      let escrowedValue ← okOr (Amount.checkedSum (tx.outputs.filterMap (Output.escrowFor create.swapId)))
        (.invalidTransaction .swapPendingOverflow)
      ensure (requiredAmount ≤ escrowedValue)
        (.invalidTransaction (.escrowTooSmall requiredAmount computedSwapId escrowedValue))
  | _ => .error (.invalidTransaction .expectedSwapCreate)

def validateNoLockedOutputs (tx : Transaction) : Except Error Unit :=
  if tx.data.isSwapClaim then .ok ()
  else checkAll (fun input =>
    match s.isOutputLockedToSwap input.1 with
    | some lockedSwapId => .error (.invalidTransaction (.spendsLockedOutput input.1 lockedSwapId))
    | none => .ok ()) tx.inputs

def validatingHeight : Nat := s.nextHeight

def validateSwapAccept (tx : Transaction) (filled : FilledTransaction) : Except Error Unit :=
  match tx.data with
  | .swapAccept swapId l2ClaimerAddress => do
      validateNoLockedOutputs s tx
      let swap ← okOr (s.getSwap swapId) (.swapNotFound swapId)
      ensure (swap.l2Recipient = none) (.invalidTransaction (.notOpenSwap swapId))
      let height := validatingHeight s
      ensureSome swap.expiresAtHeight (fun expiresAt => height < expiresAt)
        (fun expiresAt => .invalidTransaction (.swapExpired swapId expiresAt height))
      ensureSome (s.getSwapReservation swapId) (fun r => ¬ r.isLiveAt swap.parentChain height)
        (fun r => .invalidTransaction (.alreadyReserved swapId r.claimer (r.expiresAt swap.parentChain)))
      ensure (∃ utxo ∈ filled.spentUtxos, utxo.address = l2ClaimerAddress)
        (.invalidTransaction (.acceptNotOwned l2ClaimerAddress))
  | _ => .error (.invalidTransaction .expectedSwapAccept)

def checkClaimInput (swapId : SwapId) (outpoint : OutPoint) : Except Error Bool :=
  match s.isOutputLockedToSwap outpoint with
  | none => .ok false
  | some lockedSwapId =>
      if lockedSwapId = swapId then .ok true
      else .error (.invalidTransaction (.inputLockedToDifferentSwap outpoint lockedSwapId))

def validateSwapClaimConsensus (tx : Transaction) : Except Error Unit :=
  match tx.data with
  | .swapClaim swapId l2ClaimerAddress _ => do
      let foundLockedInput ← tx.inputs.foldlM (fun found input => do
        let locked ← checkClaimInput s swapId input.1
        pure (found || locked)) false
      ensure (foundLockedInput = true) (.invalidTransaction .claimSpendsNoLockedOutput)
      let height := validatingHeight s
      let swap ← okOr (s.getSwap swapId) (.swapNotFound swapId)
      let expectedRecipient ← okOr (s.entitledClaimerAt swap height)
        (.invalidTransaction (.noLiveReservation swapId height))
      ensureSome l2ClaimerAddress (fun declared => declared = expectedRecipient)
        (fun declared => .invalidTransaction (.declaredClaimerMismatch declared swapId expectedRecipient))
      let amountToRecipient ← amountPaidTo tx expectedRecipient
      ensure (swap.l2Amount ≤ amountToRecipient)
        (.invalidTransaction (.claimUnderpays swap.l2Amount expectedRecipient amountToRecipient))
  | _ => .error (.invalidTransaction .expectedSwapClaim)

/- The consensus rules, after the node's own view of the parent chain. -/
def validateSwapClaim (tx : Transaction) : Except Error Unit :=
  match tx.data with
  | .swapClaim swapId _ _ => do
      let swap ← okOr (s.getSwap swapId) (.swapNotFound swapId)
      ensure (swap.state = .readyToClaim) (.invalidTransaction (.notReadyToClaim swapId swap.state))
      ensure (swap.l2Recipient.isSome ∨ ¬ swap.l1Txid.isUnset) (.invalidTransaction .l1TransactionNotDetected)
      validateSwapClaimConsensus s tx
  | _ => .error (.invalidTransaction .expectedSwapClaim)

def validateBlockTransaction (tx : Transaction) (filled : FilledTransaction) : Except Error Unit :=
  match tx.data with
  | .swapCreate _ => validateSwapCreate lib s tx filled
  | .swapClaim .. => validateSwapClaimConsensus s tx
  | .swapAccept .. => validateSwapAccept s tx filled
  | .regular => validateNoLockedOutputs s tx

end Coinshift
