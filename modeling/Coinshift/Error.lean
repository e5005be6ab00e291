import Coinshift.Swap

/-! The errors of the state machine.
`InvalidTransaction` carries a formatted text in the source; each text is a constructor here,
named after its words, with what it interpolates. `panic` stands for a failed assertion or
`expect`. Of the database failures only the put under a key that is too long is part of the model. -/
namespace Coinshift

inductive WithdrawalBundleStatus where
  | confirmed | failed | submitted
  deriving DecidableEq, Repr

inductive InvalidHeader where
  | blockHash (expected computed : BlockHash)
  | prevSideHash (expected received : Option BlockHash)
  deriving DecidableEq, Repr

inductive InvalidTransaction where
  | expectedSwapCreate
  | swapCreateWithoutInputs
  | swapIdMismatch (expected computed : SwapId)
  | swapAlreadyExists (swapId : SwapId)
  | zeroL2Amount
  | noOutputs
  | inputLocked (outpoint : OutPoint) (swapId : SwapId)
  | orphanedLock (outpoint : OutPoint) (swapId : SwapId)
  | inputValueOverflow
  | insufficientFunds (need have_ : Amount)
  | swapPendingOverflow
  | escrowTooSmall (required : Amount) (swapId : SwapId) (escrowed : Amount)
  | expectedSwapAccept
  | notOpenSwap (swapId : SwapId)
  | swapExpired (swapId : SwapId) (expiresAt height : Nat)
  | alreadyReserved (swapId : SwapId) (claimer : Address) (until_ : Nat)
  | acceptNotOwned (claimer : Address)
  | expectedSwapClaim
  | notReadyToClaim (swapId : SwapId) (state : SwapState)
  | l1TransactionNotDetected
  | inputLockedToDifferentSwap (outpoint : OutPoint) (swapId : SwapId)
  | claimSpendsNoLockedOutput
  | noLiveReservation (swapId : SwapId) (height : Nat)
  | declaredClaimerMismatch (declared : Address) (swapId : SwapId) (expected : Address)
  | outputValueOverflow
  | claimUnderpays (required : Amount) (recipient : Address) (paid : Amount)
  | spendsLockedOutput (outpoint : OutPoint) (swapId : SwapId)
  | swapIdMismatchInSwapCreate
  | openClaimWithoutClaimer
  | cannotBeCancelled (swapId : SwapId) (state : SwapState)
  | cannotBeUpdated (swapId : SwapId) (state : SwapState)
  | zeroConfirmations (swapId : SwapId)
  | l1TxTooOld (swapId : SwapId) (confirmations maxAge : UInt32) (chain : ParentChainType)
  | notWaitingConfirmations (swapId : SwapId) (state : SwapState)
  deriving DecidableEq, Repr

inductive ComputeFeeError where
  | underfunded
  | valueInOverflow
  | valueOutOverflow
  deriving DecidableEq, Repr

inductive Error where
  | authorization
  | amountOverflow
  | amountUnderflow
  | bodyTooLarge
  | db
  | computeMerkleRoot (txid : Txid) (source : ComputeFeeError)
  | invalidBody (expected computed : MerkleRoot)
  | invalidHeader (reason : InvalidHeader)
  | noDepositBlock
  | notEnoughFees
  | noTip
  | noStxo (outpoint : OutPoint)
  | notEnoughValueIn
  | noUtxo (outpoint : OutPoint)
  | spendWithdrawalOutput
  | noWithdrawalBundleEventBlock
  | utreexo (message : Text)
  | utreexoProofFailed (txid : Txid)
  | utreexoRootsMismatch
  | utxoDoubleSpent
  | utxoHashMismatch (computed : Hash) (outpoint : OutPoint) (inputHash : Hash)
  | tooManySigops
  | unexpectedWithdrawalBundleStatus (m6id : M6id) (status : WithdrawalBundleStatus)
      (statusHeight blockHeight : Nat)
  | unknownWithdrawalBundle (m6id : M6id)
  | unknownWithdrawalBundleConfirmed (eventBlockHash : Hash) (m6id : M6id)
  | wrongPubKeyForAddress
  | bundleTooHeavy (weight maxWeight : Nat)
  | swapNotFound (swapId : SwapId)
  | swapNotCreator
  | invalidTransaction (reason : InvalidTransaction)
  | l1TxidAlreadyUsed (swapId existingSwapId : SwapId)
  | panic
  deriving DecidableEq, Repr

end Coinshift
