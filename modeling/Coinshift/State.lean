import Coinshift.Accumulator

/-! The tables of a node and the operations on its swap tables.
The state is split into the coin ledger, the swap tables and the peg tables, so that what an
operation cannot touch shows in its type. -/
namespace Coinshift
open Checked

structure Ledger where
  utxos : Table OutPoint Output
  stxos : Table OutPoint SpentOutput

abbrev ExpiredSwapReversal := SwapId × SwapState × List OutPoint

/- The swap records: each is stored under its own id, and no other way of writing exists. -/
structure SwapRecords where
  table : Table SwapId Swap
  keyed : ∀ {swapId swap}, table.tryGet swapId = some swap → swap.id = swapId

namespace SwapRecords

def empty : SwapRecords := ⟨∅,by simp⟩

def save (r : SwapRecords) (swap : Swap) : SwapRecords where
  table := (r.table.delete swap.id).put swap.id swap
  keyed := by
    intro swapId found get
    rw [Table.tryGetPut,Table.tryGetDelete] at get
    split at get
    · next same =>
        cases get
        exact same.symm
    · exact r.keyed get

def delete (r : SwapRecords) (swapId : SwapId) : SwapRecords where
  table := r.table.delete swapId
  keyed := by
    intro other found get
    rw [Table.tryGetDelete] at get
    split at get
    · cases get
    · exact r.keyed get

end SwapRecords

structure SwapTables where
  swaps : SwapRecords
  swapsByL1Txid : Table (ParentChainType × SwapTxId) SwapId
  swapsByRecipient : Table Address (List SwapId)
  lockedSwapOutputs : Table OutPoint SwapId
  expiredSwaps : Table Nat (List ExpiredSwapReversal)
  swapReservations : Table SwapId SwapReservation

structure HeightStamped (T : Type) where
  value : T
  height : Nat
  deriving DecidableEq, Repr

/- A value with its history: never empty, latest entry last. -/
structure RollBack (T : Type) where
  head : HeightStamped T
  tail : List (HeightStamped T)
  deriving DecidableEq, Repr

/- `spendUtxos` is in the order of its outpoints; `outputs` are those of the bundle transaction. -/
structure WithdrawalBundle where
  spendUtxos : List (OutPoint × Output)
  outputs : List TxOut
  deriving DecidableEq, Repr

inductive WithdrawalBundleInfo where
  | known (bundle : WithdrawalBundle)
  | unknown
  | unknownConfirmed (spendUtxos : List (OutPoint × Output))
  deriving DecidableEq, Repr

structure BlockIndexEvents where
  deposits : List (OutPoint × Output)
  bundleSpends : List (OutPoint × M6id)
  deriving DecidableEq, Repr

structure PegTables where
  pendingWithdrawalBundle : Option (WithdrawalBundle × Nat)
  latestFailedWithdrawalBundle : Option (RollBack M6id)
  withdrawalBundles : Table M6id (WithdrawalBundleInfo × RollBack WithdrawalBundleStatus)
  blockIndexEvents : Table Nat BlockIndexEvents
  depositBlocks : Table UInt32 (Hash × Nat)
  withdrawalBundleEventBlocks : Table UInt32 (Hash × Nat)

structure State (F : Type) extends Ledger, SwapTables, PegTables where
  tip : Option BlockHash
  height : Option Nat
  utreexoAccumulator : Option F

def State.new (F : Type) : State F where
  utxos := ∅
  stxos := ∅
  swaps := SwapRecords.empty
  swapsByL1Txid := ∅
  swapsByRecipient := ∅
  lockedSwapOutputs := ∅
  expiredSwaps := ∅
  swapReservations := ∅
  pendingWithdrawalBundle := none
  latestFailedWithdrawalBundle := none
  withdrawalBundles := ∅
  blockIndexEvents := ∅
  depositBlocks := ∅
  withdrawalBundleEventBlocks := ∅
  tip := none
  height := none
  utreexoAccumulator := none

def State.nextHeight {F : Type} (s : State F) : Nat :=
  match s.height with
  | some height => height + 1
  | none => 0

def State.accumulator {F : Type} (lib : Externals F) (s : State F) : F :=
  s.utreexoAccumulator.getD lib.emptyForest

namespace SwapTables

def getSwap (w : SwapTables) (swapId : SwapId) : Option Swap := w.swaps.table.tryGet swapId

def getSwapByL1Txid (w : SwapTables) (chain : ParentChainType) (l1Txid : SwapTxId) : Option Swap := do
  let swapId ← w.swapsByL1Txid.tryGet (chain,l1Txid)
  w.getSwap swapId

def loadAllSwaps (w : SwapTables) : List Swap := w.swaps.table.entries.map (·.2)

def indexRecipient (w : SwapTables) (swap : Swap) : Table Address (List SwapId) :=
  match swap.l2Recipient with
  | none => w.swapsByRecipient
  | some recipient =>
      let recipientSwaps := (w.swapsByRecipient.tryGet recipient).getD []
      if swap.id ∈ recipientSwaps then w.swapsByRecipient
      else w.swapsByRecipient.put recipient (recipientSwaps ++ [swap.id])

/- For a record that was read: its transaction id has been a key before. -/
def saveSwap (w : SwapTables) (swap : Swap) : SwapTables :=
  { w with
    swaps := w.swaps.save swap
    swapsByL1Txid := w.swapsByL1Txid.put (swap.parentChain,swap.l1Txid) swap.id
    swapsByRecipient := w.indexRecipient swap }

/- For a record with another transaction id, which may be too long for a key. -/
def trySaveSwap (w : SwapTables) (swap : Swap) : Except Error SwapTables := do
  ensure (swap.l1Txid.fitsKey = true) .db
  pure (w.saveSwap swap)

def lockOutputToSwap (w : SwapTables) (outpoint : OutPoint) (swapId : SwapId) : SwapTables :=
  { w with lockedSwapOutputs := w.lockedSwapOutputs.put outpoint swapId }

def unlockOutputFromSwap (w : SwapTables) (outpoint : OutPoint) : SwapTables :=
  { w with lockedSwapOutputs := w.lockedSwapOutputs.delete outpoint }

def isOutputLockedToSwap (w : SwapTables) (outpoint : OutPoint) : Option SwapId :=
  w.lockedSwapOutputs.tryGet outpoint

def lockedOutputsOf (w : SwapTables) (swapId : SwapId) : List OutPoint :=
  (w.lockedSwapOutputs.entries.filter (·.2 = swapId)).map (·.1)

def unlockAllOutputsForSwap (w : SwapTables) (swapId : SwapId) : SwapTables :=
  (w.lockedOutputsOf swapId).foldl unlockOutputFromSwap w

def getSwapReservation (w : SwapTables) (swapId : SwapId) : Option SwapReservation :=
  w.swapReservations.tryGet swapId

def reserveSwap (w : SwapTables) (swapId : SwapId) (claimer : Address) (acceptedAtHeight : Nat) : SwapTables :=
  { w with swapReservations := w.swapReservations.put swapId ⟨claimer,acceptedAtHeight⟩ }

def clearSwapReservation (w : SwapTables) (swapId : SwapId) : SwapTables :=
  { w with swapReservations := w.swapReservations.delete swapId }

def entitledClaimerAt (w : SwapTables) (swap : Swap) (height : Nat) : Option Address :=
  match swap.l2Recipient with
  | some recipient => some recipient
  | none =>
      match w.getSwapReservation swap.id with
      | none => none
      | some reservation =>
          if reservation.isLiveAt swap.parentChain height then some reservation.claimer else none

def unindexRecipient (w : SwapTables) (swap : Swap) : Table Address (List SwapId) :=
  match swap.l2Recipient with
  | none => w.swapsByRecipient
  | some recipient =>
      match w.swapsByRecipient.tryGet recipient with
      | none => w.swapsByRecipient
      | some recipientSwaps =>
          let kept := recipientSwaps.filter (· ≠ swap.id)
          if kept.isEmpty then w.swapsByRecipient.delete recipient
          else w.swapsByRecipient.put recipient kept

/- With the record already gone, every lock to the swap goes with it. -/
def deleteSwapUnchecked (w : SwapTables) (swapId : SwapId) : SwapTables :=
  match w.getSwap swapId with
  | some swap =>
      { w with
        swaps := w.swaps.delete swapId
        swapsByL1Txid := w.swapsByL1Txid.delete (swap.parentChain,swap.l1Txid)
        swapsByRecipient := w.unindexRecipient swap }
  | none =>
      let unlocked := w.unlockAllOutputsForSwap swapId
      { unlocked with swaps := unlocked.swaps.delete swapId }

def cancelSwap (w : SwapTables) (swapId : SwapId) (creator : Option Address) : Except Error SwapTables := do
  let swap ← okOr (w.getSwap swapId) (.swapNotFound swapId)
  ensure (swap.l2CreatorAddress.isSome ∧ creator = swap.l2CreatorAddress) .swapNotCreator
  ensure (swap.state = .pending) (.invalidTransaction (.cannotBeCancelled swapId swap.state))
  pure ((w.unlockAllOutputsForSwap swapId).saveSwap { swap with state := .cancelled })

def orphanedLocks (w : SwapTables) : List OutPoint :=
  (w.lockedSwapOutputs.entries.filter (fun e => (w.getSwap e.2).isNone)).map (·.1)

def cleanupOrphanedLocks (w : SwapTables) : SwapTables × Nat :=
  (w.orphanedLocks.foldl unlockOutputFromSwap w,w.orphanedLocks.length)

def updateSwapL1Txid (w : SwapTables) (swapId : SwapId) (l1Txid : SwapTxId) (confirmations : UInt32)
    (l1ClaimerAddress : Option Text) (l2ClaimerAddress : Option Address) (blockHash : BlockHash)
    (blockHeight : Nat) : Except Error SwapTables := do
  let swap ← okOr (w.getSwap swapId) (.swapNotFound swapId)
  ensure (swap.state = .pending) (.invalidTransaction (.cannotBeUpdated swapId swap.state))
  ensure (confirmations ≠ 0) (.invalidTransaction (.zeroConfirmations swapId))
  let maxAge := swap.parentChain.maxL1TxAgeBlocks
  ensure (confirmations ≤ maxAge)
    (.invalidTransaction (.l1TxTooOld swapId confirmations maxAge swap.parentChain))
  ensureSome (w.getSwapByL1Txid swap.parentChain l1Txid) (fun existing => existing.id = swapId)
    (fun existing => .l1TxidAlreadyUsed swapId existing.id)
  let oldL1Txid := swap.l1Txid
  let swap := match l1ClaimerAddress with
    | some claimer => swap.updateL1Transaction l1Txid claimer
    | none => swap.updateL1Txid l1Txid
  let swap := match l2ClaimerAddress with
    | some address => swap.setL2ClaimerAddress address
    | none => swap
  let swap := swap.setL1TxidValidationBlock blockHash blockHeight
  let swap := swap.withConfirmations confirmations swap.requiredConfirmations
  ensure (l1Txid.fitsKey = true) .db
  let index := (w.swapsByL1Txid.delete (swap.parentChain,oldL1Txid)).put (swap.parentChain,l1Txid) swapId
  pure ({ w with swapsByL1Txid := index }.saveSwap swap)

def updateSwapConfirmations (w : SwapTables) (swapId : SwapId) (newConfirmations : UInt32)
    (blockHash : BlockHash) (blockHeight : Nat) : Except Error SwapTables := do
  let swap ← okOr (w.getSwap swapId) (.swapNotFound swapId)
  match swap.state with
  | .waitingConfirmations current required =>
      if newConfirmations ≤ current then pure w
      else pure (w.saveSwap
        ((swap.setL1TxidValidationBlock blockHash blockHeight).withConfirmations newConfirmations required))
  | state => .error (.invalidTransaction (.notWaitingConfirmations swapId state))

section Lookups

variable {w v : SwapTables} {swap found : Swap} {swapId other : SwapId} {o : OutPoint} {os : List OutPoint}

theorem getSwapId (get : w.getSwap swapId = some swap) : swap.id = swapId := w.swaps.keyed get

theorem getSwapSave : (w.saveSwap swap).getSwap swapId = if swapId = swap.id then some swap else w.getSwap swapId := by
  simp only [getSwap,saveSwap,SwapRecords.save,Table.tryGetPut,Table.tryGetDelete]
  split <;> rfl

theorem trySaveOk : w.trySaveSwap swap = .ok v ↔ swap.l1Txid.fitsKey = true ∧ v = w.saveSwap swap := by
  simp only [trySaveSwap,bindOk,ensureOk,pureOk,exists_const]
  exact and_congr_right fun _ => eq_comm

@[simp] theorem saveSwapLocked : (w.saveSwap swap).lockedSwapOutputs = w.lockedSwapOutputs := rfl

@[simp] theorem saveSwapReservations : (w.saveSwap swap).swapReservations = w.swapReservations := rfl

theorem unlocksEq : os.foldl unlockOutputFromSwap w =
    { w with lockedSwapOutputs := os.foldl Table.delete w.lockedSwapOutputs } := by
  induction os generalizing w with
  | nil => rfl
  | cons o os ih => rw [List.foldl_cons,ih,List.foldl_cons]; rfl

theorem memLockedOutputsOf : o ∈ w.lockedOutputsOf swapId ↔ w.isOutputLockedToSwap o = some swapId := by
  simp only [lockedOutputsOf,List.mem_map,List.mem_filter,decide_eq_true_eq,isOutputLockedToSwap]
  constructor
  · rintro ⟨⟨key,value⟩,⟨entry,rfl⟩,rfl⟩
    exact Table.memEntries.mp entry
  · intro locked
    exact ⟨(o,swapId),⟨Table.memEntries.mpr locked,rfl⟩,rfl⟩

theorem lockedUnlockAll : (w.unlockAllOutputsForSwap swapId).isOutputLockedToSwap o =
    if w.isOutputLockedToSwap o = some swapId then none else w.isOutputLockedToSwap o := by
  rw [unlockAllOutputsForSwap,unlocksEq]
  simp only [isOutputLockedToSwap,Table.tryGetDeletes]
  exact if_congr memLockedOutputsOf rfl rfl

@[simp] theorem unlockAllSwaps : (w.unlockAllOutputsForSwap swapId).swaps = w.swaps := by
  rw [unlockAllOutputsForSwap,unlocksEq]

@[simp] theorem unlockAllReservations :
    (w.unlockAllOutputsForSwap swapId).swapReservations = w.swapReservations := by
  rw [unlockAllOutputsForSwap,unlocksEq]

theorem getSwapDelete : (w.deleteSwapUnchecked swapId).getSwap other =
    if other = swapId then none else w.getSwap other := by
  unfold deleteSwapUnchecked
  split <;> simp only [getSwap,SwapRecords.delete,Table.tryGetDelete,unlockAllSwaps]

@[simp] theorem deleteSwapReservations : (w.deleteSwapUnchecked swapId).swapReservations = w.swapReservations := by
  unfold deleteSwapUnchecked
  split <;> simp

theorem lockedDelete : (w.deleteSwapUnchecked swapId).isOutputLockedToSwap o =
    if w.getSwap swapId = none ∧ w.isOutputLockedToSwap o = some swapId then none
    else w.isOutputLockedToSwap o := by
  unfold deleteSwapUnchecked
  cases recorded : w.getSwap swapId with
  | some swap => simp [isOutputLockedToSwap]
  | none =>
      simp only [true_and]
      exact lockedUnlockAll

end Lookups

end SwapTables

end Coinshift
