import Coinshift.ScanEffects

/-! What the writers of a recorded swap keep of its indexes.
Disconnecting a block, undoing expiries, cancelling and counting confirmations save a record again with the
transaction and the recipient it has, or delete it. -/
namespace Coinshift
open Checked SwapTables

variable {F : Type} {lib : Externals F} {w w' : SwapTables} {swap : Swap} {height : Nat}

def Swap.l1Pair (swap : Swap) : ParentChainType × SwapTxId := (swap.parentChain,swap.l1Txid)

/- A property of the records and their two indexes that no such writer breaks. -/
structure KeptByWriters (P : SwapTables → Prop) : Prop where
  congr : ∀ {w w' : SwapTables}, P w → w'.getSwap = w.getSwap → w'.swapsByL1Txid = w.swapsByL1Txid →
    w'.swapsByRecipient = w.swapsByRecipient → P w'
  resave : ∀ {w : SwapTables} {old : Swap} (swap : Swap), P w → w.getSwap swap.id = some old → swap.l1Pair = old.l1Pair →
    swap.l2Recipient = old.l2Recipient → P (w.saveSwap swap)
  delete : ∀ {w : SwapTables} {swapId : SwapId}, P w → P (w.deleteSwapUnchecked swapId)

namespace KeptByWriters

variable {P : SwapTables → Prop}

theorem withState (kept : KeptByWriters P) (holds : P w) (recorded : w.getSwap swap.id = some swap) (state : SwapState) :
    P (w.saveSwap { swap with state }) := kept.resave { swap with state } holds recorded rfl rfl

theorem advance (kept : KeptByWriters P) (holds : P w) (recorded : w.getSwap swap.id = some swap) :
    P (w.advanceToReady swap) := by
  unfold advanceToReady
  split
  · exact holds
  · exact kept.withState holds recorded .readyToClaim

theorem cancelled (kept : KeptByWriters P) (holds : P w) (recorded : w.getSwap swap.id = some swap) (swapId : SwapId) :
    P ((w.unlockAllOutputsForSwap swapId).saveSwap { swap with state := .cancelled }) := by
  obtain ⟨locks,unlocked⟩ : ∃ locks, w.unlockAllOutputsForSwap swapId = { w with lockedSwapOutputs := locks } := ⟨_,unlocksEq⟩
  rw [unlocked]
  have moved : P { w with lockedSwapOutputs := locks } := kept.congr holds rfl rfl rfl
  exact kept.withState moved (show w.getSwap swap.id = some swap from recorded) .cancelled

theorem disconnect {tx : Transaction} (kept : KeptByWriters P) (holds : P w) (ok : disconnectSwap lib w tx = .ok w') : P w' := by
  unfold disconnectSwap at ok
  cases data : tx.data with
  | regular =>
      simp only [data,pureOk] at ok
      exact ok ▸ holds
  | swapAccept accepted claimer =>
      simp only [data,pureOk] at ok
      subst ok
      exact kept.congr holds rfl rfl rfl
  | swapCreate create =>
      simp only [data,pureOk] at ok
      subst ok
      obtain ⟨locks,unlocked⟩ := @unlockIfEq w create.swapId (tx.pendingOutpoints lib).reverse
      rw [unlocked]
      exact kept.delete (kept.congr holds rfl rfl rfl)
  | swapClaim claimed claimer proof =>
      simp only [data,bindOk,okOrOk,pureOk] at ok
      obtain ⟨swap,recorded,rfl⟩ := ok
      have own : swap.id = claimed := getSwapId recorded
      obtain ⟨locks,relocked⟩ := @lockIfEq w claimed (tx.inputs.map (·.1)).reverse
      rw [relocked]
      have moved : P { w with lockedSwapOutputs := locks } := kept.congr holds rfl rfl rfl
      split
      · exact kept.withState moved (show w.getSwap swap.id = some swap from own ▸ recorded) .readyToClaim
      · exact moved

theorem connect {f : FilledTransaction} (kept : KeptByWriters P) (holds : P w)
    (others : ∀ create, f.transaction.data ≠ .swapCreate create) (ok : connectSwap lib height w f = .ok w') : P w' := by
  unfold connectSwap at ok
  cases data : f.transaction.data with
  | regular =>
      simp only [data,pureOk] at ok
      exact ok ▸ holds
  | swapAccept accepted claimer =>
      simp only [data,pureOk] at ok
      subst ok
      exact kept.congr holds rfl rfl rfl
  | swapCreate create => exact absurd data (others create)
  | swapClaim claimed claimer proof =>
      simp only [data,bindOk,okOrOk,ensureOk,pureOk] at ok
      obtain ⟨swap,recorded,_,_,rfl⟩ := ok
      have own : swap.id = claimed := getSwapId recorded
      obtain ⟨locks,unlocked⟩ := @unlockIfEq (w.advanceToReady swap) claimed (f.transaction.inputs.map (·.1))
      obtain ⟨before,found,pair,recipient⟩ : ∃ before, (w.advanceToReady swap).getSwap swap.id = some before ∧
          before.l1Pair = swap.l1Pair ∧ before.l2Recipient = swap.l2Recipient := by
        unfold advanceToReady
        split
        · exact ⟨swap,own ▸ recorded,rfl,rfl⟩
        · refine ⟨{ swap with state := .readyToClaim },?_,rfl,rfl⟩
          rw [getSwapSave]
          exact if_pos rfl
      have advanced := kept.advance holds (own ▸ recorded)
      rw [unlocked]
      exact kept.resave swap.markCompleted (kept.congr advanced rfl rfl rfl) found pair.symm recipient.symm

theorem restore {reversal : ExpiredSwapReversal} (kept : KeptByWriters P) (holds : P w) : P (restoreExpired w reversal) := by
  unfold restoreExpired
  rw [locksEq]
  cases recorded : w.getSwap reversal.1 with
  | none => exact kept.congr holds rfl rfl rfl
  | some swap =>
      have own : swap.id = reversal.1 := getSwapId recorded
      have saved := kept.withState holds (show w.getSwap swap.id = some swap from own ▸ recorded) reversal.2.1
      exact kept.congr saved rfl rfl rfl

theorem restoreEach (kept : KeptByWriters P) (reversals : List ExpiredSwapReversal) (holds : P w) :
    P (reversals.foldl restoreExpired w) := by
  induction reversals generalizing w with
  | nil => exact holds
  | cons reversal rest ih => exact ih (kept.restore holds)

theorem restoreAll (kept : KeptByWriters P) (holds : P w) : P (restoreExpiredSwaps w height) := by
  unfold restoreExpiredSwaps
  split
  · next reversals _ => exact kept.congr (kept.restoreEach reversals holds) rfl rfl rfl
  · exact holds

theorem localOp {op : LocalOp} (kept : KeptByWriters P) (holds : P w)
    (records : ∀ id l1Txid confirmations l1Claimer l2Claimer blockHash blockHeight,
      op ≠ .updateSwapL1Txid id l1Txid confirmations l1Claimer l2Claimer blockHash blockHeight)
    (ok : op.apply w = .ok w') : P w' := by
  cases op with
  | updateSwapL1Txid id l1Txid confirmations l1Claimer l2Claimer blockHash blockHeight =>
      exact absurd rfl (records id l1Txid confirmations l1Claimer l2Claimer blockHash blockHeight)
  | updateSwapConfirmations id confirmations blockHash blockHeight =>
      simp only [LocalOp.apply,updateSwapConfirmations,bindOk,okOrOk] at ok
      obtain ⟨swap,recorded,ok⟩ := ok
      have own : swap.id = id := getSwapId recorded
      split at ok
      · split at ok
        · cases ok
          exact holds
        · cases ok
          exact kept.resave _ holds (show w.getSwap swap.id = some swap from own ▸ recorded) rfl rfl
      · cases ok
  | cancelSwap id creator =>
      simp only [LocalOp.apply,cancelSwap,bindOk,okOrOk,ensureOk,pureOk] at ok
      obtain ⟨swap,recorded,_,_,_,_,rfl⟩ := ok
      have own : swap.id = id := getSwapId recorded
      exact kept.cancelled holds (own ▸ recorded) id
  | cleanupOrphanedLocks =>
      cases ok
      rw [cleanupEq]
      exact kept.congr holds rfl rfl rfl

end KeptByWriters

end Coinshift
