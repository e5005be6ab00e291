import Coinshift.Block

/-! What connecting or disconnecting one transaction does to the swap tables, read as three
functions: the swap an output is locked to, the reservation of a swap, and its record. -/
namespace Coinshift
open Checked SwapTables

variable {F : Type} {lib : Externals F} {height : Nat} {w w' : SwapTables} {f : FilledTransaction}
  {tx : Transaction} {swapId : SwapId} {o : OutPoint} {os : List OutPoint}

section Locks

variable {act : SwapTables → OutPoint → SwapTables}

theorem foldLocksEq (step : ∀ w o, ∃ locks, act w o = { w with lockedSwapOutputs := locks }) :
    ∃ locks, os.foldl act w = { w with lockedSwapOutputs := locks } := by
  induction os generalizing w with
  | nil => exact ⟨_,rfl⟩
  | cons o os ih =>
      obtain ⟨first,here⟩ := step w o
      rw [List.foldl_cons,here]
      exact ih

theorem foldLocked (g : Option SwapId → Option SwapId) (settles : ∀ lock, g (g lock) = g lock)
    (step : ∀ w first, (act w first).isOutputLockedToSwap o =
      if o = first then g (w.isOutputLockedToSwap o) else w.isOutputLockedToSwap o) :
    (os.foldl act w).isOutputLockedToSwap o =
      if o ∈ os then g (w.isOutputLockedToSwap o) else w.isOutputLockedToSwap o := by
  induction os generalizing w with
  | nil => simp
  | cons first os ih =>
      rw [List.foldl_cons,ih,step]
      by_cases here : o = first <;> by_cases later : o ∈ os <;> simp [here,later,settles]

theorem lockedLock {first : OutPoint} : (w.lockOutputToSwap first swapId).isOutputLockedToSwap o =
    if o = first then some swapId else w.isOutputLockedToSwap o := Table.tryGetPut

theorem lockedUnlock {first : OutPoint} : (w.unlockOutputFromSwap first).isOutputLockedToSwap o =
    if o = first then none else w.isOutputLockedToSwap o := Table.tryGetDelete

theorem locksEq : os.foldl (fun w outpoint => w.lockOutputToSwap outpoint swapId) w =
    { w with lockedSwapOutputs := os.foldl (fun t outpoint => t.put outpoint swapId) w.lockedSwapOutputs } := by
  induction os generalizing w with
  | nil => rfl
  | cons o os ih => rw [List.foldl_cons,ih,List.foldl_cons]; rfl

theorem lockedLocks : (os.foldl (fun w outpoint => w.lockOutputToSwap outpoint swapId) w).isOutputLockedToSwap o =
    if o ∈ os then some swapId else w.isOutputLockedToSwap o :=
  foldLocked (fun _ => some swapId) (fun _ => rfl) (fun _ _ => lockedLock)

theorem unlockIfEq : ∃ locks, os.foldl (unlockIfLockedTo swapId) w = { w with lockedSwapOutputs := locks } := by
  refine foldLocksEq (fun w o => ?_)
  unfold unlockIfLockedTo
  split
  · exact ⟨_,rfl⟩
  · exact ⟨_,rfl⟩

theorem lockedUnlockIf : (os.foldl (unlockIfLockedTo swapId) w).isOutputLockedToSwap o =
    if o ∈ os ∧ w.isOutputLockedToSwap o = some swapId then none else w.isOutputLockedToSwap o := by
  rw [ite_and]
  refine foldLocked (fun lock => if lock = some swapId then none else lock) ?_ ?_
  · intro lock
    by_cases own : lock = some swapId <;> simp [own]
  · intro w first
    unfold unlockIfLockedTo
    split
    · next locked =>
        rw [lockedUnlock]
        by_cases here : o = first <;> simp_all
    · next unlocked =>
        by_cases here : o = first <;> simp_all

theorem lockIfEq : ∃ locks, os.foldl (lockIfUnlocked swapId) w = { w with lockedSwapOutputs := locks } := by
  refine foldLocksEq (fun w o => ?_)
  unfold lockIfUnlocked
  split
  · exact ⟨_,rfl⟩
  · exact ⟨_,rfl⟩

theorem lockedLockIf : (os.foldl (lockIfUnlocked swapId) w).isOutputLockedToSwap o =
    if o ∈ os ∧ w.isOutputLockedToSwap o = none then some swapId else w.isOutputLockedToSwap o := by
  rw [ite_and]
  refine foldLocked (fun lock => if lock = none then some swapId else lock) ?_ ?_
  · intro lock
    cases lock <;> simp
  · intro w first
    unfold lockIfUnlocked
    split
    · next unlocked =>
        rw [lockedLock]
        by_cases here : o = first <;> simp_all
    · next locked =>
        by_cases here : o = first <;> simp_all

end Locks

section Connect

@[simp] theorem advanceLocked {swap : Swap} :
    (w.advanceToReady swap).isOutputLockedToSwap = w.isOutputLockedToSwap := by
  unfold advanceToReady
  split <;> rfl

@[simp] theorem advanceReservations {swap : Swap} :
    (w.advanceToReady swap).swapReservations = w.swapReservations := by
  unfold advanceToReady
  split <;> rfl

@[simp] theorem advanceExpired {swap : Swap} : (w.advanceToReady swap).expiredSwaps = w.expiredSwaps := by
  unfold advanceToReady
  split <;> rfl

theorem getSwapAdvance {swap : Swap} (recorded : w.getSwap swapId = some swap) {other : SwapId}
    (different : other ≠ swapId) : (w.advanceToReady swap).getSwap other = w.getSwap other := by
  unfold advanceToReady
  split
  · rfl
  · rw [getSwapSave,if_neg]
    simpa only [getSwapId recorded] using different

def locksAfter (lib : Externals F) (tx : Transaction) (locks : OutPoint → Option SwapId) (o : OutPoint) :
    Option SwapId :=
  match tx.data with
  | .swapCreate create => if o ∈ tx.escrowOutpoints lib create.swapId then some create.swapId else locks o
  | .swapClaim swapId _ _ => if o ∈ tx.inputs.map (·.1) ∧ locks o = some swapId then none else locks o
  | _ => locks o

def reservationsAfter (height : Nat) (tx : Transaction) (reservations : SwapId → Option SwapReservation)
    (swapId : SwapId) : Option SwapReservation :=
  match tx.data with
  | .swapAccept accepted claimer => if swapId = accepted then some ⟨claimer,height⟩ else reservations swapId
  | _ => reservations swapId

def recordsAfter (height : Nat) (f : FilledTransaction) (records : SwapId → Option Swap) (swapId : SwapId) :
    Option Swap :=
  match f.transaction.data with
  | .swapCreate create =>
      if swapId = create.swapId then
        some (Swap.ofCreate create height (f.spentUtxos.head?.map (·.address)))
      else records swapId
  | .swapClaim claimed _ _ => if swapId = claimed then (records swapId).map Swap.markCompleted else records swapId
  | _ => records swapId

def ClaimConnects (records : SwapId → Option Swap) (tx : Transaction) : Prop :=
  ∀ swapId claimer proof, tx.data = .swapClaim swapId claimer proof →
    ∃ swap, records swapId = some swap ∧ (swap.l2Recipient.isSome ∨ claimer.isSome)

def CreateFits (tx : Transaction) : Prop :=
  ∀ create, tx.data = .swapCreate create → create.l1TxidBytes.length ≤ 495

theorem connectSwapOk : (∃ w', connectSwap lib height w f = .ok w') ↔
    ClaimConnects w.getSwap f.transaction ∧ CreateFits f.transaction := by
  unfold connectSwap ClaimConnects CreateFits
  cases data : f.transaction.data with
  | regular => simp [pure,Except.pure]
  | swapCreate create =>
      simp only [bindOk,ensureOk,trySaveOk,reduceCtorEq,false_implies,implies_true,true_and,TxData.swapCreate.injEq,
        forall_eq']
      rw [← SwapTxId.fitsKeyIff]
      constructor
      · rintro ⟨_,_,_,fits,_⟩
        exact fits
      · intro fits
        exact ⟨_,(),rfl,fits,rfl⟩
  | swapAccept accepted claimer => simp [pure,Except.pure]
  | swapClaim claimed claimer proof =>
      simp only [bindOk,okOrOk,ensureOk,pureOk,TxData.swapClaim.injEq,and_imp,reduceCtorEq,false_implies,implies_true,
        and_true]
      constructor
      · rintro ⟨_,swap,recorded,_,declared,_⟩ _ _ _ rfl rfl _
        exact ⟨swap,recorded,declared⟩
      · intro connects
        obtain ⟨swap,recorded,declared⟩ := connects claimed claimer proof rfl rfl rfl
        exact ⟨_,swap,recorded,(),declared,rfl⟩

theorem connectSwapEffect (ok : connectSwap lib height w f = .ok w') :
    w'.isOutputLockedToSwap = locksAfter lib f.transaction w.isOutputLockedToSwap ∧
    w'.getSwapReservation = reservationsAfter height f.transaction w.getSwapReservation ∧
    w'.getSwap = recordsAfter height f w.getSwap ∧ w'.expiredSwaps = w.expiredSwaps := by
  unfold connectSwap at ok
  unfold locksAfter reservationsAfter recordsAfter
  cases data : f.transaction.data with
  | regular =>
      simp only [data,pureOk] at ok
      subst ok
      exact ⟨rfl,rfl,rfl,rfl⟩
  | swapAccept accepted claimer =>
      simp only [data,pureOk] at ok
      subst ok
      refine ⟨rfl,?_,rfl,rfl⟩
      funext id
      exact Table.tryGetPut
  | swapCreate create =>
      simp only [data,bindOk,ensureOk,trySaveOk] at ok
      obtain ⟨_,_,_,rfl⟩ := ok
      refine ⟨?_,?_,?_,?_⟩
      · funext o
        exact lockedLocks
      · rw [locksEq]
        rfl
      · funext id
        rw [getSwapSave,locksEq]
        rfl
      · rw [locksEq]
        rfl
  | swapClaim claimed claimer proof =>
      simp only [data,bindOk,okOrOk,ensureOk,pureOk] at ok
      obtain ⟨swap,recorded,_,_,rfl⟩ := ok
      obtain ⟨locks,unlocked⟩ := @unlockIfEq (w.advanceToReady swap) claimed (f.transaction.inputs.map (·.1))
      refine ⟨?_,?_,?_,?_⟩
      · funext o
        refine (lockedUnlockIf (w := w.advanceToReady swap)).trans ?_
        rw [advanceLocked]
      · funext id
        simp only [getSwapReservation,saveSwapReservations,unlocked,advanceReservations]
      · funext id
        have same : swap.markCompleted.id = claimed := (getSwapId recorded : swap.id = claimed)
        rw [getSwapSave,same]
        dsimp only
        split
        · next here => rw [here,recorded]; rfl
        · next different =>
            rw [unlocked]
            exact getSwapAdvance recorded different
      · rw [unlocked]
        exact advanceExpired

end Connect

section Disconnect

/- The locks after disconnecting a transaction; a creation whose record is gone drops every lock to it. -/
def locksUndone (lib : Externals F) (tx : Transaction) (records : SwapId → Option Swap)
    (locks : OutPoint → Option SwapId) (o : OutPoint) : Option SwapId :=
  match tx.data with
  | .swapCreate create =>
      if locks o = some create.swapId ∧ (o ∈ tx.pendingOutpoints lib ∨ records create.swapId = none) then none
      else locks o
  | .swapClaim swapId _ _ => if o ∈ tx.inputs.map (·.1) ∧ locks o = none then some swapId else locks o
  | _ => locks o

def reservationsUndone (tx : Transaction) (reservations : SwapId → Option SwapReservation)
    (swapId : SwapId) : Option SwapReservation :=
  match tx.data with
  | .swapCreate create => if swapId = create.swapId then none else reservations swapId
  | .swapAccept accepted _ => if swapId = accepted then none else reservations swapId
  | _ => reservations swapId

def Swap.revertClaim (swap : Swap) : Swap :=
  if swap.state = .completed then { swap with state := .readyToClaim } else swap

def recordsUndone (tx : Transaction) (records : SwapId → Option Swap) (swapId : SwapId) : Option Swap :=
  match tx.data with
  | .swapCreate create => if swapId = create.swapId then none else records swapId
  | .swapClaim claimed _ _ => if swapId = claimed then (records swapId).map Swap.revertClaim else records swapId
  | _ => records swapId

theorem disconnectSwapOk : (∃ w', disconnectSwap lib w tx = .ok w') ↔
    ∀ swapId claimer proof, tx.data = .swapClaim swapId claimer proof → w.getSwap swapId ≠ none := by
  unfold disconnectSwap
  cases data : tx.data with
  | regular => simp [pure,Except.pure]
  | swapAccept accepted claimer => simp [pure,Except.pure]
  | swapCreate create => simp [pure,Except.pure]
  | swapClaim claimed claimer proof =>
      simp only [bindOk,okOrOk,pureOk,TxData.swapClaim.injEq,and_imp]
      constructor
      · rintro ⟨_,swap,recorded,_⟩ _ _ _ rfl _ _ missing
        rw [recorded] at missing
        cases missing
      · intro recorded
        obtain ⟨swap,found⟩ := Option.ne_none_iff_exists'.mp (recorded claimed claimer proof rfl rfl rfl)
        exact ⟨_,swap,found,rfl⟩

theorem disconnectSwapEffect (ok : disconnectSwap lib w tx = .ok w') :
    w'.isOutputLockedToSwap = locksUndone lib tx w.getSwap w.isOutputLockedToSwap ∧
    w'.getSwapReservation = reservationsUndone tx w.getSwapReservation ∧
    w'.getSwap = recordsUndone tx w.getSwap := by
  unfold disconnectSwap at ok
  unfold locksUndone reservationsUndone recordsUndone
  cases data : tx.data with
  | regular =>
      simp only [data,pureOk] at ok
      subst ok
      exact ⟨rfl,rfl,rfl⟩
  | swapAccept accepted claimer =>
      simp only [data,pureOk] at ok
      subst ok
      refine ⟨rfl,?_,rfl⟩
      funext id
      exact Table.tryGetDelete
  | swapCreate create =>
      simp only [data,pureOk] at ok
      subst ok
      obtain ⟨locks,unlocked⟩ := @unlockIfEq w create.swapId (tx.pendingOutpoints lib).reverse
      refine ⟨?_,?_,?_⟩
      · funext o
        have after := @lockedUnlockIf w create.swapId o (tx.pendingOutpoints lib).reverse
        rw [unlocked] at after
        rw [lockedDelete,unlocked]
        simp only [clearSwapReservation,getSwap,isOutputLockedToSwap,List.mem_reverse] at after ⊢
        simp only [after]
        by_cases pending : o ∈ tx.pendingOutpoints lib <;>
          by_cases locked : w.lockedSwapOutputs.tryGet o = some create.swapId <;>
          simp [pending,locked]
      · funext id
        simp only [getSwapReservation,deleteSwapReservations,clearSwapReservation,unlocked]
        exact Table.tryGetDelete
      · funext id
        rw [getSwapDelete,unlocked]
        rfl
  | swapClaim claimed claimer proof =>
      simp only [data,bindOk,okOrOk,pureOk] at ok
      obtain ⟨swap,recorded,rfl⟩ := ok
      obtain ⟨locks,relocked⟩ := @lockIfEq w claimed (tx.inputs.map (·.1)).reverse
      have after (o) := @lockedLockIf w claimed o (tx.inputs.map (·.1)).reverse
      refine ⟨?_,?_,?_⟩
      · funext o
        simp only [List.mem_reverse] at after
        split
        · exact after o
        · exact after o
      · funext id
        split <;> simp only [getSwapReservation,saveSwapReservations,relocked]
      · funext id
        dsimp only
        by_cases here : id = claimed
        · subst here
          rw [if_pos rfl,recorded]
          simp only [Option.map_some,Swap.revertClaim]
          split
          · next completed =>
              rw [getSwapSave,if_pos]
              exact (getSwapId recorded).symm
          · rw [relocked]
            exact recorded
        · rw [if_neg here]
          split
          · rw [getSwapSave,if_neg,relocked]
            · rfl
            · simpa only [getSwapId recorded] using here
          · rw [relocked]
            rfl

end Disconnect

end Coinshift
