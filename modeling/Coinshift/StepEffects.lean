import Coinshift.BlockEffects
import Coinshift.Node
import Coinshift.PegEffects

/-! What each step of a node can do. -/
namespace Coinshift
open Checked SwapTables

variable {F : Type} {lib : Externals F} {ctxt : BatchVerificationContext} {s s' : State F}

def SameTerms (before now : SwapId → Option Swap) : Prop :=
  ∀ swapId, (now swapId).map Swap.terms = (before swapId).map Swap.terms

theorem SameTerms.keeps {before now : SwapId → Option Swap} (same : SameTerms before now) : KeepsTerms before now := by
  intro swapId swap recorded
  have terms := same swapId
  rw [recorded] at terms
  obtain ⟨later,found,isSame⟩ := Option.map_eq_some_iff.mp terms
  exact ⟨later,found,isSame⟩

theorem relatedTerms {R : Swap → Swap → Prop} {before now : SwapId → Option Swap}
    (records : ∀ swapId, Option.Rel R (before swapId) (now swapId)) (terms : ∀ {a b}, R a b → b.terms = a.terms) :
    SameTerms before now := by
  intro swapId
  have record := records swapId
  generalize before swapId = recordBefore at *
  generalize now swapId = recordNow at *
  cases record with
  | none => rfl
  | some related => exact congrArg some (terms related)

section Connect

structure ConnectBlockSource (lib : Externals F) (ctxt : BatchVerificationContext) (s : State F)
    (header : Header) (body : Body) (pre : PrevalidatedBlock) (s' : State F) : Prop where
  accepted : prevalidate lib s ctxt header body = .ok pre
  validated : PrevalidateSource lib ctxt s header body pre
  connected : ConnectSource lib s header body pre s'

theorem connectBlockSource {header : Header} {body : Body} (ok : connectBlock lib ctxt s header body = .ok s') :
    ∃ pre, ConnectBlockSource lib ctxt s header body pre s' := by
  simp only [connectBlock,bindOk] at ok
  obtain ⟨pre,accepted,connected⟩ := ok
  have source := prevalidateSource accepted
  exact ⟨pre,accepted,source,connectSource source connected⟩

variable {header : Header} {body : Body} {pre : PrevalidatedBlock}

theorem ConnectBlockSource.fresh (source : ConnectBlockSource lib ctxt s header body pre s')
    {f : FilledTransaction} (mem : f ∈ pre.filledTransactions) {create : SwapCreate}
    (kind : f.transaction.data = .swapCreate create) : s.getSwap create.swapId = none := by
  obtain ⟨_,txSource⟩ := filledSource source.validated.transactions mem
  exact (txSource.create kind).unrecorded

theorem ConnectBlockSource.keepsTerms (source : ConnectBlockSource lib ctxt s header body pre s') :
    KeepsTerms s.getSwap s'.getSwap :=
  freshKeepsTerms source.connected.swaps (fun _ mem _ kind => source.fresh mem kind)

theorem ConnectBlockSource.reservations (source : ConnectBlockSource lib ctxt s header body pre s') :
    s'.getSwapReservation =
      body.transactions.foldl (fun r tx => reservationsAfter s.nextHeight tx r) s.getSwapReservation := by
  have effect := (connectSwapsEffect source.connected.swaps).2.1
  rwa [filledTransactions source.validated.transactions,source.validated.nextHeight] at effect

theorem ConnectBlockSource.locks (source : ConnectBlockSource lib ctxt s header body pre s') :
    s'.isOutputLockedToSwap =
      body.transactions.foldl (fun locks tx => locksAfter lib tx locks) s.isOutputLockedToSwap := by
  have effect := (connectSwapsEffect source.connected.swaps).1
  rwa [filledTransactions source.validated.transactions] at effect

theorem disconnectNext {header : Header} {body : Body} (ok : disconnectTip lib s header body = .ok s') :
    s.nextHeight = s'.nextHeight + 1 := by
  obtain ⟨height,heightIs,back⟩ := (disconnectSource ok).previous
  rw [State.nextHeight,State.nextHeight,heightIs]
  rcases (previousTipOk.mp back).2 with ⟨_,atGenesis,isNone⟩ | ⟨_,below,heightBelow,isSome⟩
  · rw [isNone,atGenesis]
  · rw [isSome,heightBelow]

end Connect

section Peg

structure ConnectPegSource (s : State F) (rpc : RpcReplies) (s' : State F) : Prop where
  tip : s'.tip = s.tip
  height : s'.height = s.height
  swaps : ∃ height blockHash, s.height = some height ∧ s.tip = some blockHash ∧
    s'.toSwapTables = processCoinshiftTransactions s.toSwapTables height blockHash rpc

theorem connectPegSource {data : TwoWayPegData} {rpc : RpcReplies}
    (ok : connectTwoWayPegData lib s data rpc = .ok s') : ConnectPegSource s rpc s' := by
  simp only [connectTwoWayPegData,bindOk,okOrOk,pureOk] at ok
  obtain ⟨height,heightIs,_,_,blockHash,tipIs,_,_,_,_,rfl⟩ := ok
  exact ⟨rfl,rfl,height,blockHash,heightIs,tipIs,rfl⟩

theorem ConnectPegSource.effect {rpc : RpcReplies} (source : ConnectPegSource s rpc s') :
    ∃ height, s.height = some height ∧ PegSwapEffect height s.toSwapTables s'.toSwapTables := by
  obtain ⟨height,blockHash,heightIs,_,same⟩ := source.swaps
  rw [same]
  exact ⟨height,heightIs,pegSwapEffect⟩

theorem PegSwapEffect.sameTerms {height : Nat} {w w' : SwapTables} (effect : PegSwapEffect height w w') :
    SameTerms w.getSwap w'.getSwap := relatedTerms effect.records Swap.PegRecord.terms

structure DisconnectPegSource (s s' : State F) : Prop where
  tip : s'.tip = s.tip
  height : s'.height = s.height
  reservations : s'.swapReservations = s.swapReservations
  terms : SameTerms s.getSwap s'.getSwap

theorem disconnectPegSource {data : TwoWayPegData} (ok : disconnectTwoWayPegData lib s data = .ok s') :
    DisconnectPegSource s s' := by
  simp only [disconnectTwoWayPegData,bindOk,okOrOk,pureOk] at ok
  obtain ⟨height,_,_,_,_,_,_,_,_,_,_,_,rfl⟩ := ok
  obtain ⟨reservations,terms⟩ := @restoreExpiredSwapsKeeps s.toSwapTables height
  exact ⟨rfl,rfl,reservations,terms⟩

/- The same peg data on other swap tables, with other replies: only the swap tables differ. -/
theorem connectPegFrame {data : TwoWayPegData} {rpc : RpcReplies}
    (ok : connectTwoWayPegData lib s data rpc = .ok s') (rpc' : RpcReplies) (w : SwapTables) : ∃ w',
    connectTwoWayPegData lib { s with toSwapTables := w } data rpc' = .ok { s' with toSwapTables := w' } := by
  simp only [connectTwoWayPegData,bindOk,okOrOk,pureOk] at ok
  obtain ⟨height,heightIs,progress,events,blockHash,tipIs,pending,collected,accumulator,applied,rfl⟩ := ok
  simp only [connectTwoWayPegData,bindOk,okOrOk,pureOk]
  exact ⟨_,height,heightIs,progress,events,blockHash,tipIs,pending,collected,accumulator,applied,rfl⟩

end Peg

section Locally

variable {w w' : SwapTables} {swapId : SwapId}

structure ObservationEffect (w w' : SwapTables) : Prop where
  locks : w'.lockedSwapOutputs = w.lockedSwapOutputs
  reservations : w'.swapReservations = w.swapReservations
  records : ∀ swapId, Option.Rel Swap.Observed (w.getSwap swapId) (w'.getSwap swapId)

theorem relObservedRefl {record : Option Swap} : Option.Rel Swap.Observed record record := by
  cases record with
  | none => exact .none
  | some swap => exact .some (.refl swap)

theorem saveObserved {base : SwapTables} {swap updated : Swap} (recorded : w.getSwap swapId = some swap)
    (locks : base.lockedSwapOutputs = w.lockedSwapOutputs) (reservations : base.swapReservations = w.swapReservations)
    (records : base.getSwap = w.getSwap) (sameId : updated.id = swap.id) (observed : swap.Observed updated) :
    ObservationEffect w (base.saveSwap updated) := by
  have own : updated.id = swapId := sameId.trans (getSwapId recorded)
  refine ⟨locks,reservations,?_⟩
  intro other
  rw [getSwapSave,own,records]
  by_cases here : other = swapId
  · rw [if_pos here,here,recorded]
    exact .some observed
  · rw [if_neg here]
    exact relObservedRefl

theorem updateSwapL1TxidEffect {l1Txid : SwapTxId} {confirmations : UInt32} {l1Claimer : Option Text}
    {l2Claimer : Option Address} {blockHash : BlockHash} {blockHeight : Nat}
    (ok : w.updateSwapL1Txid swapId l1Txid confirmations l1Claimer l2Claimer blockHash blockHeight = .ok w') :
    ObservationEffect w w' := by
  simp only [updateSwapL1Txid,bindOk,okOrOk,ensureOk,ensureSomeOk,pureOk] at ok
  obtain ⟨swap,recorded,_,pending,_,_,_,_,_,_,_,_,rfl⟩ := ok
  have awaiting : swap.isAwaiting = true := by rw [Swap.isAwaiting,pending]
  refine saveObserved recorded ?_ ?_ ?_ ?_ ⟨?_,.inr ⟨awaiting,?_⟩⟩
  · rfl
  · rfl
  · rfl
  · cases l1Claimer <;> cases l2Claimer <;> rfl
  · cases l1Claimer <;> cases l2Claimer <;> rfl
  · exact Swap.confirmationsState

theorem updateSwapConfirmationsEffect {confirmations : UInt32} {blockHash : BlockHash} {blockHeight : Nat}
    (ok : w.updateSwapConfirmations swapId confirmations blockHash blockHeight = .ok w') :
    ObservationEffect w w' := by
  simp only [updateSwapConfirmations,bindOk,okOrOk] at ok
  obtain ⟨swap,recorded,ok⟩ := ok
  split at ok
  · next current required waiting =>
      have awaiting : swap.isAwaiting = true := by rw [Swap.isAwaiting,waiting]
      split at ok
      · rw [pureOk] at ok
        subst ok
        exact ⟨rfl,rfl,fun _ => relObservedRefl⟩
      · rw [pureOk] at ok
        subst ok
        exact saveObserved recorded rfl rfl rfl rfl ⟨rfl,.inr ⟨awaiting,Swap.confirmationsState⟩⟩
  · cases ok

structure CancelEffect (swapId : SwapId) (creator : Option Address) (w w' : SwapTables) (swap : Swap) : Prop where
  recorded : w.getSwap swapId = some swap
  own : creator = swap.l2CreatorAddress
  pending : swap.state = .pending
  reservations : w'.swapReservations = w.swapReservations
  records : ∀ other, w'.getSwap other = if other = swapId then some { swap with state := .cancelled } else w.getSwap other

theorem cancelSwapEffect {creator : Option Address} (ok : w.cancelSwap swapId creator = .ok w') :
    ∃ swap, CancelEffect swapId creator w w' swap := by
  simp only [cancelSwap,bindOk,okOrOk,ensureOk,pureOk] at ok
  obtain ⟨swap,recorded,_,own,_,pending,rfl⟩ := ok
  refine ⟨swap,recorded,own.2,pending,?_,?_⟩
  · simp
  · intro other
    rw [getSwapSave]
    simp only [getSwapId recorded,getSwap,unlockAllSwaps]

theorem cleanupEq : w.cleanupOrphanedLocks.1 =
    { w with lockedSwapOutputs := w.orphanedLocks.foldl Table.delete w.lockedSwapOutputs } := unlocksEq

theorem localOpKeeps {op : LocalOp} (ok : op.apply w = .ok w') :
    w'.swapReservations = w.swapReservations ∧ SameTerms w.getSwap w'.getSwap := by
  have observed (effect : ObservationEffect w w') :
      w'.swapReservations = w.swapReservations ∧ SameTerms w.getSwap w'.getSwap :=
    ⟨effect.reservations,relatedTerms effect.records Swap.Observed.terms⟩
  cases op with
  | updateSwapL1Txid => exact observed (updateSwapL1TxidEffect ok)
  | updateSwapConfirmations => exact observed (updateSwapConfirmationsEffect ok)
  | cancelSwap swapId creator =>
      obtain ⟨swap,effect⟩ := cancelSwapEffect ok
      refine ⟨effect.reservations,?_⟩
      intro other
      rw [effect.records other]
      by_cases here : other = swapId
      · rw [if_pos here,here,effect.recorded]
        rfl
      · rw [if_neg here]
  | cleanupOrphanedLocks =>
      cases ok
      rw [cleanupEq]
      exact ⟨rfl,fun _ => rfl⟩

end Locally

end Coinshift
