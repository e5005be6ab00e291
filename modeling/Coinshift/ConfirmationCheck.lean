import Coinshift.SwapStates
import Coinshift.TxidForms

/-! The task that looks up, from time to time, how often the payments of waiting swaps are
confirmed by now. It asks the parent chain's RPC for each of them and passes a count that has
grown on to the tables; a call that fails there is logged and forgotten. -/
namespace Coinshift
open Checked SwapTables

/- For each parent chain: no RPC configured, or what the server answers to a txid, if it does. -/
abbrev ConfirmationRpc := ParentChainType → Option (Text → Option UInt32)

section Task

variable {F : Type} (rpc : ConfirmationRpc)

def Swap.isWaiting (swap : Swap) : Bool :=
  match swap.state with
  | .waitingConfirmations .. => true
  | _ => false

def SwapTables.swapsToCheck (w : SwapTables) : List Swap :=
  w.loadAllSwaps.filter (fun swap => swap.isWaiting && !swap.l1Txid.isUnset)

def confirmationRequest (swap : Swap) : Option Text :=
  if (rpc swap.parentChain).isSome then some swap.l1Txid.toHex else none

def reportedConfirmations (swap : Swap) : Option UInt32 := do
  let client ← rpc swap.parentChain
  client swap.l1Txid.toHex

def checkSwap (tip : Option BlockHash) (height : Option Nat) (progress : SwapTables × Nat) (swap : Swap) :
    SwapTables × Nat :=
  match reportedConfirmations rpc swap with
  | none => progress
  | some newConfirmations =>
      if newConfirmations ≤ swap.state.current then progress
      else match tip, height with
        | some blockHash, some blockHeight =>
            match progress.1.updateSwapL1Txid swap.id swap.l1Txid newConfirmations none none blockHash blockHeight with
            | .ok w => (w,progress.2 + 1)
            | .error _ => progress
        | _, _ => progress

/- One pass over the swaps examined; without an update the transaction is dropped. -/
def swapConfirmationCheck (s : State F) : State F :=
  let checked := s.swapsToCheck.foldl (checkSwap rpc s.tip s.height) (s.toSwapTables,0)
  if 0 < checked.2 then { s with toSwapTables := checked.1 } else s

end Task

section Pass

variable {F : Type} {rpc : ConfirmationRpc} {s : State F} {swap : Swap}

theorem checkedSource (mem : swap ∈ s.swapsToCheck) : s.getSwap swap.id = some swap ∧
    ∃ current required, swap.state = .waitingConfirmations current required := by
  obtain ⟨loaded,selected⟩ := List.mem_filter.mp mem
  refine ⟨memLoadAllSwaps.mp loaded,?_⟩
  rw [Bool.and_eq_true] at selected
  have waits := selected.1
  unfold Swap.isWaiting at waits
  split at waits
  · next current required isWaiting => exact ⟨current,required,isWaiting⟩
  · cases waits

/- A waiting swap takes no other payment, and so no other count. -/
theorem waitingRejected {w : SwapTables} {l1Txid : SwapTxId} {n current required : UInt32} {l1Claimer : Option Text}
    {l2Claimer : Option Address} {blockHash : BlockHash} {height : Nat} (recorded : w.getSwap swap.id = some swap)
    (waits : swap.state = .waitingConfirmations current required) :
    w.updateSwapL1Txid swap.id l1Txid n l1Claimer l2Claimer blockHash height =
      .error (.invalidTransaction (.cannotBeUpdated swap.id swap.state)) := by
  have notPending : swap.state ≠ .pending := by
    rw [waits]
    exact fun same => nomatch same
  unfold updateSwapL1Txid
  rw [recorded]
  simp only [okOr,okBind,ensure,if_neg notPending]
  rfl

theorem checkSwapIdle {tip : Option BlockHash} {height : Option Nat} {updated : Nat} (mem : swap ∈ s.swapsToCheck) :
    checkSwap rpc tip height (s.toSwapTables,updated) swap = (s.toSwapTables,updated) := by
  obtain ⟨recorded,current,required,waits⟩ := checkedSource mem
  unfold checkSwap
  split
  · rfl
  · split
    · rfl
    · split
      · rw [waitingRejected recorded waits]
      · rfl

theorem checkIdle : swapConfirmationCheck rpc s = s := by
  have idle {swaps : List Swap} (all : ∀ swap ∈ swaps, swap ∈ s.swapsToCheck) :
      swaps.foldl (checkSwap rpc s.tip s.height) (s.toSwapTables,0) = (s.toSwapTables,0) := by
    induction swaps with
    | nil => rfl
    | cons swap rest ih =>
        rw [List.foldl_cons,checkSwapIdle (all swap List.mem_cons_self)]
        exact ih (fun other mem => all other (List.mem_cons_of_mem swap mem))
  unfold swapConfirmationCheck
  rw [idle (fun _ mem => mem)]
  rfl

def SwapState.advanced (current required n : UInt32) : SwapState :=
  if n ≤ current then .waitingConfirmations current required
  else if required ≤ n then .readyToClaim
  else .waitingConfirmations n required

/- The pass does to every swap examined what an update of its confirmations does, and nothing else. -/
structure ConfirmationsAdvance (rpc : ConfirmationRpc) (s : State F) : Prop where
  updated : ∀ swap ∈ s.swapsToCheck, ∀ n, reportedConfirmations rpc swap = some n → ∀ blockHash height,
    s.tip = some blockHash → s.height = some height →
    ∃ w, s.updateSwapConfirmations swap.id n blockHash height = .ok w ∧
      (swapConfirmationCheck rpc s).getSwap swap.id = w.getSwap swap.id
  states : ∀ swap ∈ s.swapsToCheck, ∀ n, reportedConfirmations rpc swap = some n →
    ∀ current required, swap.state = .waitingConfirmations current required →
    ((swapConfirmationCheck rpc s).getSwap swap.id).map (·.state) = some (.advanced current required n)
  others : ∀ swapId, (∀ swap ∈ s.swapsToCheck, swap.id = swapId → reportedConfirmations rpc swap = none) →
    (swapConfirmationCheck rpc s).getSwap swapId = s.getSwap swapId

theorem advancedSame {current required n : UInt32} :
    SwapState.advanced current required n = .waitingConfirmations current required ↔ n ≤ current := by
  unfold SwapState.advanced
  split
  · next low => exact iff_of_true rfl low
  · next high =>
      refine iff_of_false (fun same => ?_) high
      split at same
      · cases same
      · obtain ⟨rfl,_⟩ := SwapState.waitingConfirmations.inj same
        exact high (UInt32.le_refl n)

/- Since the pass does nothing, no count it is told may be news. -/
theorem ConfirmationsAdvance.low (advance : ConfirmationsAdvance rpc s) :
    ∀ swap ∈ s.swapsToCheck, ∀ n, reportedConfirmations rpc swap = some n → n ≤ swap.state.current := by
  intro swap mem n reported
  obtain ⟨recorded,current,required,waits⟩ := checkedSource mem
  have same := advance.states swap mem n reported current required waits
  rw [checkIdle,recorded,Option.map_some,waits,Option.some_inj] at same
  rw [waits]
  exact advancedSame.mp same.symm

theorem confirmationsAdvanceIff : ConfirmationsAdvance rpc s ↔
    ∀ swap ∈ s.swapsToCheck, ∀ n, reportedConfirmations rpc swap = some n → n ≤ swap.state.current := by
  constructor
  · exact ConfirmationsAdvance.low
  · intro low
    have idle : ∀ swap ∈ s.swapsToCheck, ∀ n, reportedConfirmations rpc swap = some n →
        ∀ current required, swap.state = .waitingConfirmations current required → n ≤ current := by
      intro swap mem n reported current required waits
      have := low swap mem n reported
      rwa [waits] at this
    refine ⟨?_,?_,fun _ _ => by rw [checkIdle]⟩
    · intro swap mem n reported blockHash height _ _
      obtain ⟨recorded,current,required,waits⟩ := checkedSource mem
      refine ⟨s.toSwapTables,?_,by rw [checkIdle]⟩
      simp only [updateSwapConfirmations,recorded,okOr,okBind,waits,if_pos (idle swap mem n reported _ _ waits)]
      rfl
    · intro swap mem n reported current required waits
      rw [checkIdle,(checkedSource mem).1,Option.map_some,waits,advancedSame.mpr (idle swap mem n reported _ _ waits)]

end Pass

section Requests

variable {rpc : ConfirmationRpc} {w : SwapTables} {height : Nat} {blockHash : BlockHash} {replies : RpcReplies}
  {swapId : SwapId} {swap after : Swap} {found : List (Text × TransactionInfo)} {m : Text × TransactionInfo} {txid : Hash}

theorem requestAfterScan (recorded : w.getSwap swapId = some swap) (unset : swap.l1Txid.isUnset = true)
    (reply : replies swapId = some (.ok found)) (first : firstAcceptable found swap = some m)
    (shown : m.2.txid = displayTxid txid)
    (scanned : (processCoinshiftTransactions w height blockHash replies).getSwap swapId = some after)
    (checked : after ∈ (processCoinshiftTransactions w height blockHash replies).swapsToCheck) :
    after.l1Txid.toHex = hexEncode (hashBytes txid) := by
  obtain ⟨_,selected⟩ := List.mem_filter.mp checked
  simp only [Bool.and_eq_true,Bool.not_eq_true'] at selected
  have own := getSwapId recorded
  have record := @scanRecords replies blockHash height w swapId
  rw [recorded,scanned] at record
  obtain ⟨remade⟩ := record
  cases remade with
  | kept _ _ =>
      rw [unset] at selected
      cases selected.2
  | expired _ => cases selected.1
  | seen _ sees =>
      obtain ⟨found',reply',first'⟩ := sees.reply
      rw [own,reply] at reply'
      cases reply'
      cases first.symm.trans first'
      rcases sees.txid with ⟨_,decoded⟩ | ⟨isSet,_⟩
      · rw [shown,fromHexRpcDisplay] at decoded
        rw [← Option.some.inj decoded]
        rfl
      · rw [unset] at isSet
        cases isSet

structure TxidFormsAgree (txid : Hash) : Prop where
  constructors : SwapTxId.fromHexRpc (displayTxid txid) = some (SwapTxId.fromBitcoinTxid txid)
  rpcText : (SwapTxId.fromHexRpc (displayTxid txid)).map SwapTxId.toHexRpc = some (displayTxid txid)
  bitcoin : (SwapTxId.fromBitcoinTxid txid).toBitcoinTxid = some txid
  canonicalText : (SwapTxId.fromHex (hexEncode (hashBytes txid))).map SwapTxId.toHex = some (hexEncode (hashBytes txid))
  request : ∀ (rpc : ConfirmationRpc) (w : SwapTables) (height : Nat) (blockHash : BlockHash) (replies : RpcReplies)
    (swapId : SwapId) (swap after : Swap) (found : List (Text × TransactionInfo)) (m : Text × TransactionInfo),
    w.getSwap swapId = some swap → swap.l1Txid.isUnset = true → replies swapId = some (.ok found) →
    firstAcceptable found swap = some m → m.2.txid = displayTxid txid →
    (processCoinshiftTransactions w height blockHash replies).getSwap swapId = some after →
    after ∈ (processCoinshiftTransactions w height blockHash replies).swapsToCheck →
    ∀ request, confirmationRequest rpc after = some request → request = displayTxid txid

theorem txidFormsAgreeIff : TxidFormsAgree txid ↔ (hashBytes txid).reverse = hashBytes txid := by
  constructor
  · intro agree
    exact constructorsAgree.mp agree.constructors
  · intro palindrome
    refine ⟨constructorsAgree.mpr palindrome,?_,toBitcoinFromBitcoin,toHexFromHex,?_⟩
    · rw [fromHexRpcDisplay,Option.map_some,toHexRpcDisplay]
    · intro rpc w height blockHash replies swapId swap after found m recorded unset reply first shown scanned checked
        request asked
      have sent := requestAfterScan recorded unset reply first shown scanned checked
      simp only [confirmationRequest] at asked
      split at asked
      · cases asked
        rw [sent,displayTxid,palindrome]
      · cases asked

end Requests

namespace Reference

def thriceConfirmed : ConfirmationRpc := fun _ => some (fun _ => some 3)

theorem waitingSwapStays : ∃ s, Reachable externals context s ∧ ¬ ConfirmationsAdvance thriceConfirmed s := by
  obtain ⟨s,reached,waits⟩ := @reachesReachable slowScript
    (fun s => s.swapsToCheck.any (fun swap => swap.state = .waitingConfirmations 2 3)) (by decide +kernel)
  refine ⟨s,reached,fun advance => ?_⟩
  obtain ⟨swap,mem,state⟩ := List.any_eq_true.mp waits
  have low := advance.low swap mem 3 rfl
  rw [of_decide_eq_true state] at low
  exact absurd low (by decide)

def explorerTxid : Hash := 0xceaa5bbe14a2fe2658115f32ea90a11c073a5028df5713adbcdb35c70c3e9127

def explorerReply : RpcReplies := fun _ => some (.ok [(['s'],⟨displayTxid explorerTxid,2,some 5⟩)])

def explorerScript : List Move :=
  funded ++ [grow [(createSlow,[alice])],.grow (Reference.body [] []) [] explorerReply]

theorem explorerFormsDiffer : ¬ TxidFormsAgree explorerTxid ∧ ∃ s, Reachable externals context s ∧
    ∃ swap ∈ s.swapsToCheck, ∃ request, confirmationRequest thriceConfirmed swap = some request ∧
      request ≠ displayTxid explorerTxid := by
  have turned : hexEncode (hashBytes explorerTxid) ≠ displayTxid explorerTxid := by decide +kernel
  constructor
  · intro agree
    exact turned (congrArg hexEncode (constructorsAgree.mp agree.constructors)).symm
  · obtain ⟨s,reached,asks⟩ := @reachesReachable explorerScript
      (fun s => s.swapsToCheck.any (fun swap =>
        confirmationRequest thriceConfirmed swap = some (hexEncode (hashBytes explorerTxid)))) (by decide +kernel)
    obtain ⟨swap,mem,asked⟩ := List.any_eq_true.mp asks
    exact ⟨s,reached,swap,mem,_,of_decide_eq_true asked,turned⟩

end Reference
end Coinshift
