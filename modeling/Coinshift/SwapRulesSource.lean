import Coinshift.SwapRules

/-! What a transaction that passed the swap rules has shown, one structure for each kind. -/
namespace Coinshift
open Checked

variable {F : Type} {lib : Externals F} {s : State F} {tx : Transaction} {filled : FilledTransaction}

structure CreateSource (lib : Externals F) (s : State F) (create : SwapCreate) (tx : Transaction)
    (filled : FilledTransaction) : Prop where
  swapId : ∃ first ∈ filled.spentUtxos.head?, create.swapId = SwapId.fromL2ToL1 lib create.l1RecipientAddress
    (Amount.fromSat create.l1Amount) first.address create.l2Recipient
  unrecorded : s.getSwap create.swapId = none
  inputs : ∀ input ∈ tx.inputs, ∀ locked, s.isOutputLockedToSwap input.1 = some locked → locked = create.swapId
  escrowed : ∃ value, Amount.checkedSum (tx.outputs.filterMap (Output.escrowFor create.swapId)) = some value ∧
    Amount.fromSat create.l2Amount ≤ value

theorem checkCreateInputOk {swapId : SwapId} {o : OutPoint} (ok : checkCreateInput s swapId o = .ok ()) {locked : SwapId}
    (isLocked : s.isOutputLockedToSwap o = some locked) : locked = swapId := by
  unfold checkCreateInput at ok
  rw [isLocked] at ok
  by_cases same : locked = swapId
  · exact same
  · simp only [same,if_false] at ok
    split at ok <;> cases ok

theorem createSource {create : SwapCreate} (kind : tx.data = .swapCreate create)
    (ok : validateSwapCreate lib s tx filled = .ok ()) : CreateSource lib s create tx filled := by
  simp only [validateSwapCreate,kind,bindOk,okOrOk,ensureOk,checkAllOk] at ok
  obtain ⟨first,head,_,same,_,unrecorded,_,_,_,_,_,inputs,_,_,_,_,value,sum,enough⟩ := ok
  rw [same] at unrecorded
  exact ⟨⟨first,head,same.symm⟩,unrecorded,fun input mem _ => checkCreateInputOk (inputs input mem),value,sum,enough⟩

theorem noLockedOutputsSource (kind : tx.data.isSwapClaim = false) (ok : validateNoLockedOutputs s tx = .ok ())
    {input : OutPoint × Hash} (mem : input ∈ tx.inputs) : s.isOutputLockedToSwap input.1 = none := by
  simp only [validateNoLockedOutputs,kind,Bool.false_eq_true,if_false,checkAllOk] at ok
  have passed := ok input mem
  split at passed
  · cases passed
  · assumption

structure AcceptSource (s : State F) (swapId : SwapId) (claimer : Address) (tx : Transaction)
    (filled : FilledTransaction) (swap : Swap) : Prop where
  inputs : ∀ input ∈ tx.inputs, s.isOutputLockedToSwap input.1 = none
  recorded : s.getSwap swapId = some swap
  isOpen : swap.l2Recipient = none
  unexpired : ∀ expiresAt, swap.expiresAtHeight = some expiresAt → s.nextHeight < expiresAt
  unreserved : ∀ r, s.getSwapReservation swapId = some r → ¬ r.isLiveAt swap.parentChain s.nextHeight
  owned : ∃ utxo ∈ filled.spentUtxos, utxo.address = claimer

theorem acceptSource {swapId : SwapId} {claimer : Address} (kind : tx.data = .swapAccept swapId claimer)
    (ok : validateSwapAccept s tx filled = .ok ()) : ∃ swap, AcceptSource s swapId claimer tx filled swap := by
  simp only [validateSwapAccept,kind,bindOk,okOrOk,ensureOk,ensureSomeOk] at ok
  obtain ⟨_,unlocked,swap,recorded,_,isOpen,_,unexpired,_,unreserved,owned⟩ := ok
  have notClaim : tx.data.isSwapClaim = false := by rw [kind]; rfl
  exact ⟨swap,fun input mem => noLockedOutputsSource notClaim unlocked mem,recorded,isOpen,unexpired,unreserved,owned⟩

structure ClaimSource (s : State F) (swapId : SwapId) (declared : Option Address) (tx : Transaction)
    (swap : Swap) (recipient : Address) (paid : Amount) : Prop where
  inputs : ∀ input ∈ tx.inputs, ∀ locked, s.isOutputLockedToSwap input.1 = some locked → locked = swapId
  escrow : ∃ input ∈ tx.inputs, s.isOutputLockedToSwap input.1 = some swapId
  recorded : s.getSwap swapId = some swap
  entitled : s.entitledClaimerAt swap s.nextHeight = some recipient
  declares : ∀ a, declared = some a → a = recipient
  pays : amountPaidTo tx recipient = .ok paid
  enough : swap.l2Amount ≤ paid

theorem checkClaimInputOk {swapId : SwapId} {o : OutPoint} {found : Bool} :
    checkClaimInput s swapId o = .ok found ↔
      (∀ locked, s.isOutputLockedToSwap o = some locked → locked = swapId) ∧
      (found = true ↔ s.isOutputLockedToSwap o = some swapId) := by
  unfold checkClaimInput
  cases locked : s.isOutputLockedToSwap o with
  | none => cases found <;> simp
  | some lockedSwapId =>
      by_cases same : lockedSwapId = swapId
      · cases found <;> simp [same]
      · simp [same]

theorem claimInputsOk {swapId : SwapId} {inputs : List (OutPoint × Hash)} {before : Bool} {after : Bool} :
    inputs.foldlM (fun found input => do
        let locked ← checkClaimInput s swapId input.1
        pure (found || locked)) before = .ok after ↔
      (∀ input ∈ inputs, ∀ locked, s.isOutputLockedToSwap input.1 = some locked → locked = swapId) ∧
      (after = true ↔ before = true ∨ ∃ input ∈ inputs, s.isOutputLockedToSwap input.1 = some swapId) := by
  induction inputs generalizing before with
  | nil => cases before <;> cases after <;> simp [pure,Except.pure]
  | cons input inputs ih =>
      simp only [foldConsOk,bindOk,pureOk,checkClaimInputOk,List.forall_mem_cons]
      constructor
      · intro ok
        obtain ⟨_,⟨found,⟨own,isFound⟩,rfl⟩,rest⟩ := ok
        obtain ⟨others,isAfter⟩ := ih.mp rest
        refine ⟨⟨own,others⟩,isAfter.trans ?_⟩
        simp only [Bool.or_eq_true,isFound,List.exists_mem_cons_iff,or_assoc]
      · intro ok
        obtain ⟨⟨own,others⟩,isAfter⟩ := ok
        refine ⟨_,⟨decide (s.isOutputLockedToSwap input.1 = some swapId),⟨own,by simp⟩,rfl⟩,ih.mpr ⟨others,?_⟩⟩
        simpa only [Bool.or_eq_true,decide_eq_true_eq,List.exists_mem_cons_iff,or_assoc] using isAfter

theorem claimConsensusOk {swapId : SwapId} {declared : Option Address} {proof : Option (List Byte)}
    (kind : tx.data = .swapClaim swapId declared proof) :
    validateSwapClaimConsensus s tx = .ok () ↔
      ∃ swap recipient paid, ClaimSource s swapId declared tx swap recipient paid := by
  simp only [validateSwapClaimConsensus,kind,bindOk,okOrOk,ensureOk,ensureSomeOk,claimInputsOk]
  constructor
  · intro ok
    obtain ⟨_,⟨inputs,isFound⟩,_,rfl,swap,recorded,recipient,entitled,_,declares,paid,pays,enough⟩ := ok
    exact ⟨swap,recipient,paid,inputs,by simpa using isFound,recorded,entitled,declares,pays,enough⟩
  · intro source
    obtain ⟨swap,recipient,paid,source⟩ := source
    exact ⟨true,⟨source.inputs,by simpa using source.escrow⟩,(),rfl,swap,source.recorded,recipient,source.entitled,(),
      source.declares,paid,source.pays,source.enough⟩

end Coinshift
