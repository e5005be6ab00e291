import Coinshift.NetTask
import Coinshift.PoolIndex

/-! The rules of the mempool and the rules of blocks, side by side.
A block is checked as a whole: its authorizations are one list, and the escrow inputs of claims are
told by their position in it. The mempool checks one transaction with its own authorizations. -/
namespace Coinshift
open Checked NetTask

variable {F : Type} (lib : Externals F) (ctxt : BatchVerificationContext)

section Positions

/- The positions of the escrow inputs of claims among the inputs of a block, counted from `authOffset`. -/
def swapClaimPending (authOffset : Nat) : List FilledTransaction → List Nat
  | [] => []
  | f :: rest =>
      (if f.transaction.data.isSwapClaim then
        (f.spentUtxos.zipIdx.filter (·.1.content.isSwapPending)).map (fun utxo => authOffset + utxo.2)
      else []) ++ swapClaimPending (authOffset + f.spentUtxos.length) rest

def checkAddressesByPosition (authorizations : List Authorization) (filled : List FilledTransaction) : Except Error Unit :=
  let pending := swapClaimPending 0 filled
  checkAll (fun entry => ensure (entry.2 ∈ pending ∨ entry.1.1.getAddress lib = entry.1.2.address)
    .wrongPubKeyForAddress) (authorizations.zip (filled.flatMap (·.spentUtxos))).zipIdx

variable {lib} {filled : List FilledTransaction} {f : FilledTransaction} {authOffset : Nat}

theorem pendingFrom {position : Nat} (mem : position ∈ swapClaimPending authOffset filled) : authOffset ≤ position := by
  induction filled generalizing authOffset with
  | nil => cases mem
  | cons f rest ih =>
      rcases List.mem_append.mp mem with first | later
      · split at first
        · obtain ⟨utxo,_,rfl⟩ := List.mem_map.mp first
          exact Nat.le_add_right _ _
        · cases first
      · exact Nat.le_trans (Nat.le_add_right _ _) (ih later)

theorem pendingHere {utxo : Output} {i : Nat} (inside : (utxo,i) ∈ f.spentUtxos.zipIdx) :
    authOffset + i ∈ swapClaimPending authOffset (f :: filled) ↔
      (f.transaction.data.isSwapClaim && utxo.content.isSwapPending) = true := by
  have found : f.spentUtxos[i]? = some utxo := List.mem_zipIdx_iff_getElem?.mp inside
  have small : i < f.spentUtxos.length := (List.getElem?_eq_some_iff.mp found).1
  have notLater : authOffset + i ∉ swapClaimPending (authOffset + f.spentUtxos.length) filled := by
    intro later
    have := pendingFrom later
    omega
  simp only [swapClaimPending,List.mem_append,notLater,or_false,Bool.and_eq_true]
  split
  · next isClaim =>
      simp only [isClaim,true_and,List.mem_map,List.mem_filter]
      constructor
      · rintro ⟨⟨other,j⟩,⟨isThere,pending⟩,same⟩
        have : j = i := by omega
        subst this
        cases (List.mem_zipIdx_iff_getElem?.mp isThere).symm.trans found
        exact pending
      · intro pending
        exact ⟨(utxo,i),⟨inside,pending⟩,rfl⟩
  · next notClaim => simp [notClaim]

theorem spentByPosition : ((filled.flatMap (·.spentUtxos)).zipIdx authOffset).map
    (fun entry => (entry.1,decide (entry.2 ∈ swapClaimPending authOffset filled))) = spentWithExemption filled := by
  induction filled generalizing authOffset with
  | nil => rfl
  | cons f rest ih =>
      have later : ((rest.flatMap (·.spentUtxos)).zipIdx (authOffset + f.spentUtxos.length)).map
          (fun entry => (entry.1,decide (entry.2 ∈ swapClaimPending authOffset (f :: rest)))) = spentWithExemption rest := by
        rw [← ih]
        refine List.map_congr_left (fun entry mem => ?_)
        have bound := List.le_snd_of_mem_zipIdx mem
        have notHere : entry.2 ∉ (if f.transaction.data.isSwapClaim then
            (f.spentUtxos.zipIdx.filter (·.1.content.isSwapPending)).map (fun utxo => authOffset + utxo.2) else []) := by
          intro here
          split at here
          · obtain ⟨utxo,isThere,same⟩ := List.mem_map.mp here
            have := List.snd_lt_of_mem_zipIdx (List.mem_filter.mp isThere).1
            omega
          · cases here
        simp only [swapClaimPending,List.mem_append,notHere,false_or]
      have here : (f.spentUtxos.zipIdx authOffset).map
          (fun entry => (entry.1,decide (entry.2 ∈ swapClaimPending authOffset (f :: rest)))) =
          f.spentUtxos.map (fun utxo => (utxo,f.transaction.data.isSwapClaim && utxo.content.isSwapPending)) := by
        have each : ∀ entry ∈ f.spentUtxos.zipIdx authOffset,
            (entry.1,decide (entry.2 ∈ swapClaimPending authOffset (f :: rest))) =
              (entry.1,f.transaction.data.isSwapClaim && entry.1.content.isSwapPending) := by
          intro entry mem
          have bound := List.le_snd_of_mem_zipIdx mem
          have inside : (entry.1,entry.2 - authOffset) ∈ f.spentUtxos.zipIdx :=
            List.mk_mem_zipIdx_iff_getElem?.mpr (List.mk_mem_zipIdx_iff_le_and_getElem?_sub.mp mem).2
          have position := @pendingHere rest f authOffset _ _ inside
          rw [Nat.add_sub_cancel' bound] at position
          exact Prod.ext rfl (Bool.eq_iff_iff.mpr (decide_eq_true_iff.trans position))
        have outputs := List.zipIdx_map_fst authOffset f.spentUtxos
        rw [List.map_congr_left each]
        nth_rewrite 2 [← outputs]
        rw [List.map_map]
        rfl
      rw [List.flatMap_cons,List.zipIdx_append,List.map_append,here,later]
      rfl

theorem zipWithPositions {α β : Type} {as : List α} {bs : List β} {n : Nat} :
    (as.zip bs).zipIdx n = (as.zip (bs.zipIdx n)).map (fun entry => ((entry.1,entry.2.1),entry.2.2)) := by
  induction as generalizing bs n with
  | nil => rfl
  | cons a as ih =>
      cases bs with
      | nil => rfl
      | cons b bs => rw [List.zip_cons_cons,List.zipIdx_cons,ih,List.zipIdx_cons,List.zip_cons_cons,List.map_cons]

theorem checkedByPosition {authorizations : List Authorization} :
    checkAddressesByPosition lib authorizations filled = .ok () ↔ checkAddresses lib authorizations filled = .ok () := by
  simp only [checkAddressesByPosition,checkAddresses,checkAllOk,ensureOk,zipWithPositions,← @spentByPosition filled 0,
    List.zip_map_right,List.forall_mem_map,Prod.map_fst,Prod.map_snd,id_eq,decide_eq_true_eq]

end Positions

section Slices

def BodyAuthorized (body : Body) (filled : List FilledTransaction) : Prop :=
  checkAddressesByPosition lib body.authorizations filled = .ok () ∧ verifyAuthorizations lib ctxt body = .ok ()

def TransactionAuthorized (tx : AuthorizedTransaction) (filled : FilledTransaction) : Prop :=
  checkAddresses lib tx.authorizations [filled] = .ok () ∧ verifyAuthorizedTransaction lib ctxt tx = .ok ()

variable {lib ctxt} {filled : List FilledTransaction} {authorizations : List Authorization}

theorem zipReplicate {α β : Type} {P : α × β → Prop} {as : List α} {b : β} :
    (∀ pair ∈ as.zip (List.replicate as.length b), P pair) ↔ ∀ a ∈ as, P (a,b) := by
  induction as with
  | nil => simp
  | cons a as ih => simp only [List.length_cons,List.replicate_succ,List.zip_cons_cons,List.forall_mem_cons,ih]

theorem exemptionLength {f : FilledTransaction} : (spentWithExemption [f]).length = f.spentUtxos.length := by
  simp [spentWithExemption]

theorem exemptionCons {f : FilledTransaction} :
    spentWithExemption (f :: filled) = spentWithExemption [f] ++ spentWithExemption filled := by
  simp [spentWithExemption]

theorem slicesAuthorized (sound : BatchSound lib ctxt)
    (filledUp : ∀ f ∈ filled, f.spentUtxos.length = f.transaction.inputs.length)
    (count : authorizations.length = (filled.map (fun f => f.transaction.inputs.length)).sum) :
    ∃ slices, dealAuthorizations (filled.map (·.transaction)) authorizations = some slices ∧
      ((∀ pair ∈ authorizations.zip (spentWithExemption filled),
          pair.2.2 = true ∨ pair.1.getAddress lib = pair.2.1.address) ∧
        (∀ pair ∈ authorizations.zip (authorizationMessages lib (filled.map (·.transaction))),
          lib.verifySignature pair.1.verifyingKey pair.1.signature pair.2 = true) ↔
        ∀ pair ∈ slices.zip filled, TransactionAuthorized lib ctxt pair.1 pair.2) := by
  induction filled generalizing authorizations with
  | nil => exact ⟨[],rfl,by simp [spentWithExemption,authorizationMessages]⟩
  | cons f rest ih =>
      rw [List.map_cons,List.sum_cons] at count
      have enough : ¬ authorizations.length < f.transaction.inputs.length := by omega
      let own := authorizations.take f.transaction.inputs.length
      let others := authorizations.drop f.transaction.inputs.length
      have split : authorizations = own ++ others := (List.take_append_drop _ _).symm
      have ownLength : own.length = f.transaction.inputs.length := by
        rw [List.length_take]
        omega
      have othersLength : others.length = (rest.map (fun f => f.transaction.inputs.length)).sum := by
        rw [List.length_drop]
        omega
      obtain ⟨slices,dealt,same⟩ := ih (fun g mem => filledUp g (List.mem_cons_of_mem f mem)) othersLength
      refine ⟨⟨f.transaction,own⟩ :: slices,?_,?_⟩
      · rw [List.map_cons,dealAuthorizations,if_neg enough,dealt]
        rfl
      have addresses : authorizations.zip (spentWithExemption (f :: rest)) =
          own.zip (spentWithExemption [f]) ++ others.zip (spentWithExemption rest) := by
        rw [exemptionCons,split]
        exact List.zip_append (ownLength.trans ((filledUp f List.mem_cons_self).symm.trans exemptionLength.symm))
      have messages : authorizations.zip (authorizationMessages lib ((f :: rest).map (·.transaction))) =
          own.zip (List.replicate own.length (encodeTransaction lib f.transaction)) ++
            others.zip (authorizationMessages lib (rest.map (·.transaction))) := by
        rw [List.map_cons,authorizationMessages,List.flatMap_cons,split,ownLength]
        exact List.zip_append (by rw [ownLength,List.length_replicate])
      have head : TransactionAuthorized lib ctxt ⟨f.transaction,own⟩ f ↔
          (∀ pair ∈ own.zip (spentWithExemption [f]), pair.2.2 = true ∨ pair.1.getAddress lib = pair.2.1.address) ∧
          ∀ a ∈ own, lib.verifySignature a.verifyingKey a.signature (encodeTransaction lib f.transaction) = true := by
        simp only [TransactionAuthorized,checkAddresses,checkAllOk,ensureOk,verifyAuthorizedTransactionOk sound,ownLength,
          true_and]
      rw [addresses,messages,List.forall_mem_append,List.forall_mem_append,zipReplicate,List.zip_cons_cons,
        List.forall_mem_cons,head,← same]
      tauto

theorem bodyAuthorizedIff (sound : BatchSound lib ctxt) {body : Body}
    (transactions : filled.map (·.transaction) = body.transactions)
    (filledUp : ∀ f ∈ filled, f.spentUtxos.length = f.transaction.inputs.length)
    (count : body.authorizations.length = (body.transactions.map (fun tx => tx.inputs.length)).sum) :
    ∃ slices, authorizedTransactions body = some slices ∧
      (BodyAuthorized lib ctxt body filled ↔ ∀ pair ∈ slices.zip filled, TransactionAuthorized lib ctxt pair.1 pair.2) := by
  have total : body.authorizations.length = (filled.map (fun f => f.transaction.inputs.length)).sum := by
    rw [count,← transactions,List.map_map]
    rfl
  obtain ⟨slices,dealt,same⟩ := slicesAuthorized sound filledUp total
  refine ⟨slices,by rw [authorizedTransactions,← transactions,dealt],?_⟩
  rw [← same,BodyAuthorized,checkedByPosition,checkAddresses,checkAllOk,verifyAuthorizationsOk sound,transactions]
  simp only [ensureOk,count,true_and]

end Slices

section Rules

def State.regenerateProof (prove : F → List Hash → Except Text UtreexoProof) (s : State F) (tx : Transaction) :
    Except Text Transaction := do
  let proof ← prove (s.accumulator lib) (tx.inputs.map (·.2))
  pure { tx with proof }

def PassesInBlock (s : State F) (tx : AuthorizedTransaction) : Prop :=
  ∃ g filled, gatherTransaction lib s (s.accumulator lib) Gathered.empty tx.transaction = .ok g ∧
    g.filledTransactions = [filled] ∧ BodyAuthorized lib ctxt ⟨[],[tx.transaction],tx.authorizations⟩ [filled]

variable {lib ctxt} {s : State F} {tx : AuthorizedTransaction} {filled : FilledTransaction}

theorem singleAuthorized (sound : BatchSound lib ctxt) :
    BodyAuthorized lib ctxt ⟨[],[tx.transaction],tx.authorizations⟩ [filled] ↔ TransactionAuthorized lib ctxt tx filled := by
  rw [BodyAuthorized,TransactionAuthorized,checkedByPosition,verifyAuthorizationsOk sound,verifyAuthorizedTransactionOk sound]
  simp only [List.map_cons,List.map_nil,List.sum_cons,List.sum_nil,Nat.add_zero,authorizationMessages,List.flatMap_cons,
    List.flatMap_nil,List.append_nil]
  refine and_congr_right (fun _ => and_congr_right (fun count => ?_))
  rw [← count,zipReplicate]

theorem rulesShared {tx : Transaction} (notClaim : tx.data.isSwapClaim = false) :
    validateMempoolTransaction lib s tx filled = validateBlockTransaction lib s tx filled := by
  unfold validateMempoolTransaction validateBlockTransaction
  cases kind : tx.data with
  | swapClaim swapId claimer proof =>
      rw [kind] at notClaim
      cases notClaim
  | swapCreate create => rfl
  | swapAccept swapId claimer => rfl
  | regular => rfl

theorem mempoolRulesInBlock {tx : Transaction} (ok : validateMempoolTransaction lib s tx filled = .ok ()) :
    validateBlockTransaction lib s tx filled = .ok () := by
  cases kind : tx.data with
  | swapClaim swapId claimer proof =>
      simp only [validateMempoolTransaction,kind,validateSwapClaim,bindOk] at ok
      obtain ⟨_,_,_,_,_,_,consensus⟩ := ok
      simpa only [validateBlockTransaction,kind] using consensus
  | swapCreate create => exact rulesShared (by rw [kind]; rfl) ▸ ok
  | swapAccept swapId claimer => exact rulesShared (by rw [kind]; rfl) ▸ ok
  | regular => exact rulesShared (by rw [kind]; rfl) ▸ ok

theorem feeCounts {fee : Amount} : Amount.zero.checkedAdd fee = some fee := by
  have small := fee.sat.toNat_lt
  unfold Amount.checkedAdd
  rw [Amount.valZero,Nat.zero_add,if_pos (by exact small)]
  exact congrArg (fun sat => some (Amount.mk sat)) (UInt64.ofNat_toNat)

theorem acceptedInBlock (sound : BatchSound lib ctxt) {fee : Amount} (ok : validateTransaction lib s ctxt tx = .ok fee)
    (verified : lib.verify (s.accumulator lib) tx.transaction.proof (tx.transaction.inputs.map (·.2)) = .ok true) :
    PassesInBlock lib ctxt s tx := by
  simp only [validateTransaction,bindOk,mapErrorOk] at ok
  obtain ⟨filled,fill,_,rules,_,addresses,_,signatures,value⟩ := ok
  have proof : verifyProof lib (s.accumulator lib) tx.transaction.proof (tx.transaction.inputs.map (·.2)) = .ok true := by
    rw [verifyProof,verified]
    rfl
  have gathered : gatherTransaction lib s (s.accumulator lib) Gathered.empty tx.transaction =
      .ok ⟨tx.transaction.inputs.map (·.1),tx.transaction.requests lib,[filled],fee⟩ := by
    have total : Gathered.empty.totalFees.checkedAdd fee = some fee := feeCounts
    simp only [gatherTransaction,fill,proof,mempoolRulesInBlock rules,value,total,okBind,okOr,ensure,if_true]
    rfl
  exact ⟨_,filled,gathered,rfl,(singleAuthorized sound).mpr ⟨addresses,signatures⟩⟩

theorem passingAccepted (sound : BatchSound lib ctxt) (notClaim : tx.transaction.data.isSwapClaim = false)
    (passes : PassesInBlock lib ctxt s tx) : ∃ fee, validateTransaction lib s ctxt tx = .ok fee := by
  obtain ⟨g,filled,gathered,same,authorized⟩ := passes
  simp only [gatherTransaction,bindOk,pureOk,ensureOk] at gathered
  obtain ⟨filled',fill,_,_,_,_,_,rules,fee,value,_,_,rfl⟩ := gathered
  cases List.singleton_inj.mp same
  obtain ⟨addresses,signatures⟩ := (singleAuthorized sound).mp authorized
  refine ⟨fee,?_⟩
  simp only [validateTransaction,fill,rulesShared notClaim,rules,addresses,signatures,value,okBind]
  rfl

theorem rulesAgree {prove : F → List Hash → Except Text UtreexoProof} (sound : BatchSound lib ctxt)
    (proves : ∀ forest targets proof, prove forest targets = .ok proof → lib.verify forest proof targets = .ok true) :
    (∀ (s : State F) (tx : AuthorizedTransaction) (transaction : Transaction) (fee : Amount),
      s.regenerateProof lib prove tx.transaction = .ok transaction →
      validateTransaction lib s ctxt { tx with transaction } = .ok fee → PassesInBlock lib ctxt s { tx with transaction }) ∧
    (∀ (s : State F) (tx : AuthorizedTransaction), tx.transaction.data.isSwapClaim = false → PassesInBlock lib ctxt s tx →
      ∃ fee, validateTransaction lib s ctxt tx = .ok fee) ∧
    ∀ (s : State F) (body : Body) (filled : List FilledTransaction),
      collect (fillTransaction s) body.transactions = .ok filled →
      body.authorizations.length = (body.transactions.map (fun tx => tx.inputs.length)).sum →
      ∃ slices, authorizedTransactions body = some slices ∧
        (BodyAuthorized lib ctxt body filled ↔
          ∀ pair ∈ slices.zip filled, TransactionAuthorized lib ctxt pair.1 pair.2) := by
  refine ⟨fun s tx transaction fee regenerated ok => ?_,fun s tx => passingAccepted sound,
    fun s body filled fills count => ?_⟩
  · simp only [State.regenerateProof,bindOk,pureOk] at regenerated
    obtain ⟨proof,proved,rfl⟩ := regenerated
    exact acceptedInBlock sound ok (proves _ _ _ proved)
  · have sources : List.Forall₂ (FillSource s) body.transactions filled :=
      (collectOk.mp fills).imp (fun _ _ => fillSource)
    refine bodyAuthorizedIff sound ?_ (fun f mem => ?_) count
    · have same : List.Forall₂ (· = ·) (filled.map (·.transaction)) body.transactions := by
        rw [List.forall₂_map_left_iff]
        exact sources.flip.imp (fun _ _ source => source.transaction)
      exact List.forall₂_eq_eq_eq ▸ same
    · obtain ⟨tx,_,source⟩ := relatedRight sources mem
      rw [source.transaction,source.spent.length_eq]

end Rules

namespace Reference

theorem heldVerifies (forest : Forest) (targets : List Hash) (proof : UtreexoProof)
    (proved : proveHeld forest targets = .ok proof) : externals.verify forest proof targets = .ok true := by
  unfold proveHeld at proved
  split at proved
  · next all => exact congrArg Except.ok all
  · cases proved

def signed (tx : Transaction) (keys : List VerifyingKey) : AuthorizedTransaction := ⟨tx,keys.map (fun key => sign key tx)⟩

def twoPayments : Body := Reference.body [(payFirst,[alice]),(payApart,[bob])] []

def paymentsAccepted (s : State Forest) : Bool :=
  (s.regenerateProof externals proveHeld payFirst).toOption = some payFirst &&
    ((validateTransaction externals s context (signed payFirst [alice])).isOk &&
      (collect (fillTransaction s) twoPayments.transactions).isOk)

theorem paymentPassesInBlock : ∃ s, Reachable externals context s ∧ PassesInBlock externals context s (signed payFirst [alice]) ∧
    (∃ fee, validateTransaction externals s context (signed payFirst [alice]) = .ok fee) ∧
    ∃ slices, authorizedTransactions twoPayments = some slices := by
  obtain ⟨s,reached,accepted⟩ := @reachesReachable funded paymentsAccepted (by decide +kernel)
  simp only [paymentsAccepted,Bool.and_eq_true,decide_eq_true_eq] at accepted
  obtain ⟨regenerates,valid,fills⟩ := accepted
  obtain ⟨transaction,regenerated,rfl⟩ : ∃ t, s.regenerateProof externals proveHeld payFirst = .ok t ∧ t = payFirst := by
    cases made : s.regenerateProof externals proveHeld payFirst with
    | error e =>
        rw [made] at regenerates
        cases regenerates
    | ok t =>
        rw [made] at regenerates
        exact ⟨t,rfl,Option.some.inj regenerates⟩
  obtain ⟨fee,isValid⟩ := isOkExists valid
  obtain ⟨filled,isFilled⟩ := isOkExists fills
  obtain ⟨inBlock,inMempool,sliced⟩ := rulesAgree batchSound heldVerifies
  have passes := inBlock s (signed payFirst [alice]) payFirst fee regenerated isValid
  obtain ⟨slices,dealt,_⟩ := sliced s twoPayments filled isFilled (by decide +kernel)
  exact ⟨s,reached,passes,inMempool s _ rfl passes,slices,dealt⟩

end Reference
end Coinshift
