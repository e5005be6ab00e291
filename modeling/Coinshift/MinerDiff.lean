import Coinshift.BlockTemplate

/-! The miner and the validator ask the accumulator for the same change.
The miner builds two plain lists, the validator a log of requests and from it a diff that cancels; where no leaf
comes up twice nothing cancels, and the lists are equal, order and all. -/
namespace Coinshift
open Checked

def Gathered.diff {F : Type} (lib : Externals F) (gathered : Gathered) (merkleRoot : MerkleRoot) (coinbase : List Output) :
    AccumulatorDiff :=
  (AccumulatorDiff.empty.recordAll (coinbaseRequests lib merkleRoot coinbase)).recordAll gathered.accumulatorDiffTxs

namespace NetTask

variable {F : Type} {lib : Externals F} {s : State F} {requests : List (Bool × Hash)} {merkleRoot : MerkleRoot}
  {coinbase : List Output} {txs : List FilledTransaction}

theorem leavesPerm : (requests.map (·.2)).Perm (leavesOf true requests ++ leavesOf false requests) := by
  have split : (requests.filter (·.1) ++ requests.filter (fun request => !request.1)).Perm requests :=
    List.filter_append_perm _ requests
  have added : requests.filter (·.1 = true) = requests.filter (·.1) := by simp
  have deleted : requests.filter (·.1 = false) = requests.filter (fun request => !request.1) := by simp
  rw [leavesOf,leavesOf,added,deleted,← List.map_append]
  exact (split.map _).symm

theorem bodyDiffLeaves (distinct : (addedLeaves lib merkleRoot coinbase txs ++ deletedLeaves txs).Nodup) :
    let diff := AccumulatorDiff.empty.recordAll (bodyRequests lib merkleRoot ⟨coinbase,txs.map (·.transaction),[]⟩)
    diff.insertions = addedLeaves lib merkleRoot coinbase txs ∧ diff.deletions = deletedLeaves txs := by
  obtain ⟨added,deleted⟩ := @leavesOfBody _ lib merkleRoot coinbase txs
  rw [added,deleted] at distinct ⊢
  exact diffLeaves (leavesPerm.nodup_iff.mpr distinct)

theorem gatheredDiff {body : Body} {gathered : Gathered}
    (gather : body.transactions.foldlM (gatherTransaction lib s (s.accumulator lib)) Gathered.empty = .ok gathered) :
    gathered.diff lib merkleRoot body.coinbase = AccumulatorDiff.empty.recordAll (bodyRequests lib merkleRoot
      ⟨body.coinbase,gathered.filledTransactions.map (·.transaction),[]⟩) := by
  obtain ⟨filled,source⟩ := gatherSource gather
  have requests : gathered.accumulatorDiffTxs = body.transactions.flatMap (Transaction.requests lib) := source.requests
  have list : gathered.filledTransactions = filled := source.filledTransactions
  have same : filled.map (·.transaction) = body.transactions := filledTransactions source.transactions
  rw [Gathered.diff,requests,list,same,bodyRequests,AccumulatorDiff.recordAll,AccumulatorDiff.recordAll,
    AccumulatorDiff.recordAll,List.foldl_append]

def filledBody (coinbase : List Output) (txs : List FilledTransaction) : Body := ⟨coinbase,txs.map (·.transaction),[]⟩

/- The lists of `modify_memforest` are those of the diff, whichever state the transactions are filled from. -/
theorem minerMatchesValidator (lib : Externals F) (coinbase : List Output) (txs : List FilledTransaction)
    (merkleRoot : MerkleRoot) (isRoot : Body.computeMerkleRoot lib coinbase txs = .ok merkleRoot)
    (distinct : (addedLeaves lib merkleRoot coinbase txs ++ deletedLeaves txs).Nodup) :
    ∃ diff, diff = AccumulatorDiff.empty.recordAll (bodyRequests lib merkleRoot (filledBody coinbase txs)) ∧
      (addedLeaves lib merkleRoot coinbase txs = diff.insertions ∧ deletedLeaves txs = diff.deletions) ∧
      (∀ forest forest', modifyMemforest lib coinbase txs forest = .ok (merkleRoot,forest') ↔
        applyDiff lib forest diff = .ok forest') ∧
      (∀ (s : State F) (body : Body) (gathered : Gathered), body.coinbase = coinbase →
        body.transactions.foldlM (gatherTransaction lib s (s.accumulator lib)) Gathered.empty = .ok gathered →
        gathered.filledTransactions = txs → gathered.diff lib merkleRoot body.coinbase = diff) ∧
      ∀ (s : State F) ctxt header body pre, prevalidate lib s ctxt header body = .ok pre → body.coinbase = coinbase →
        pre.filledTransactions = txs → pre.accumulatorDiff = diff := by
  obtain ⟨added,deleted⟩ := bodyDiffLeaves distinct
  have gathers (s : State F) (body : Body) (gathered : Gathered) (sameCoinbase : body.coinbase = coinbase)
      (gather : body.transactions.foldlM (gatherTransaction lib s (s.accumulator lib)) Gathered.empty = .ok gathered)
      (sameTxs : gathered.filledTransactions = txs) : gathered.diff lib merkleRoot body.coinbase =
        AccumulatorDiff.empty.recordAll (bodyRequests lib merkleRoot (filledBody coinbase txs)) := by
    rw [gatheredDiff gather,sameCoinbase,sameTxs]
    rfl
  refine ⟨_,rfl,⟨added.symm,deleted.symm⟩,fun forest forest' => ?_,gathers,fun s ctxt header body pre ok same isTxs => ?_⟩
  · rw [applyDiff,filledBody,added,deleted]
    simp only [modifyMemforest,isRoot,mapErrorOk,bindOk,pureOk,Except.ok.injEq,Prod.mk.injEq]
    constructor
    · rintro ⟨_,rfl,_,modified,_,rfl⟩
      exact modified
    · exact fun modified => ⟨_,rfl,_,modified,rfl,rfl⟩
  · simp only [prevalidate,bindOk,pureOk,ensureOk,mapErrorOk] at ok
    obtain ⟨_,_,_,_,_,_,gathered,gather,root,computed,_,_,_,_,_,_,_,_,_,_,_,_,_,_,_,_,rfl⟩ := ok
    rw [same] at computed
    have isComputed : gathered.filledTransactions = txs := isTxs
    rw [isComputed,isRoot] at computed
    cases computed
    exact gathers s body gathered same gather isComputed

end NetTask

namespace Reference
open NetTask

def depositPayments : List FilledTransaction :=
  [⟨transaction [deposited 1 (coin alice 1000)] [coin bob 400,coin alice 600] .regular,[coin alice 1000]⟩,
    ⟨transaction [deposited 2 (coin bob 500)] [coin alice 500] .regular,[coin bob 500]⟩]

def paymentsRoot : MerkleRoot := (Body.computeMerkleRoot externals [coin bob 0] depositPayments).toOption.getD 0

theorem depositPaymentsMatch : ∃ diff : AccumulatorDiff,
    (addedLeaves externals paymentsRoot [coin bob 0] depositPayments = diff.insertions ∧
      deletedLeaves depositPayments = diff.deletions) ∧ diff.insertions.length = 4 ∧ diff.deletions.length = 2 := by
  have isRoot : Body.computeMerkleRoot externals [coin bob 0] depositPayments = .ok paymentsRoot := by decide +kernel
  obtain ⟨diff,_,lists,_⟩ := minerMatchesValidator externals [coin bob 0] depositPayments paymentsRoot isRoot (by decide +kernel)
  refine ⟨diff,lists,?_,?_⟩
  · rw [← lists.1]
    rfl
  · rw [← lists.2]
    rfl

end Reference

end Coinshift
