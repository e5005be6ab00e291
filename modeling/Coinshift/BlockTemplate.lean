import Coinshift.LedgerRollback
import Coinshift.Submission
import Coinshift.TransactionEncoding

/-! The block that a miner is given to mine.
Its transactions come from the pool, its roots from a forest that is modified in one go. The address of the coinbase
is the wallet's; the main-chain tip is in the archive, where the node has asked for it when it was not. -/
namespace Coinshift

def MemPool.take (pool : MemPool) (number : Nat) : List AuthorizedTransaction :=
  (pool.transactions.entries.take number).map (·.2)

namespace NetTask
open Checked

inductive TemplateError where
  | archive (source : ArchiveError)
  | mempool (source : MemPoolError)
  | state (source : Error)
  | amountOverflow
  | amountUnderflow
  | modifyMemForest (source : Error)
  deriving DecidableEq, Repr

structure AuthorizedFilled where
  transaction : FilledTransaction
  authorizations : List Authorization
  deriving DecidableEq, Repr

structure BlockTemplate where
  bribe : Amount
  header : Header
  body : Body
  fees : Amount
  deriving DecidableEq, Repr

variable {F : Type} (lib : Externals F) (ctxt : BatchVerificationContext)

section Selection

structure Selection where
  mempool : MemPool
  fee : Amount
  returned : List AuthorizedFilled
  spentUtxos : List (OutPoint × Hash)

def dropTransaction (selection : Selection) (tx : AuthorizedTransaction) : Except TemplateError Selection := do
  let mempool ← (selection.mempool.delete (tx.transaction.txid lib)).mapError .mempool
  pure { selection with mempool }

def selectTransaction (s : State F) (selection : Selection) (tx : AuthorizedTransaction) :
    Except TemplateError Selection :=
  if tx.transaction.inputs.any (· ∈ selection.spentUtxos) then dropTransaction lib selection tx
  else match validateTransaction lib s ctxt tx with
    | .error _ => dropTransaction lib selection tx
    | .ok _ => do
        let filled ← (fillTransaction s tx.transaction).mapError .state
        let valueIn ← okOr filled.getValueIn .amountOverflow
        let valueOut ← okOr filled.getValueOut .amountOverflow
        let paid ← okOr (valueIn.checkedSub valueOut) .amountOverflow
        let fee ← okOr (selection.fee.checkedAdd paid) .amountUnderflow
        pure ⟨selection.mempool,fee,selection.returned ++ [⟨filled,tx.authorizations⟩],
          selection.spentUtxos ++ tx.transaction.inputs⟩

def getTransactions (s : State F) (pool : MemPool) (number : Nat) : Except TemplateError Selection :=
  (pool.take number).foldlM (selectTransaction lib ctxt s) ⟨pool,Amount.zero,[],[]⟩

end Selection

section Assembly

def addedLeaves (merkleRoot : MerkleRoot) (coinbase : List Output) (txs : List FilledTransaction) : List Hash :=
  (coinbaseOutputs merkleRoot coinbase).map (utxoHash lib) ++
    txs.flatMap (fun tx => (tx.transaction.createdOutputs lib).map (utxoHash lib))

def deletedLeaves (txs : List FilledTransaction) : List Hash := txs.flatMap (fun tx => tx.transaction.inputs.map (·.2))

def modifyMemforest (coinbase : List Output) (txs : List FilledTransaction) (forest : F) :
    Except TemplateError (MerkleRoot × F) := do
  let merkleRoot ← (Body.computeMerkleRoot lib coinbase txs).mapError .modifyMemForest
  let forest ← (lib.modify forest (addedLeaves lib merkleRoot coinbase txs) (deletedLeaves txs)).mapError
    (fun message => .modifyMemForest (.utreexo message))
  pure (merkleRoot,forest)

def emptyBlockBmmBribe : Amount := ⟨1000⟩

def numTransactions : Nat := 1000

/- The parent of a block that names `prevMainHash`. The search runs along the tip's chain to a block that names
a main-chain block before the last one in common. -/
def templateParent (archive : Archive F) (tip : Option BlockHash) (prevMainHash : MainHash) :
    Except ArchiveError (Option BlockHash) :=
  match tip with
  | none => pure none
  | some tipHash => do
      let tipHeader ← archive.getHeader tipHash
      let ancestor ← archive.lastCommonMainAncestor prevMainHash tipHeader.prevMainHash
      if ancestor = tipHeader.prevMainHash then pure (some tipHash)
      else archive.ancestorsFind (fun blockHash => do
        let header ← archive.getHeader blockHash
        if header.prevMainHash = ancestor then pure none
        else do
          let isBefore ← archive.isMainDescendant header.prevMainHash ancestor
          pure (if isBefore then some blockHash else none)) tipHash

def templateAccumulator (archive : Archive F) : Option BlockHash → Except ArchiveError F
  | some parent => archive.getAccumulator parent
  | none => pure lib.emptyForest

def feeCoinbase (address : Address) (fees : Amount) : List Output :=
  if fees = Amount.zero then [] else [⟨address,.value fees⟩]

def templateBody (returned : List AuthorizedFilled) (coinbase : List Output) : Body :=
  ⟨coinbase,returned.map (·.transaction.transaction),returned.flatMap (·.authorizations)⟩

def assemble (archive : Archive F) (parent : Option BlockHash) (prevMainHash : MainHash) (coinbase : List Output)
    (returned : List AuthorizedFilled) : Except TemplateError (Header × Body) := do
  let accumulator ← (templateAccumulator lib archive parent).mapError .archive
  let (merkleRoot,forest) ← modifyMemforest lib coinbase (returned.map (·.transaction)) accumulator
  pure (⟨merkleRoot,parent,prevMainHash,lib.getRoots forest⟩,templateBody returned coinbase)

def bribeFor (fee : Option Amount) (txFees : Amount) : Amount :=
  fee.getD (if Amount.zero < txFees then txFees else emptyBlockBmmBribe)

/- A block on any other parent than the tip is empty. -/
def buildBlockTemplate (db : Db F) (prevMainHash : MainHash) (receiveAddress : Address) (fee : Option Amount) :
    Except TemplateError (Db F × BlockTemplate) := do
  let parent ← (templateParent db.archive db.state.tip prevMainHash).mapError .archive
  if parent = db.state.tip then do
    let selection ← getTransactions lib ctxt db.state db.mempool numTransactions
    let coinbase := feeCoinbase receiveAddress selection.fee
    let (header,body) ← assemble lib db.archive parent prevMainHash coinbase selection.returned
    pure ({ db with mempool := selection.mempool },⟨bribeFor fee selection.fee,header,body,selection.fee⟩)
  else do
    let (header,body) ← assemble lib db.archive parent prevMainHash [] []
    pure (db,⟨emptyBlockBmmBribe,header,body,Amount.zero⟩)

end Assembly

section Eligible

variable {lib ctxt} {s : State F} {tx : AuthorizedTransaction} {fee : Amount} {pool : MemPool}

structure Validated (lib : Externals F) (ctxt : BatchVerificationContext) (s : State F) (tx : AuthorizedTransaction)
    (filled : FilledTransaction) (fee : Amount) : Prop where
  fill : fillTransaction s tx.transaction = .ok filled
  rules : validateMempoolTransaction lib s tx.transaction filled = .ok ()
  authorized : TransactionAuthorized lib ctxt tx filled
  value : validateFilledTransaction lib filled = .ok fee

theorem validated (ok : validateTransaction lib s ctxt tx = .ok fee) : ∃ filled, Validated lib ctxt s tx filled fee := by
  simp only [validateTransaction,bindOk,mapErrorOk] at ok
  obtain ⟨filled,fill,_,rules,_,addresses,_,signatures,value⟩ := ok
  exact ⟨filled,fill,rules,⟨addresses,signatures⟩,value⟩

theorem spentSum {outputs : List Output} {start total : Amount} (summed : outputs.foldlM addSpentValue start = .ok total) :
    (outputs.map Output.getValue).foldlM Amount.checkedAdd start = some total := by
  induction outputs generalizing start with
  | nil => exact congrArg some (foldNilOk.mp summed)
  | cons output rest ih =>
      obtain ⟨next,added,more⟩ := foldConsOk.mp summed
      simp only [addSpentValue,bindOk,ensureOk,okOrOk] at added
      obtain ⟨_,_,added⟩ := added
      rw [List.map_cons,List.foldlM_cons,added]
      exact ih more

theorem feeOfFilled {filled : FilledTransaction} (ok : validateFilledTransaction lib filled = .ok fee) :
    ∃ valueIn valueOut, filled.getValueIn = some valueIn ∧ filled.getValueOut = some valueOut ∧
      valueIn.checkedSub valueOut = some fee := by
  simp only [validateFilledTransaction,bindOk,ensureOk,okOrOk] at ok
  obtain ⟨_,_,valueIn,summed,valueOut,out,_,_,paid⟩ := ok
  exact ⟨valueIn,valueOut,spentSum summed,out,paid⟩

variable (lib ctxt)

def isValid (s : State F) (tx : AuthorizedTransaction) : Bool := (validateTransaction lib s ctxt tx).isOk

def eligible (s : State F) (pool : MemPool) : List AuthorizedTransaction :=
  (pool.take numTransactions).filter (isValid lib ctxt s)

def feePaid (s : State F) (tx : AuthorizedTransaction) : Nat :=
  match validateTransaction lib s ctxt tx with
  | .ok fee => fee.val
  | .error _ => 0

variable {lib ctxt}

theorem takenApart {accumulator : F} (waiting : Waiting lib accumulator pool) {number : Nat} :
    (pool.take number).Pairwise (fun a b => ∀ o ∈ MemPool.spends a, o ∉ MemPool.spends b) := by
  have keys : (pool.transactions.entries.take number).Pairwise (fun a b => a.1 ≠ b.1) :=
    (List.pairwise_map.mp Table.entriesDistinct).sublist (List.take_sublist number _)
  rw [MemPool.take,List.pairwise_map]
  refine keys.imp_of_mem (fun {a b} memA memB apart o spentA spentB => apart ?_)
  have foundA := Table.memEntries.mp (List.mem_of_mem_take memA)
  have foundB := Table.memEntries.mp (List.mem_of_mem_take memB)
  have listed := waiting.listed _ _ foundA o spentA
  rw [waiting.listed _ _ foundB o spentB] at listed
  exact (Option.some.inj listed).symm

theorem takenIds {accumulator : F} (waiting : Waiting lib accumulator pool) {number : Nat} :
    (pool.take number).Pairwise (fun a b => a.transaction.txid lib ≠ b.transaction.txid lib) := by
  have keys : (pool.transactions.entries.take number).Pairwise (fun a b => a.1 ≠ b.1) :=
    (List.pairwise_map.mp Table.entriesDistinct).sublist (List.take_sublist number _)
  rw [MemPool.take,List.pairwise_map]
  refine keys.imp_of_mem (fun {a b} memA memB apart same => apart ?_)
  rw [← waiting.keyed _ _ (Table.memEntries.mp (List.mem_of_mem_take memA)),
    ← waiting.keyed _ _ (Table.memEntries.mp (List.mem_of_mem_take memB)),same]

theorem takenFound {number : Nat} (mem : tx ∈ pool.take number) : ∃ txid, pool.transactions.tryGet txid = some tx := by
  obtain ⟨entry,inside,rfl⟩ := List.mem_map.mp mem
  exact ⟨entry.1,Table.memEntries.mp (List.mem_of_mem_take inside)⟩

def AuthorizedFilled.authorized (r : AuthorizedFilled) : AuthorizedTransaction := ⟨r.transaction.transaction,r.authorizations⟩

def gatheredFrom (lib : Externals F) (returned : List AuthorizedFilled) (fee : Amount) : Gathered :=
  ⟨returned.flatMap (fun r => r.transaction.transaction.inputs.map (·.1)),
    returned.flatMap (fun r => r.transaction.transaction.requests lib),returned.map (·.transaction),fee⟩

/- The selection so far is what is valid among the transactions looked at, and passes the loop of `prevalidate`. -/
structure Selected (lib : Externals F) (ctxt : BatchVerificationContext) (s : State F) (seen : List AuthorizedTransaction)
    (selection : Selection) : Prop where
  returned : selection.returned.map AuthorizedFilled.authorized = seen.filter (isValid lib ctxt s)
  spent : selection.spentUtxos = (seen.filter (isValid lib ctxt s)).flatMap (fun tx => tx.transaction.inputs)
  fee : selection.fee.val = ((seen.filter (isValid lib ctxt s)).map (feePaid lib ctxt s)).sum
  authorized : ∀ r ∈ selection.returned, TransactionAuthorized lib ctxt r.authorized r.transaction ∧
    r.transaction.spentUtxos.length = r.transaction.transaction.inputs.length
  gathered : (selection.returned.map (·.transaction.transaction)).foldlM (gatherTransaction lib s (s.accumulator lib))
    Gathered.empty = .ok (gatheredFrom lib selection.returned selection.fee)

theorem Selected.start : Selected lib ctxt s [] ⟨pool,Amount.zero,[],[]⟩ where
  returned := rfl
  spent := rfl
  fee := rfl
  authorized _ mem := nomatch mem
  gathered := rfl

theorem dropSame {selection selection' : Selection} (ok : dropTransaction lib selection tx = .ok selection') :
    selection'.fee = selection.fee ∧ selection'.returned = selection.returned ∧
      selection'.spentUtxos = selection.spentUtxos := by
  simp only [dropTransaction,bindOk,pureOk] at ok
  obtain ⟨_,_,rfl⟩ := ok
  exact ⟨rfl,rfl,rfl⟩

theorem Selected.skip {seen : List AuthorizedTransaction} {selection selection' : Selection} {err : Error}
    (selected : Selected lib ctxt s seen selection) (invalid : validateTransaction lib s ctxt tx = .error err)
    (ok : dropTransaction lib selection tx = .ok selection') : Selected lib ctxt s (seen ++ [tx]) selection' := by
  have skipped : (seen ++ [tx]).filter (isValid lib ctxt s) = seen.filter (isValid lib ctxt s) := by
    simp [isValid,invalid,Except.isOk,Except.toBool]
  obtain ⟨fee,returned,spent⟩ := dropSame ok
  refine ⟨?_,?_,?_,?_,?_⟩
  · rw [returned,skipped,selected.returned]
  · rw [spent,skipped,selected.spent]
  · rw [fee,skipped,selected.fee]
  · rw [returned]
    exact selected.authorized
  · rw [returned,fee]
    exact selected.gathered

theorem Validated.gather {filled : FilledTransaction} {total : Amount} {g : Gathered}
    (passes : Validated lib ctxt s tx filled fee)
    (verified : lib.verify (s.accumulator lib) tx.transaction.proof (tx.transaction.inputs.map (·.2)) = .ok true)
    (added : g.totalFees.checkedAdd fee = some total) :
    gatherTransaction lib s (s.accumulator lib) g tx.transaction =
      .ok ⟨g.allInputKeys ++ tx.transaction.inputs.map (·.1),g.accumulatorDiffTxs ++ tx.transaction.requests lib,
        g.filledTransactions ++ [filled],total⟩ := by
  have proof : verifyProof lib (s.accumulator lib) tx.transaction.proof (tx.transaction.inputs.map (·.2)) = .ok true := by
    rw [verifyProof,verified]
    rfl
  simp only [gatherTransaction,passes.fill,proof,mempoolRulesInBlock passes.rules,passes.value,added,okBind,okOr,ensure,
    if_true]
  rfl

theorem Selected.take {seen : List AuthorizedTransaction} {selection : Selection} {filled : FilledTransaction}
    {total : Amount} (selected : Selected lib ctxt s seen selection) (valid : validateTransaction lib s ctxt tx = .ok fee)
    (passes : Validated lib ctxt s tx filled fee) (added : selection.fee.checkedAdd fee = some total)
    (verified : lib.verify (s.accumulator lib) tx.transaction.proof (tx.transaction.inputs.map (·.2)) = .ok true) :
    Selected lib ctxt s (seen ++ [tx]) ⟨selection.mempool,total,selection.returned ++ [⟨filled,tx.authorizations⟩],
      selection.spentUtxos ++ tx.transaction.inputs⟩ := by
  have taken : (seen ++ [tx]).filter (isValid lib ctxt s) = seen.filter (isValid lib ctxt s) ++ [tx] := by
    simp [isValid,valid,Except.isOk,Except.toBool]
  have source := fillSource passes.fill
  refine ⟨?_,?_,?_,?_,?_⟩
  · rw [taken,List.map_append,selected.returned,List.map_singleton,AuthorizedFilled.authorized,source.transaction]
  · rw [taken,List.flatMap_append,selected.spent,List.flatMap_singleton]
  · rw [taken,List.map_append,List.sum_append,← selected.fee,Amount.checkedAddVal added,List.map_singleton,
      List.sum_singleton,feePaid,valid]
  · intro r mem
    rcases List.mem_append.mp mem with earlier | here
    · exact selected.authorized r earlier
    · rw [List.mem_singleton.mp here,AuthorizedFilled.authorized,source.transaction]
      exact ⟨passes.authorized,source.spent.length_eq.symm⟩
  · rw [List.map_append,foldAppendOk,List.map_singleton,source.transaction]
    refine ⟨_,selected.gathered,foldConsOk.mpr ⟨_,passes.gather verified added,?_⟩⟩
    simp [gatheredFrom,source.transaction]

theorem Selected.next {seen : List AuthorizedTransaction} {selection selection' : Selection}
    (selected : Selected lib ctxt s seen selection)
    (apart : ∀ earlier ∈ seen, ∀ o ∈ MemPool.spends earlier, o ∉ MemPool.spends tx)
    (verified : lib.verify (s.accumulator lib) tx.transaction.proof (tx.transaction.inputs.map (·.2)) = .ok true)
    (ok : selectTransaction lib ctxt s selection tx = .ok selection') :
    Selected lib ctxt s (seen ++ [tx]) selection' := by
  have free : tx.transaction.inputs.any (· ∈ selection.spentUtxos) = false := by
    rw [List.any_eq_false]
    intro input mem taken
    rw [selected.spent] at taken
    obtain ⟨earlier,isSeen,inside⟩ := List.mem_flatMap.mp (of_decide_eq_true taken)
    exact apart earlier (List.mem_filter.mp isSeen).1 input.1 (List.mem_map_of_mem inside) (List.mem_map_of_mem mem)
  simp only [selectTransaction,free,Bool.false_eq_true,if_false] at ok
  cases valid : validateTransaction lib s ctxt tx with
  | error err =>
      simp only [valid] at ok
      exact selected.skip valid ok
  | ok fee =>
      obtain ⟨filled,passes⟩ := validated valid
      obtain ⟨valueIn,valueOut,hasIn,hasOut,paid⟩ := feeOfFilled passes.value
      simp only [valid,passes.fill,Except.mapError,okBind,bindOk,okOrOk,pureOk,hasIn,hasOut,Option.some_inj] at ok
      obtain ⟨_,rfl,_,rfl,_,isFee,total,added,rfl⟩ := ok
      cases Option.some.inj (paid.symm.trans isFee)
      exact selected.take valid passes added verified

theorem selectedAll {selection : Selection} (waiting : Waiting lib (s.accumulator lib) pool)
    (ok : getTransactions lib ctxt s pool numTransactions = .ok selection) :
    Selected lib ctxt s (pool.take numTransactions) selection := by
  refine foldHistory (P := Selected lib ctxt s) .start ?_ ok
  intro seen tx rest selection selection' split reached next selected
  have mem : tx ∈ pool.take numTransactions := by
    rw [split]
    exact List.mem_append_right seen List.mem_cons_self
  obtain ⟨txid,found⟩ := takenFound mem
  have pairs := @takenApart _ lib pool _ waiting numTransactions
  rw [split,List.pairwise_append] at pairs
  exact selected.next (fun earlier isSeen => pairs.2.2 earlier isSeen tx List.mem_cons_self)
    (waiting.proved txid tx found) next

end Eligible

section Leaves

variable {lib} {requests : List (Bool × Hash)} {d : AccumulatorDiff} {merkleRoot : MerkleRoot} {coinbase : List Output}
  {txs : List FilledTransaction}

def leavesOf (isInsertion : Bool) (requests : List (Bool × Hash)) : List Hash :=
  (requests.filter (·.1 = isInsertion)).map (·.2)

def bodyRequests (lib : Externals F) (merkleRoot : MerkleRoot) (body : Body) : List (Bool × Hash) :=
  coinbaseRequests lib merkleRoot body.coinbase ++ body.transactions.flatMap (Transaction.requests lib)

theorem bodyDiff {header : Header} {body : Body} :
    connectDiff lib header body = AccumulatorDiff.empty.recordAll (bodyRequests lib header.merkleRoot body) := by
  rw [connectDiff,bodyRequests,AccumulatorDiff.recordAll,AccumulatorDiff.recordAll,AccumulatorDiff.recordAll,
    List.foldl_append]

theorem leavesAppend {isInsertion : Bool} {more : List (Bool × Hash)} :
    leavesOf isInsertion (requests ++ more) = leavesOf isInsertion requests ++ leavesOf isInsertion more := by
  simp [leavesOf]

theorem leavesSame {isInsertion : Bool} {leaves : List Hash} :
    leavesOf isInsertion (leaves.map (fun leaf => (isInsertion,leaf))) = leaves := by
  simp [leavesOf,List.filter_map,Function.comp_def]

theorem leavesOther {isInsertion other : Bool} {leaves : List Hash} (differs : other ≠ isInsertion) :
    leavesOf isInsertion (leaves.map (fun leaf => (other,leaf))) = [] := by
  simp [leavesOf,List.filter_map,Function.comp_def,differs]

theorem leavesRequested {tx : Transaction} : leavesOf true (tx.requests lib) = (tx.createdOutputs lib).map (utxoHash lib) ∧
    leavesOf false (tx.requests lib) = tx.inputs.map (·.2) := by
  have split : tx.requests lib = (tx.inputs.map (·.2)).map (fun leaf => (false,leaf)) ++
      ((tx.createdOutputs lib).map (utxoHash lib)).map (fun leaf => (true,leaf)) := by
    rw [Transaction.requests,List.map_map,List.map_map]
    rfl
  rw [split,leavesAppend,leavesAppend,leavesSame,leavesSame,leavesOther Bool.false_ne_true,
    leavesOther (Ne.symm Bool.false_ne_true),List.nil_append,List.append_nil]
  exact ⟨rfl,rfl⟩

theorem leavesOfBody : addedLeaves lib merkleRoot coinbase txs =
      leavesOf true (bodyRequests lib merkleRoot ⟨coinbase,txs.map (·.transaction),[]⟩) ∧
    deletedLeaves txs = leavesOf false (bodyRequests lib merkleRoot ⟨coinbase,txs.map (·.transaction),[]⟩) := by
  have coinbaseLeaves : coinbaseRequests lib merkleRoot coinbase =
      ((coinbaseOutputs merkleRoot coinbase).map (utxoHash lib)).map (fun leaf => (true,leaf)) := by
    rw [coinbaseRequests,List.map_map]
    rfl
  have each : leavesOf true ((txs.map (·.transaction)).flatMap (Transaction.requests lib)) =
        txs.flatMap (fun tx => (tx.transaction.createdOutputs lib).map (utxoHash lib)) ∧
      leavesOf false ((txs.map (·.transaction)).flatMap (Transaction.requests lib)) =
        txs.flatMap (fun tx => tx.transaction.inputs.map (·.2)) := by
    induction txs with
    | nil => exact ⟨rfl,rfl⟩
    | cons tx txs ih =>
        rw [List.map_cons,List.flatMap_cons,leavesAppend,leavesAppend,leavesRequested.1,leavesRequested.2,ih.1,ih.2]
        exact ⟨rfl,rfl⟩
  rw [bodyRequests,leavesAppend,leavesAppend,each.1,each.2,coinbaseLeaves,leavesSame,
    leavesOther (Ne.symm Bool.false_ne_true)]
  exact ⟨rfl,rfl⟩

theorem recordDistinct (distinct : (d.diff.map (·.1) ++ requests.map (·.2)).Nodup) :
    (d.recordAll requests).diff = d.diff ++ requests.map (fun request => (request.2,request.1)) := by
  induction requests generalizing d with
  | nil => simp [AccumulatorDiff.recordAll]
  | cons request rest ih =>
      obtain ⟨isInsertion,leaf⟩ := request
      rw [List.map_cons] at distinct
      have absent : d.diff.lookup leaf = none := by
        rw [List.lookup_eq_none_iff]
        intro entry mem
        have other : entry.1 ≠ leaf := fun same => (List.nodup_append.mp distinct).2.2 entry.1
          (List.mem_map_of_mem mem) leaf List.mem_cons_self same
        simpa using other.symm
      have recorded : d.record (isInsertion,leaf) = ⟨d.diff ++ [(leaf,isInsertion)]⟩ := by
        rw [AccumulatorDiff.recordEq,absent]
      have unfolded : d.recordAll ((isInsertion,leaf) :: rest) = (d.record (isInsertion,leaf)).recordAll rest := rfl
      rw [unfolded,recorded,ih]
      · simp
      · simpa using distinct

theorem swappedLeaves : ((requests.map (fun request => (request.2,request.1))).filter (·.2)).map (·.1) = leavesOf true requests ∧
    ((requests.map (fun request => (request.2,request.1))).filter (fun e => !e.2)).map (·.1) = leavesOf false requests := by
  induction requests with
  | nil => exact ⟨rfl,rfl⟩
  | cons request rest ih =>
      obtain ⟨isInsertion,leaf⟩ := request
      cases isInsertion <;> simpa [leavesOf] using ih

theorem diffLeaves (distinct : (requests.map (·.2)).Nodup) :
    (AccumulatorDiff.empty.recordAll requests).insertions = leavesOf true requests ∧
      (AccumulatorDiff.empty.recordAll requests).deletions = leavesOf false requests := by
  have diff := @recordDistinct requests AccumulatorDiff.empty (by simpa [AccumulatorDiff.empty] using distinct)
  have start : AccumulatorDiff.empty.diff = [] := rfl
  rw [start,List.nil_append] at diff
  rw [AccumulatorDiff.insertions,AccumulatorDiff.deletions,diff]
  exact swappedLeaves

theorem diffModifies {forest modified : F} (distinct : (requests.map (·.2)).Nodup)
    (modify : lib.modify forest (leavesOf true requests) (leavesOf false requests) = .ok modified) :
    applyDiff lib forest (AccumulatorDiff.empty.recordAll requests) = .ok modified := by
  obtain ⟨insertions,deletions⟩ := diffLeaves distinct
  rw [applyDiff,insertions,deletions,modify]
  rfl

end Leaves

section Points

variable {lib} {s : State F} {l : Ledger} {header : Header} {body : Body}

def pointsOf (lib : Externals F) (l : Ledger) (tx : Transaction) : List PointedOutput :=
  tx.inputs.filterMap (fun input => (l.utxos.tryGet input.1).map (fun output => ⟨input.1,output⟩)) ++ tx.createdOutputs lib

def bodyPoints (lib : Externals F) (header : Header) (body : Body) (l : Ledger) : List PointedOutput :=
  coinbaseOutputs header.merkleRoot body.coinbase ++ body.transactions.flatMap (pointsOf lib l)

/- What is assumed of the hash on a block: no two of its leaves share one, and no input is named by the root that is
computed from it. -/
structure HashSound (lib : Externals F) (header : Header) (body : Body) (l : Ledger) : Prop where
  leaves : LeavesDistinct lib header body l
  acyclic : ∀ vout, OutPoint.coinbase header.merkleRoot vout ∉ body.inputKeys

theorem spentPoints {inputs : List (OutPoint × Hash)}
    (named : ∀ input ∈ inputs, ∃ utxo, l.utxos.tryGet input.1 = some utxo ∧ input.2 = utxoHash lib ⟨input.1,utxo⟩) :
    (inputs.filterMap (fun input => (l.utxos.tryGet input.1).map (PointedOutput.mk input.1))).map (utxoHash lib) =
        inputs.map (·.2) ∧
      (inputs.filterMap (fun input => (l.utxos.tryGet input.1).map (PointedOutput.mk input.1))).map (·.outpoint) =
        inputs.map (·.1) := by
  induction inputs with
  | nil => exact ⟨rfl,rfl⟩
  | cons input inputs ih =>
      obtain ⟨utxo,found,hash⟩ := named input List.mem_cons_self
      obtain ⟨leaves,outpoints⟩ := ih (fun other mem => named other (List.mem_cons_of_mem _ mem))
      have here : (l.utxos.tryGet input.1).map (PointedOutput.mk input.1) = some ⟨input.1,utxo⟩ := by rw [found]; rfl
      rw [List.filterMap_cons_some (f := fun input : OutPoint × Hash => (l.utxos.tryGet input.1).map (PointedOutput.mk input.1)) here]
      simp only [List.map_cons,leaves,outpoints,← hash]
      exact ⟨trivial,trivial⟩

theorem pointsAre {tx : Transaction} {f : FilledTransaction} (source : TransactionSource lib s tx f) :
    (pointsOf lib s.toLedger tx).map (utxoHash lib) = (tx.requests lib).map (·.2) ∧
      (pointsOf lib s.toLedger tx).map (·.outpoint) =
        tx.inputs.map (·.1) ++ (tx.createdOutputs lib).map (·.outpoint) := by
  have named (input : OutPoint × Hash) (mem : input ∈ tx.inputs) :
      ∃ utxo, s.utxos.tryGet input.1 = some utxo ∧ input.2 = utxoHash lib ⟨input.1,utxo⟩ := inputHash source mem
  obtain ⟨leaves,outpoints⟩ := spentPoints named
  refine ⟨?_,?_⟩
  · rw [pointsOf,List.map_append,leaves,Transaction.requests,List.map_append,List.map_map,List.map_map]
    rfl
  · rw [pointsOf,List.map_append,outpoints]

theorem bodyPointsAre {filled : List FilledTransaction}
    (sources : List.Forall₂ (TransactionSource lib s) body.transactions filled) :
    (bodyPoints lib header body s.toLedger).map (utxoHash lib) = (bodyRequests lib header.merkleRoot body).map (·.2) ∧
      (bodyPoints lib header body s.toLedger).map (·.outpoint) =
        (coinbaseOutputs header.merkleRoot body.coinbase).map (·.outpoint) ++
          body.transactions.flatMap (fun tx => tx.inputs.map (·.1) ++ (tx.createdOutputs lib).map (·.outpoint)) := by
  have each {tx : Transaction} (mem : tx ∈ body.transactions) := relatedLeft sources mem
  refine ⟨?_,?_⟩
  · rw [bodyPoints,bodyRequests,coinbaseRequests,List.map_append,List.map_append,List.map_map,List.map_flatMap,
      List.map_flatMap]
    refine congrArg _ (List.flatMap_congr (fun tx mem => ?_))
    obtain ⟨f,_,source⟩ := each mem
    exact (pointsAre source).1
  · rw [bodyPoints,List.map_append,List.map_flatMap]
    refine congrArg _ (List.flatMap_congr (fun tx mem => ?_))
    obtain ⟨f,_,source⟩ := each mem
    exact (pointsAre source).2

theorem pointTouched {p : PointedOutput} (mem : p ∈ bodyPoints lib header body l) : p ∈ touched lib header body l := by
  unfold touched
  rcases List.mem_append.mp mem with coinbase | inTransaction
  · exact List.mem_append_left _ (List.mem_append_left _ coinbase)
  · obtain ⟨tx,inBody,inside⟩ := List.mem_flatMap.mp inTransaction
    rcases List.mem_append.mp inside with spent | created
    · obtain ⟨input,isInput,found⟩ := List.mem_filterMap.mp spent
      exact List.mem_append_right _ (List.mem_filterMap.mpr
        ⟨input.1,List.mem_flatMap.mpr ⟨tx,inBody,List.mem_map_of_mem isInput⟩,found⟩)
    · exact List.mem_append_left _ (List.mem_append_right _ (List.mem_flatMap.mpr ⟨tx,inBody,created⟩))

theorem requestsDistinct {filled : List FilledTransaction}
    (sources : List.Forall₂ (TransactionSource lib s) body.transactions filled)
    (sound : HashSound lib header body s.toLedger) (coinbase : ((coinbaseOutputs header.merkleRoot body.coinbase).map
      (·.outpoint)).Nodup) (inputs : body.inputKeys.Nodup)
    (created : (body.transactions.flatMap (fun tx => (tx.createdOutputs lib).map (·.outpoint))).Nodup)
    (apart : ∀ maker ∈ body.transactions, ∀ p ∈ maker.createdOutputs lib, p.outpoint ∉ body.inputKeys) :
    ((bodyRequests lib header.merkleRoot body).map (·.2)).Nodup := by
  obtain ⟨leaves,outpoints⟩ := @bodyPointsAre _ lib s header body filled sources
  have both : (body.inputKeys ++ body.transactions.flatMap (fun tx => (tx.createdOutputs lib).map (·.outpoint))).Nodup := by
    refine List.nodup_append.mpr ⟨inputs,created,fun o isInput o' isCreated same => ?_⟩
    obtain ⟨maker,inBody,inside⟩ := List.mem_flatMap.mp isCreated
    obtain ⟨p,made,rfl⟩ := List.mem_map.mp inside
    exact apart maker inBody p made (same ▸ isInput)
  have keys : ((bodyPoints lib header body s.toLedger).map (·.outpoint)).Nodup := by
    rw [outpoints]
    refine List.nodup_append.mpr ⟨coinbase,(List.flatMap_append_perm _ _ _).nodup_iff.mp both,fun o isCoinbase o' others same => ?_⟩
    obtain ⟨p,isOutput,rfl⟩ := List.mem_map.mp isCoinbase
    obtain ⟨output,_,rfl⟩ := List.mem_map.mp isOutput
    obtain ⟨tx,inBody,inside⟩ := List.mem_flatMap.mp others
    rcases List.mem_append.mp inside with isInput | isCreated
    · exact sound.acyclic _ (List.mem_flatMap.mpr ⟨tx,inBody,same ▸ isInput⟩)
    · obtain ⟨q,made,rfl⟩ := List.mem_map.mp isCreated
      obtain ⟨_,_,rfl⟩ := List.mem_map.mp made
      cases same
  rw [← leaves]
  exact List.Nodup.map_on (fun p memP q memQ same => sound.leaves p (pointTouched memP) q (pointTouched memQ) same) keys.of_map

end Points

section Accepted

variable {lib ctxt} {prove : F → List Hash → Except Text UtreexoProof} {s : State F} {pool : MemPool} {db db' start : Db F}
  {prevMainHash : MainHash} {address : Address} {fee : Option Amount} {template : BlockTemplate}

def templateSize (lib : Externals F) (ctxt : BatchVerificationContext) (s : State F) (txs : List AuthorizedTransaction) : Nat :=
  12 + (if (txs.map (feePaid lib ctxt s)).sum = 0 then 0 else 29) +
    (txs.map (fun tx => (encodeTransaction lib tx.transaction).length)).sum +
    96 * (txs.map (fun tx => tx.authorizations.length)).sum

/- What the block's transactions add up to is within the limits of the next height. -/
structure WithinLimits (lib : Externals F) (ctxt : BatchVerificationContext) (s : State F) (txs : List AuthorizedTransaction) :
    Prop where
  sigops : (txs.map (fun tx => tx.authorizations.length)).sum ≤ bodySigopsLimit s.nextHeight
  size : templateSize lib ctxt s txs ≤ bodySizeLimit s.nextHeight

/- None of the transactions spends an outpoint that one of them makes. -/
def SpendsNoneMade (lib : Externals F) (txs : List AuthorizedTransaction) : Prop :=
  ∀ maker ∈ txs, ∀ p ∈ maker.transaction.createdOutputs lib, ∀ tx ∈ txs, p.outpoint ∉ MemPool.spends tx

theorem seqSize {α : Type} {encode : α → List Byte} {xs : List α} :
    (encodeSeq encode xs).length = 4 + (xs.map (fun x => (encode x).length)).sum := by
  rw [encodeSeq,List.length_append,bytesLELength,List.length_flatMap]

theorem coinbaseSize {fees : Amount} :
    ((feeCoinbase address fees).map (fun output => (encodeOutput lib output).length)).sum = if fees.val = 0 then 0 else 29 := by
  have isZero : fees = Amount.zero ↔ fees.val = 0 := by
    constructor
    · rintro rfl
      rfl
    · intro zero
      cases fees
      exact congrArg Amount.mk (UInt64.toNat_inj.mp zero)
  unfold feeCoinbase
  by_cases zero : fees.val = 0
  · rw [if_pos (isZero.mpr zero),if_pos zero]
    rfl
  · rw [if_neg (fun same => zero (isZero.mp same)),if_neg zero]
    simp [encodeOutput,encodeContent,encodeAmount,encodeU64,addressBytes,wordBytes,bytesLELength]

theorem authorizationSize {authorization : Authorization} : (encodeAuthorization authorization).length = 96 := by
  simp [encodeAuthorization,wordBytes,bytesLELength]

theorem selectedSize {selection : Selection} (selected : Selected lib ctxt s (pool.take numTransactions) selection) :
    (encodeBody lib (templateBody selection.returned (feeCoinbase address selection.fee))).length =
      templateSize lib ctxt s (eligible lib ctxt s pool) := by
  have transactions : (selection.returned.map (·.transaction.transaction)).map (fun tx => (encodeTransaction lib tx).length) =
      (eligible lib ctxt s pool).map (fun tx => (encodeTransaction lib tx.transaction).length) := by
    rw [eligible,← selected.returned,List.map_map,List.map_map]
    rfl
  have authorizations : ((selection.returned.flatMap (·.authorizations)).map
      (fun authorization => (encodeAuthorization authorization).length)).sum =
        96 * ((eligible lib ctxt s pool).map (fun tx => tx.authorizations.length)).sum := by
    rw [eligible,← selected.returned,List.map_map]
    simp only [authorizationSize,List.map_const',List.sum_replicate_nat,List.length_flatMap]
    rw [Nat.mul_comm]
    rfl
  rw [encodeBody,List.length_append,List.length_append,seqSize,seqSize,seqSize]
  simp only [templateBody,coinbaseSize,transactions,authorizations,selected.fee,templateSize]
  rw [← eligible]
  omega

theorem dealReturned {txs : List AuthorizedTransaction}
    (counts : ∀ tx ∈ txs, tx.authorizations.length = tx.transaction.inputs.length) :
    dealAuthorizations (txs.map (·.transaction)) (txs.flatMap (·.authorizations)) = some txs := by
  induction txs with
  | nil => rfl
  | cons tx txs ih =>
      have own := counts tx List.mem_cons_self
      have rest := ih (fun other mem => counts other (List.mem_cons_of_mem tx mem))
      rw [List.map_cons,List.flatMap_cons,dealAuthorizations,if_neg (by simp [own]),← own,List.drop_left,List.take_left,rest]
      rfl

theorem Selected.bodyAuthorized (sound : BatchSound lib ctxt) {seen : List AuthorizedTransaction} {selection : Selection}
    {coinbase : List Output} (selected : Selected lib ctxt s seen selection) :
    BodyAuthorized lib ctxt (templateBody selection.returned coinbase) (selection.returned.map (·.transaction)) := by
  have counts : ∀ r ∈ selection.returned, r.authorizations.length = r.transaction.transaction.inputs.length := by
    intro r mem
    exact ((verifyAuthorizedTransactionOk sound).mp (selected.authorized r mem).1.2).1
  have transactions : (selection.returned.map (·.transaction)).map (·.transaction) =
      (templateBody selection.returned coinbase).transactions := by
    rw [List.map_map]
    rfl
  have filledUp : ∀ f ∈ selection.returned.map (·.transaction), f.spentUtxos.length = f.transaction.inputs.length := by
    intro f mem
    obtain ⟨r,isReturned,rfl⟩ := List.mem_map.mp mem
    exact (selected.authorized r isReturned).2
  have count : (templateBody selection.returned coinbase).authorizations.length =
      ((templateBody selection.returned coinbase).transactions.map (fun tx => tx.inputs.length)).sum := by
    simp only [templateBody,List.length_flatMap,List.map_map]
    exact congrArg List.sum (List.map_congr_left counts)
  obtain ⟨slices,dealt,same⟩ := bodyAuthorizedIff sound transactions filledUp count
  have returned := @dealReturned (selection.returned.map AuthorizedFilled.authorized) (by
    intro tx mem
    obtain ⟨r,isReturned,rfl⟩ := List.mem_map.mp mem
    exact counts r isReturned)
  rw [List.map_map,List.flatMap_map] at returned
  cases Option.some.inj (dealt.symm.trans returned)
  rw [same,List.zip_map']
  intro pair mem
  obtain ⟨r,isReturned,rfl⟩ := List.mem_map.mp mem
  exact (selected.authorized r isReturned).1

theorem Selected.distinct {selection : Selection} (waiting : Waiting lib (s.accumulator lib) pool)
    (selected : Selected lib ctxt s (pool.take numTransactions) selection) :
    (gatheredFrom lib selection.returned selection.fee).allInputKeys.Nodup := by
  have keys : (gatheredFrom lib selection.returned selection.fee).allInputKeys =
      (eligible lib ctxt s pool).flatMap MemPool.spends := by
    rw [eligible,← selected.returned,List.flatMap_map]
    rfl
  have apart : (eligible lib ctxt s pool).Pairwise (fun a b => ∀ o ∈ MemPool.spends a, o ∉ MemPool.spends b) :=
    (takenApart waiting).sublist List.filter_sublist
  rw [keys,List.nodup_flatMap]
  refine ⟨fun tx mem => ?_,apart.imp (fun {a b} never o inA inB => never o inA inB)⟩
  obtain ⟨txid,found⟩ := takenFound (List.mem_filter.mp mem).1
  exact waiting.distinct txid tx found

structure TemplateSource (lib : Externals F) (ctxt : BatchVerificationContext) (db : Db F) (address : Address)
    (template : BlockTemplate) (selection : Selection) (modified : F) : Prop where
  selects : getTransactions lib ctxt db.state db.mempool numTransactions = .ok selection
  body : template.body = templateBody selection.returned (feeCoinbase address selection.fee)
  parent : template.header.prevSideHash = db.state.tip
  merkleRoot : Body.computeMerkleRoot lib (feeCoinbase address selection.fee) (selection.returned.map (·.transaction)) =
    .ok template.header.merkleRoot
  modify : lib.modify (db.state.accumulator lib) (leavesOf true (bodyRequests lib template.header.merkleRoot template.body))
    (leavesOf false (bodyRequests lib template.header.merkleRoot template.body)) = .ok modified
  roots : template.header.roots = lib.getRoots modified

theorem templateSource (archived : templateAccumulator lib db.archive db.state.tip = .ok (db.state.accumulator lib))
    (onTip : templateParent db.archive db.state.tip prevMainHash = .ok db.state.tip)
    (built : buildBlockTemplate lib ctxt db prevMainHash address fee = .ok (db',template)) :
    ∃ selection modified, TemplateSource lib ctxt db address template selection modified := by
  simp only [buildBlockTemplate,assemble,modifyMemforest,onTip,archived,Except.mapError,okBind,if_true,bindOk,pureOk] at built
  obtain ⟨selection,selected,_,⟨⟨root,forest⟩,⟨root',isRoot,forest',isForest,same⟩,rfl⟩,result⟩ := built
  cases same
  cases result
  have isModified := mapErrorOk.mp isForest
  rw [leavesOfBody.1,leavesOfBody.2,List.map_map] at isModified
  exact ⟨selection,forest,selected,rfl,rfl,mapErrorOk.mp isRoot,isModified,rfl⟩

theorem TemplateSource.accepted {selection : Selection} {modified : F} (sound : BatchSound lib ctxt)
    (waiting : Waiting lib (db.state.accumulator lib) db.mempool)
    (source : TemplateSource lib ctxt db address template selection modified)
    (sigops : template.body.authorizations.length ≤ bodySigopsLimit db.state.nextHeight)
    (size : (encodeBody lib template.body).length ≤ bodySizeLimit db.state.nextHeight)
    (distinct : ((bodyRequests lib template.header.merkleRoot template.body).map (·.2)).Nodup) :
    ∃ pre, prevalidate lib db.state ctxt template.header template.body = .ok pre := by
  have selected := selectedAll waiting source.selects
  obtain ⟨addresses,signatures⟩ := @Selected.bodyAuthorized _ _ _ _ sound _ _ (feeCoinbase address selection.fee) selected
  have apply := diffModifies distinct source.modify
  have value : Amount.checkedSum ((feeCoinbase address selection.fee).map Output.getValue) = some selection.fee := by
    unfold feeCoinbase
    split
    · next zero =>
        rw [zero]
        rfl
    · simp only [List.map_singleton,Amount.checkedSum,List.foldlM_cons,List.foldlM_nil]
      exact congrArg (· >>= pure) feeCounts
  rw [← bodyDiff] at apply
  have requests : (templateBody selection.returned (feeCoinbase address selection.fee)).transactions.flatMap
      (Transaction.requests lib) = (gatheredFrom lib selection.returned selection.fee).accumulatorDiffTxs :=
    List.flatMap_map _ _ _
  rw [source.body] at sigops size apply ⊢
  rw [connectDiff,requests] at apply
  simp only [prevalidate,bindOk,pureOk,ensureOk,mapErrorOk]
  exact ⟨_,(),source.parent,(),sigops,(),size,_,selected.gathered,_,source.merkleRoot,(),rfl,(),selected.distinct waiting,
    _,okOrOk.mpr value,(),Nat.le_refl _,(),checkedByPosition.mp addresses,(),signatures,modified,apply,(),source.roots.symm,rfl⟩

theorem Selected.leavesDistinct {selection : Selection} (waiting : Waiting lib (s.accumulator lib) pool)
    (selected : Selected lib ctxt s (pool.take numTransactions) selection) {header : Header} {body : Body}
    (isBody : body = templateBody selection.returned (feeCoinbase address selection.fee))
    (small : (encodeBody lib body).length ≤ bodySizeLimit s.nextHeight) (sound : HashSound lib header body s.toLedger)
    (apart : SpendsNoneMade lib (eligible lib ctxt s pool)) :
    ((bodyRequests lib header.merkleRoot body).map (·.2)).Nodup := by
  have transactions : body.transactions = (eligible lib ctxt s pool).map (·.transaction) := by
    rw [isBody,eligible,← selected.returned,List.map_map]
    rfl
  obtain ⟨filled,source⟩ := gatherSource selected.gathered
  have sources : List.Forall₂ (TransactionSource lib s) body.transactions filled := by
    rw [isBody]
    exact source.transactions
  have keys : body.inputKeys = (eligible lib ctxt s pool).flatMap MemPool.spends := by
    rw [Body.inputKeys,transactions,List.flatMap_map]
    rfl
  have inputs : body.inputKeys.Nodup := by
    rw [isBody,Body.inputKeys,templateBody,List.flatMap_map]
    exact selected.distinct waiting
  refine requestsDistinct sources sound ?_ inputs ?_ ?_
  · rw [isBody]
    unfold templateBody feeCoinbase
    dsimp only
    split
    · exact List.nodup_nil
    · exact List.nodup_singleton _
  · rw [transactions,List.flatMap_map,List.nodup_flatMap]
    constructor
    · intro tx mem
      have inBody : tx.transaction ∈ body.transactions := transactions ▸ List.mem_map_of_mem mem
      exact createdDistinct (Nat.lt_of_le_of_lt (memEncodingLe inBody)
        (Nat.lt_of_le_of_lt small (bodySizeLimitSmall s.nextHeight)))
    · refine ((takenIds waiting).sublist List.filter_sublist).imp (fun {a b} other o inA inB => other ?_)
      obtain ⟨p,madeA,rfl⟩ := List.mem_map.mp inA
      obtain ⟨q,madeB,same⟩ := List.mem_map.mp inB
      obtain ⟨_,_,rfl⟩ := List.mem_map.mp madeA
      obtain ⟨_,_,rfl⟩ := List.mem_map.mp madeB
      exact (OutPoint.regular.inj same).1.symm
  · rw [keys,transactions]
    intro maker mem p made spent
    obtain ⟨authorized,isMaker,rfl⟩ := List.mem_map.mp mem
    obtain ⟨tx,isTx,inside⟩ := List.mem_flatMap.mp spent
    exact apart authorized isMaker p made tx isTx inside

/- An accepted template keeps within the limits. One that does is accepted, if it spends nothing that it makes: what is
both deleted and added is cancelled by `prevalidate` alone. -/
theorem templateAcceptedIff (sound : BatchSound lib ctxt) (proves : ProofsVerify lib prove)
    {submitted : List AuthorizedTransaction} (empty : start.mempool = MemPool.new)
    (reached : db = submitAll lib ctxt prove submitted start)
    (archived : templateAccumulator lib db.archive db.state.tip = .ok (db.state.accumulator lib))
    (onTip : templateParent db.archive db.state.tip prevMainHash = .ok db.state.tip)
    (built : buildBlockTemplate lib ctxt db prevMainHash address fee = .ok (db',template))
    (hashes : HashSound lib template.header template.body db.state.toLedger) :
    ((∃ pre, prevalidate lib db.state ctxt template.header template.body = .ok pre) →
      WithinLimits lib ctxt db.state (eligible lib ctxt db.state db.mempool)) ∧
    (SpendsNoneMade lib (eligible lib ctxt db.state db.mempool) →
      ((∃ pre, prevalidate lib db.state ctxt template.header template.body = .ok pre) ↔
        WithinLimits lib ctxt db.state (eligible lib ctxt db.state db.mempool))) := by
  have waiting : Waiting lib (db.state.accumulator lib) db.mempool := by
    rw [reached]
    exact Waiting.submitAll proves (by rw [empty]; exact newWaiting)
  obtain ⟨selection,modified,source⟩ := templateSource archived onTip built
  have selected := selectedAll waiting source.selects
  have size : (encodeBody lib template.body).length = templateSize lib ctxt db.state (eligible lib ctxt db.state db.mempool) := by
    rw [source.body]
    exact selectedSize selected
  have sigops : template.body.authorizations.length =
      ((eligible lib ctxt db.state db.mempool).map (fun tx => tx.authorizations.length)).sum := by
    rw [source.body,eligible,← selected.returned,List.map_map]
    exact List.length_flatMap
  have limits : (∃ pre, prevalidate lib db.state ctxt template.header template.body = .ok pre) →
      WithinLimits lib ctxt db.state (eligible lib ctxt db.state db.mempool) := by
    rintro ⟨pre,ok⟩
    simp only [prevalidate,bindOk,ensureOk] at ok
    obtain ⟨_,_,_,few,_,small,_⟩ := ok
    exact ⟨sigops ▸ few,size ▸ small⟩
  refine ⟨limits,fun apart => ⟨limits,fun within => ?_⟩⟩
  obtain ⟨few,small⟩ := within
  rw [← sigops] at few
  rw [← size] at small
  have distinct := selected.leavesDistinct waiting source.body small hashes apart
  exact source.accepted sound waiting few small distinct

end Accepted

end NetTask

namespace Reference
open Checked NetTask

def wideTransaction (n : Nat) : Transaction := ⟨[],⟨[],[]⟩,List.replicate n (coin alice 0),.regular⟩

def wideFilled (n : Nat) : FilledTransaction := ⟨wideTransaction n,[]⟩

def widePool (n : Nat) : MemPool := ⟨(∅ : Table Txid AuthorizedTransaction).put ((wideTransaction n).txid externals)
  ⟨wideTransaction n,[]⟩,∅⟩

theorem zeroSum (n : Nat) : Amount.checkedSum ((List.replicate n (coin alice 0)).map Output.getValue) = some Amount.zero := by
  unfold Amount.checkedSum
  rw [List.map_replicate]
  induction n with
  | zero => rfl
  | succ n ih =>
      rw [List.replicate_succ,List.foldlM_cons]
      exact ih

theorem wideValid (n : Nat) (s : State Forest) :
    validateTransaction externals s context ⟨wideTransaction n,[]⟩ = .ok Amount.zero := by
  have value : validateFilledTransaction externals (wideFilled n) = .ok Amount.zero := by
    simp only [validateFilledTransaction,wideFilled,wideTransaction,zeroSum]
    rfl
  exact value

def wideDb (n : Nat) : Db Forest := ⟨Archive.new Forest,State.new Forest,widePool n,[]⟩

theorem wideSubmitted (n : Nat) :
    submitAll externals context proveHeld [⟨wideTransaction n,[]⟩] (Db.new Forest) = wideDb n := by
  have regenerated : (Db.new Forest).state.regenerateProof externals proveHeld (wideTransaction n) = .ok (wideTransaction n) := rfl
  simp only [submitAll,List.foldl_cons,List.foldl_nil,submitTransaction,regenerated,wideValid]
  rfl

theorem wideTaken (n : Nat) : (widePool n).take numTransactions = [⟨wideTransaction n,[]⟩] := by
  have entries := @Table.putEntries _ _ _ (∅ : Table Txid AuthorizedTransaction) ((wideTransaction n).txid externals)
    ⟨wideTransaction n,[]⟩
  have none : (∅ : Table Txid AuthorizedTransaction).delete ((wideTransaction n).txid externals) = ∅ :=
    Table.deleteAbsent Table.tryGetEmpty
  rw [none] at entries
  have single := List.perm_singleton.mp entries
  rw [MemPool.take,widePool,single]
  rfl

theorem wideSelected (n : Nat) (s : State Forest) : getTransactions externals context s (widePool n) numTransactions =
    .ok ⟨widePool n,Amount.zero,[⟨wideFilled n,[]⟩],[]⟩ := by
  have fill : fillTransaction s (wideTransaction n) = .ok (wideFilled n) := rfl
  have out : (wideFilled n).getValueOut = some Amount.zero := zeroSum n
  rw [getTransactions,wideTaken]
  simp only [List.foldlM_cons,List.foldlM_nil,selectTransaction,wideValid,fill,Except.mapError,okBind,out,okOr]
  rfl

theorem wideRoot (n : Nat) : ∃ root, Body.computeMerkleRoot externals [] [wideFilled n] = .ok root := by
  have fee : (wideFilled n).getFee = .ok Amount.zero := by
    have out : (wideFilled n).getValueOut = some Amount.zero := zeroSum n
    simp only [FilledTransaction.getFee,out]
    rfl
  simp only [Body.computeMerkleRoot,List.zipIdx_cons,List.zipIdx_nil,collect,merkleLeaf,fee]
  exact ⟨_,rfl⟩

theorem wideBuilt (n : Nat) : ∃ db' template, buildBlockTemplate externals context (wideDb n) 0 (addressOf bob) none =
    .ok (db',template) ∧ template.body = ⟨[],[wideTransaction n],[]⟩ := by
  obtain ⟨root,isRoot⟩ := wideRoot n
  have modified : ∃ forest, externals.modify [] (addedLeaves externals root [] [wideFilled n]) (deletedLeaves [wideFilled n]) =
      .ok forest := ⟨_,rfl⟩
  obtain ⟨forest,isForest⟩ := modified
  have assembled : assemble externals (wideDb n).archive none 0 [] [⟨wideFilled n,[]⟩] =
      .ok (⟨root,none,0,externals.getRoots forest⟩,⟨[],[wideTransaction n],[]⟩) := by
    have start : templateAccumulator externals (wideDb n).archive none = .ok [] := rfl
    simp only [assemble,modifyMemforest,start,List.map_cons,List.map_nil,isRoot,isForest,Except.mapError,okBind]
    rfl
  have selected := wideSelected n (wideDb n).state
  have parent : templateParent (wideDb n).archive none 0 = .ok none := rfl
  have tip : (wideDb n).state.tip = none := rfl
  have pool : (wideDb n).mempool = widePool n := rfl
  have coinbase : feeCoinbase (addressOf bob) Amount.zero = [] := rfl
  refine ⟨wideDb n,⟨bribeFor none Amount.zero,⟨root,none,0,externals.getRoots forest⟩,⟨[],[wideTransaction n],[]⟩,
    Amount.zero⟩,?_,rfl⟩
  simp only [buildBlockTemplate,parent,tip,pool,selected,coinbase,assembled,Except.mapError,okBind,if_true]
  rfl

theorem wideSize (n : Nat) : 29 * n ≤ (encodeBody externals ⟨[],[wideTransaction n],[]⟩).length := by
  have output : (encodeOutput externals (coin alice 0)).length = 29 := by
    simp [coin,encodeOutput,encodeContent,encodeAmount,encodeU64,addressBytes,wordBytes,bytesLELength]
  rw [encodeBody,List.length_append,List.length_append,seqSize,seqSize,seqSize,List.map_singleton,List.sum_singleton,
    encodeTransaction,List.length_append,List.length_append,seqSize,seqSize,wideTransaction,List.map_replicate,output,
    List.sum_replicate_nat]
  omega

def fundedDb : Option (Db Forest) := do
  let archive ← ((Archive.new Forest).putMainHeaderInfo ⟨5,0,0,1⟩).toOption
  let header := { mine (State.new Forest) (Reference.body [] []) with prevMainHash := 5 }
  let db ← (connectTip_ externals context proveHeld ⟨archive,State.new Forest,MemPool.new,[]⟩ header (Reference.body [] [])
    (pegData [deposit 1 (coin alice 1000),deposit 2 (coin bob 500)]) noRpc).toOption
  pure { db with mempool := MemPool.new }

def paymentsSubmitted (start : Db Forest) : Db Forest :=
  submitAll externals context proveHeld [signed payFirst [alice],signed payApart [bob]] start

def paymentsFit (start : Db Forest) : Bool :=
  let db := paymentsSubmitted start
  let chosen := eligible externals context db.state db.mempool
  (templateAccumulator externals db.archive db.state.tip).toOption = some (db.state.accumulator externals) &&
    ((templateParent db.archive db.state.tip 5).toOption = some db.state.tip &&
      ((chosen.map (fun tx => tx.authorizations.length)).sum ≤ bodySigopsLimit db.state.nextHeight &&
        (templateSize externals context db.state chosen ≤ bodySizeLimit db.state.nextHeight &&
          (chosen.all (fun maker => (maker.transaction.createdOutputs externals).all (fun p =>
            chosen.all (fun tx => !(MemPool.spends tx).contains p.outpoint))) &&
          (buildBlockTemplate externals context db 5 (addressOf bob) none).toOption.any (fun built =>
            built.2.body.transactions.length = 2 && (built.2.body.inputKeys.all (fun o =>
                match o with | .coinbase _ _ => false | _ => true) &&
              ((touched externals built.2.header built.2.body db.state.toLedger).map (utxoHash externals)).Nodup))))))

theorem paymentsTemplateAccepted : ∃ (start db db' : Db Forest) (template : BlockTemplate), start.mempool = MemPool.new ∧
    db = paymentsSubmitted start ∧ buildBlockTemplate externals context db 5 (addressOf bob) none = .ok (db',template) ∧
    template.body.transactions.length = 2 ∧
    ∃ pre, prevalidate externals db.state context template.header template.body = .ok pre := by
  have played : fundedDb.any paymentsFit = true := by decide +kernel
  obtain ⟨start,isStart,fits⟩ := (Option.any_eq_true _ _).mp played
  have empty : start.mempool = MemPool.new := by
    simp only [fundedDb,Option.bind_eq_bind,Option.bind_eq_some_iff,Option.pure_def,Option.some_inj] at isStart
    obtain ⟨_,_,_,_,rfl⟩ := isStart
    rfl
  simp only [paymentsFit,Bool.and_eq_true,decide_eq_true_eq] at fits
  obtain ⟨archived,onTip,sigops,size,unmade,builds⟩ := fits
  obtain ⟨⟨db',template⟩,isBuilt,checked⟩ := (Option.any_eq_true _ _).mp builds
  obtain ⟨two,checked⟩ := Bool.and_eq_true_iff.mp checked
  obtain ⟨regular,leaves⟩ := Bool.and_eq_true_iff.mp checked
  have built := toOptionOk isBuilt
  have apart : SpendsNoneMade externals (eligible externals context (paymentsSubmitted start).state
      (paymentsSubmitted start).mempool) := by
    intro maker isMaker p made tx isTx spent
    have unspent := List.all_eq_true.mp (List.all_eq_true.mp (List.all_eq_true.mp unmade maker isMaker) p made) tx isTx
    rw [Bool.not_eq_true',List.contains_eq_mem,decide_eq_false_iff_not] at unspent
    exact unspent spent
  have hashes : HashSound externals template.header template.body (paymentsSubmitted start).state.toLedger := by
    refine ⟨leavesDistinctOfNodup (of_decide_eq_true leaves),fun vout mem => ?_⟩
    exact absurd (List.all_eq_true.mp regular _ mem) Bool.false_ne_true
  obtain ⟨_,accepted⟩ :=
    templateAcceptedIff batchSound heldVerifies empty rfl (toOptionOk archived) (toOptionOk onTip) built hashes
  exact ⟨start,_,db',template,empty,rfl,built,of_decide_eq_true two,(accepted apart).mpr ⟨sigops,size⟩⟩

/- One transaction that costs nothing: every template that takes it in is larger than a block may be. -/
theorem wideTemplateRefused : BatchSound externals context ∧ ProofsVerify externals proveHeld ∧
    ∃ (submitted : List AuthorizedTransaction) (db db' : Db Forest) (template : BlockTemplate),
      db = submitAll externals context proveHeld submitted (Db.new Forest) ∧
      templateAccumulator externals db.archive db.state.tip = .ok (db.state.accumulator externals) ∧
      templateParent db.archive db.state.tip 0 = .ok db.state.tip ∧
      buildBlockTemplate externals context db 0 (addressOf bob) none = .ok (db',template) ∧
      ¬ ∃ pre, prevalidate externals db.state context template.header template.body = .ok pre := by
  obtain ⟨db',template,built,body⟩ := wideBuilt 300000
  refine ⟨batchSound,heldVerifies,[⟨wideTransaction 300000,[]⟩],wideDb 300000,db',template,(wideSubmitted 300000).symm,
    rfl,rfl,built,?_⟩
  rintro ⟨pre,ok⟩
  simp only [prevalidate,bindOk,ensureOk] at ok
  obtain ⟨_,_,_,_,_,small,_⟩ := ok
  rw [body] at small
  have large := (wideSize 300000).trans small
  have limit : bodySizeLimit (wideDb 300000).state.nextHeight = 8388608 := rfl
  rw [limit] at large
  omega

end Reference

end Coinshift
