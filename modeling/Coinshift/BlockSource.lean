import Coinshift.Block
import Coinshift.SwapRulesSource

/-! What an accepted block and its connection are made of.
Each structure lists the facts behind one successful run of a function of `Block`, so that
later arguments cite the facts and never unfold the function. -/
namespace Coinshift
open Checked

variable {F : Type} {lib : Externals F} {ctxt : BatchVerificationContext} {s : State F}

structure FillSource (s : State F) (tx : Transaction) (filled : FilledTransaction) : Prop where
  transaction : filled.transaction = tx
  spent : List.Forall₂ (fun input utxo => s.utxos.tryGet input.1 = some utxo) tx.inputs filled.spentUtxos

theorem fillSource {tx filled} (ok : fillTransaction s tx = .ok filled) : FillSource s tx filled := by
  simp only [fillTransaction,bindOk,pureOk] at ok
  obtain ⟨spentUtxos,collected,rfl⟩ := ok
  refine ⟨rfl,?_⟩
  simpa only [collectOk,okOrOk] using collected

structure TransactionSource (lib : Externals F) (s : State F) (tx : Transaction)
    (filled : FilledTransaction) : Prop where
  fill : FillSource s tx filled
  proof : verifyProof lib (s.accumulator lib) tx.proof (tx.inputs.map (·.2)) = .ok true
  swap : validateBlockTransaction lib s tx filled = .ok ()
  value : ∃ fee, validateFilledTransaction lib filled = .ok fee

section Kinds

variable {tx : Transaction} {filled : FilledTransaction} {swapId : SwapId}

theorem TransactionSource.create (source : TransactionSource lib s tx filled) {create : SwapCreate}
    (kind : tx.data = .swapCreate create) : CreateSource lib s create tx filled := by
  have ok := source.swap
  simp only [validateBlockTransaction,kind] at ok
  exact createSource kind ok

theorem TransactionSource.claim (source : TransactionSource lib s tx filled) {declared : Option Address}
    {proof : Option (List Byte)} (kind : tx.data = .swapClaim swapId declared proof) :
    ∃ swap recipient paid, ClaimSource s swapId declared tx swap recipient paid := by
  have ok := source.swap
  simp only [validateBlockTransaction,kind] at ok
  exact (claimConsensusOk kind).mp ok

theorem TransactionSource.accept (source : TransactionSource lib s tx filled) {claimer : Address}
    (kind : tx.data = .swapAccept swapId claimer) : ∃ swap, AcceptSource s swapId claimer tx filled swap := by
  have ok := source.swap
  simp only [validateBlockTransaction,kind] at ok
  exact acceptSource kind ok

theorem TransactionSource.regular (source : TransactionSource lib s tx filled) (kind : tx.data = .regular)
    {input : OutPoint × Hash} (mem : input ∈ tx.inputs) : s.isOutputLockedToSwap input.1 = none := by
  have ok := source.swap
  have notClaim : tx.data.isSwapClaim = false := by rw [kind]; rfl
  simp only [validateBlockTransaction,kind] at ok
  exact noLockedOutputsSource notClaim ok mem

end Kinds

structure GatherSource (lib : Externals F) (s : State F) (txs : List Transaction) (g g' : Gathered)
    (filled : List FilledTransaction) : Prop where
  transactions : List.Forall₂ (TransactionSource lib s) txs filled
  keys : g'.allInputKeys = g.allInputKeys ++ txs.flatMap (fun tx => tx.inputs.map (·.1))
  requests : g'.accumulatorDiffTxs = g.accumulatorDiffTxs ++ txs.flatMap (Transaction.requests lib)
  filledTransactions : g'.filledTransactions = g.filledTransactions ++ filled

theorem gatherStepSource {g g' tx} (ok : gatherTransaction lib s (s.accumulator lib) g tx = .ok g') :
    ∃ filled, TransactionSource lib s tx filled ∧
      g'.allInputKeys = g.allInputKeys ++ tx.inputs.map (·.1) ∧
      g'.accumulatorDiffTxs = g.accumulatorDiffTxs ++ tx.requests lib ∧
      g'.filledTransactions = g.filledTransactions ++ [filled] := by
  simp only [gatherTransaction,bindOk,pureOk,ensureOk] at ok
  obtain ⟨filled,fill,verified,proof,_,isTrue,_,swap,fee,value,total,_,rfl⟩ := ok
  subst isTrue
  exact ⟨filled,⟨fillSource fill,proof,swap,fee,value⟩,rfl,rfl,rfl⟩

theorem gatherSource {txs g g'}
    (ok : txs.foldlM (gatherTransaction lib s (s.accumulator lib)) g = .ok g') :
    ∃ filled, GatherSource lib s txs g g' filled := by
  induction txs generalizing g with
  | nil =>
      cases foldNilOk.mp ok
      exact ⟨[],.nil,by simp,by simp,by simp⟩
  | cons tx txs ih =>
      obtain ⟨middle,first,rest⟩ := foldConsOk.mp ok
      obtain ⟨filled,source,keys,requests,list⟩ := gatherStepSource first
      obtain ⟨tail,more⟩ := ih rest
      refine ⟨filled :: tail,.cons source more.transactions,?_,?_,?_⟩
      · rw [more.keys,keys,List.flatMap_cons,List.append_assoc]
      · rw [more.requests,requests,List.flatMap_cons,List.append_assoc]
      · rw [more.filledTransactions,list,List.append_assoc,List.singleton_append]

def Body.inputKeys (body : Body) : List OutPoint := body.transactions.flatMap (fun tx => tx.inputs.map (·.1))

def connectDiff (lib : Externals F) (header : Header) (body : Body) : AccumulatorDiff :=
  (AccumulatorDiff.empty.recordAll (coinbaseRequests lib header.merkleRoot body.coinbase)).recordAll
    (body.transactions.flatMap (Transaction.requests lib))

structure PrevalidateSource (lib : Externals F) (ctxt : BatchVerificationContext) (s : State F)
    (header : Header) (body : Body) (pre : PrevalidatedBlock) : Prop where
  parent : header.prevSideHash = s.tip
  transactions : List.Forall₂ (TransactionSource lib s) body.transactions pre.filledTransactions
  merkleRoot : pre.computedMerkleRoot = header.merkleRoot
  distinct : body.inputKeys.Nodup
  addresses : checkAddresses lib body.authorizations pre.filledTransactions = .ok ()
  authorized : verifyAuthorizations lib ctxt body = .ok ()
  nextHeight : pre.nextHeight = s.nextHeight
  accumulatorDiff : pre.accumulatorDiff = connectDiff lib header body
  accumulator : ∃ applied, applyDiff lib (s.accumulator lib) (connectDiff lib header body) = .ok applied ∧
    lib.getRoots applied = header.roots

theorem prevalidateSource {header body pre} (ok : prevalidate lib s ctxt header body = .ok pre) :
    PrevalidateSource lib ctxt s header body pre := by
  simp only [prevalidate,bindOk,pureOk,ensureOk,mapErrorOk] at ok
  obtain ⟨_,parent,_,_,_,_,gathered,gather,root,_,_,rootIs,_,distinct,value,_,_,_,_,addresses,_,authorized,
    applied,apply,_,roots,rfl⟩ := ok
  subst rootIs
  obtain ⟨filled,source⟩ := gatherSource gather
  have keys : gathered.allInputKeys = body.inputKeys := source.keys
  have requests : gathered.accumulatorDiffTxs = body.transactions.flatMap (Transaction.requests lib) :=
    source.requests
  have list : gathered.filledTransactions = filled := source.filledTransactions
  rw [requests] at apply
  refine ⟨parent,?_,rfl,keys ▸ distinct,addresses,authorized,rfl,?_,applied,apply,roots⟩
  · rw [list]
    exact source.transactions
  · simp only [requests,connectDiff]

/- Read in the state before the block: a created swap has no record, a claimed one passed the rules for claims. -/
section Kinds

variable {header : Header} {body : Body} {pre : PrevalidatedBlock} {tx : Transaction}

theorem PrevalidateSource.unrecorded (source : PrevalidateSource lib ctxt s header body pre)
    (mem : tx ∈ body.transactions) {create : SwapCreate} (kind : tx.data = .swapCreate create) :
    s.getSwap create.swapId = none := by
  obtain ⟨filled,_,txSource⟩ := relatedLeft source.transactions mem
  exact (txSource.create kind).unrecorded

theorem PrevalidateSource.claim (source : PrevalidateSource lib ctxt s header body pre)
    (mem : tx ∈ body.transactions) {swapId : SwapId} {declared : Option Address} {proof : Option (List Byte)}
    (kind : tx.data = .swapClaim swapId declared proof) :
    ∃ swap recipient paid, ClaimSource s swapId declared tx swap recipient paid := by
  obtain ⟨filled,_,txSource⟩ := relatedLeft source.transactions mem
  exact txSource.claim kind

end Kinds

end Coinshift
