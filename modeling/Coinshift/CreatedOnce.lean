import Coinshift.ConnectTotal
import Coinshift.Provenance
import Mathlib.Algebra.Order.BigOperators.Group.List

/-! An output of any worth is created once.
A transaction that pays out takes an input of some worth, and a transaction mined again would take it again;
a coinbase pays out fees, so the same holds of a body mined again. What can come back is worthless. -/
namespace Coinshift
open Checked Keyed

variable {F : Type} {lib : Externals F} {ctxt : BatchVerificationContext} {s t last : State F}
  {header : Header} {body : Body} {pre : PrevalidatedBlock} {steps : List (Step F)}

section Fees

def Output.worth (o : Output) : Nat := o.getValue.val

def worthOf (outputs : List Output) : Nat := (outputs.map Output.worth).sum

theorem worthLe {outputs : List Output} {o : Output} (mem : o ∈ outputs) : o.worth ≤ worthOf outputs :=
  List.single_le_sum (fun _ _ => Nat.zero_le _) _ (List.mem_map_of_mem mem)

theorem worthyMember {outputs : List Output} (worthy : 0 < worthOf outputs) : ∃ o ∈ outputs, 0 < o.worth := by
  by_contra none
  push Not at none
  have zero : ∀ n ∈ outputs.map Output.worth, n = 0 := by
    intro n mem
    obtain ⟨o,inside,rfl⟩ := List.mem_map.mp mem
    exact Nat.le_zero.mp (none o inside)
  rw [worthOf,List.sum_eq_zero zero] at worthy
  cases worthy

theorem checkedWorth {outputs : List Output} {total : Amount}
    (summed : Amount.checkedSum (outputs.map Output.getValue) = some total) : total.val = worthOf outputs := by
  rw [Amount.checkedSumVal summed,List.map_map]
  rfl

theorem spentWorth {outputs : List Output} {start total : Amount}
    (summed : outputs.foldlM addSpentValue start = .ok total) : total.val = start.val + worthOf outputs := by
  induction outputs generalizing start with
  | nil =>
      cases foldNilOk.mp summed
      rfl
  | cons o outputs ih =>
      obtain ⟨next,added,more⟩ := foldConsOk.mp summed
      simp only [addSpentValue,bindOk,ensureOk,okOrOk] at added
      obtain ⟨_,_,added⟩ := added
      rw [ih more,Amount.checkedAddVal added,Nat.add_assoc]
      rfl

theorem feeWorth {f : FilledTransaction} {fee : Amount} (valid : validateFilledTransaction lib f = .ok fee) :
    fee.val + worthOf f.transaction.outputs = worthOf f.spentUtxos := by
  simp only [validateFilledTransaction,bindOk,okOrOk,ensureOk] at valid
  obtain ⟨_,_,valueIn,spent,valueOut,paid,_,enough,left⟩ := valid
  have spends : valueIn.val = worthOf f.spentUtxos := by simpa using spentWorth spent
  have pays : valueOut.val = worthOf f.transaction.outputs := checkedWorth paid
  have less : valueOut.val ≤ valueIn.val := enough
  have fees : fee.val = valueIn.val - valueOut.val := by
    rw [Amount.checkedSub,if_pos less] at left
    cases left
    exact UInt64.toNat_ofNat_of_lt' (Nat.lt_of_le_of_lt (Nat.sub_le _ _) valueIn.sat.toNat_lt)
  omega

def FilledTransaction.spends (f : FilledTransaction) : Nat := worthOf f.spentUtxos

def FilledTransaction.pays (f : FilledTransaction) : Nat := worthOf f.transaction.outputs

theorem gatherWorth {txs : List Transaction} {g g' : Gathered}
    (ok : txs.foldlM (gatherTransaction lib s (s.accumulator lib)) g = .ok g') :
    g'.totalFees.val + (g'.filledTransactions.map FilledTransaction.pays).sum +
        (g.filledTransactions.map FilledTransaction.spends).sum =
      g.totalFees.val + (g'.filledTransactions.map FilledTransaction.spends).sum +
        (g.filledTransactions.map FilledTransaction.pays).sum := by
  induction txs generalizing g with
  | nil =>
      cases foldNilOk.mp ok
      omega
  | cons tx txs ih =>
      obtain ⟨middle,first,rest⟩ := foldConsOk.mp ok
      have tail := ih rest
      simp only [gatherTransaction,bindOk,pureOk,ensureOk,okOrOk] at first
      obtain ⟨filled,_,_,_,_,_,_,_,fee,valid,total,added,rfl⟩ := first
      have fees := feeWorth valid
      have sums := Amount.checkedAddVal added
      simp only [List.map_append,List.map_cons,List.map_nil,List.sum_append,List.sum_singleton] at tail
      simp only [FilledTransaction.pays,FilledTransaction.spends] at *
      omega

structure BlockWorth (body : Body) (pre : PrevalidatedBlock) : Prop where
  fees : pre.totalFees.val + (pre.filledTransactions.map FilledTransaction.pays).sum =
    (pre.filledTransactions.map FilledTransaction.spends).sum
  coinbase : pre.coinbaseValue.val = worthOf body.coinbase
  enough : pre.coinbaseValue.val ≤ pre.totalFees.val

theorem blockWorth (ok : prevalidate lib s ctxt header body = .ok pre) : BlockWorth body pre := by
  simp only [prevalidate,bindOk,pureOk,ensureOk,mapErrorOk,okOrOk] at ok
  obtain ⟨_,_,_,_,_,_,gathered,gather,root,_,_,_,_,_,value,summed,_,enough,_,_,_,_,_,_,_,_,rfl⟩ := ok
  have fees := gatherWorth gather
  simp only [Gathered.empty,List.map_nil,List.sum_nil,Nat.add_zero,Amount.valZero,Nat.zero_add] at fees
  exact ⟨fees,checkedWorth summed,enough⟩

theorem worthyInput {tx : Transaction} {f : FilledTransaction} (source : TransactionSource lib s tx f)
    (worthy : 0 < f.spends) : ∃ i ∈ tx.inputs, ∃ x, s.utxos.tryGet i.1 = some x ∧ 0 < x.worth := by
  obtain ⟨x,inside,positive⟩ := worthyMember worthy
  obtain ⟨i,isInput,found⟩ := relatedRight source.fill.spent inside
  exact ⟨i,isInput,x,found,positive⟩

theorem TransactionSource.balance {tx : Transaction} {f : FilledTransaction} (source : TransactionSource lib s tx f) :
    worthOf tx.outputs ≤ f.spends := by
  obtain ⟨fee,valid⟩ := source.value
  have fees := feeWorth valid
  rw [source.fill.transaction] at fees
  unfold FilledTransaction.spends
  omega

end Fees

section Bindings

def minedBlocks (steps : List (Step F)) : List Block :=
  steps.filterMap (fun step => match step with | .connect header body => some (header,body) | _ => none)

theorem memMinedBlocks : (header,body) ∈ minedBlocks steps ↔ .connect header body ∈ steps := by
  rw [minedBlocks,List.mem_filterMap]
  constructor
  · intro found
    obtain ⟨step,mem,same⟩ := found
    cases step with
    | connect header' body' =>
        cases same
        exact mem
    | _ => cases same
  · intro mem
    exact ⟨_,mem,rfl⟩

/- No two of the blocks have one merkle root and different coinbases or transactions on the wire. -/
def RootsBind (lib : Externals F) (blocks : List Block) : Prop :=
  ∀ a ∈ blocks, ∀ b ∈ blocks, a.1.merkleRoot = b.1.merkleRoot →
    encodeSeq (encodeOutput lib) a.2.coinbase = encodeSeq (encodeOutput lib) b.2.coinbase ∧
    a.2.transactions.map (encodeTransaction lib) = b.2.transactions.map (encodeTransaction lib)

instance {blocks : List Block} : Decidable (RootsBind lib blocks) := by
  unfold RootsBind
  infer_instance

/- What a run's ids stand for: hashes that do not collide, and deposits each at its own outpoint. -/
structure Identified (lib : Externals F) (steps : List (Step F)) : Prop where
  txids : TxidsBind lib (transactionsOf steps)
  roots : RootsBind lib (minedBlocks steps)
  deposits : ((depositsOf steps).map (·.outpoint)).Nodup

def OutputsAlike (made : List PointedOutput) : Prop :=
  ∀ p ∈ made, ∀ q ∈ made, p.outpoint = q.outpoint → p.output.bare = q.output.bare

theorem OutputsAlike.worth {made : List PointedOutput} (alike : OutputsAlike made) {p q : PointedOutput} (memP : p ∈ made)
    (memQ : q ∈ made) (same : p.outpoint = q.outpoint) : p.output.worth = q.output.worth := by
  unfold Output.worth
  rw [← bareValue,alike p memP q memQ same,bareValue]

theorem runCoinbase (ok : run lib ctxt steps (State.new F) = .ok last) (taken : .connect header body ∈ steps) :
    (encodeSeq (encodeOutput lib) body.coinbase).length < 2 ^ 32 := by
  obtain ⟨s,t,_,takes⟩ := takesOfMem ok taken
  have connected := takes.applied
  simp only [Step.apply,connectBlock,bindOk] at connected
  obtain ⟨pre,accepted,_⟩ := connected
  exact acceptedCoinbase accepted

theorem memCoinbase {root : MerkleRoot} {coinbase : List Output}
    (short : (encodeSeq (encodeOutput lib) coinbase).length < 2 ^ 32) {p : PointedOutput} :
    p ∈ coinbaseOutputs root coinbase ↔
      ∃ vout, p.outpoint = .coinbase root vout ∧ coinbase[vout.toNat]? = some p.output :=
  memPointed (Nat.lt_of_le_of_lt outputsLength short)

theorem coinbaseAlike (roots : RootsBind lib (minedBlocks steps)) (ok : run lib ctxt steps (State.new F) = .ok last)
    {header' : Header} {body' : Body} (taken : .connect header body ∈ steps) (taken' : .connect header' body' ∈ steps)
    {p q : PointedOutput} (memP : p ∈ coinbaseOutputs header.merkleRoot body.coinbase)
    (memQ : q ∈ coinbaseOutputs header'.merkleRoot body'.coinbase) (same : p.outpoint = q.outpoint) :
    p.output.bare = q.output.bare := by
  obtain ⟨vout,isAt,output⟩ := (memCoinbase (runCoinbase ok taken)).mp memP
  obtain ⟨vout',isAt',output'⟩ := (memCoinbase (runCoinbase ok taken')).mp memQ
  rw [isAt,isAt'] at same
  obtain ⟨root,rfl⟩ := OutPoint.coinbase.inj same
  obtain ⟨wire,_⟩ := roots _ (memMinedBlocks.mpr taken) _ (memMinedBlocks.mpr taken') root
  have bares := (outputsDelimit body.coinbase body'.coinbase [] [] (runCoinbase ok taken) (runCoinbase ok taken')
    (congrArg (· ++ []) wire)).1
  have bare := congrArg (fun outputs => outputs[vout.toNat]?) bares
  simp only [List.getElem?_map,output,output',Option.map_some] at bare
  exact Option.some.inj bare

theorem runAlike (ids : Identified lib steps) (ok : run lib ctxt steps (State.new F) = .ok last) :
    OutputsAlike (createdBy lib steps) := by
  intro p memP q memQ same
  cases isAt : p.outpoint with
  | regular txid vout =>
      obtain ⟨a,memA,createdA⟩ := createdByTransaction memP isAt
      obtain ⟨b,memB,createdB⟩ := createdByTransaction memQ (same ▸ isAt)
      exact (createdAlike ids.txids memA memB (runShort ok a memA) (runShort ok b memB) createdA createdB same).2
  | coinbase root vout =>
      obtain ⟨header,body,taken,rfl,createdA⟩ := createdByCoinbase memP isAt
      obtain ⟨header',body',taken',root,createdB⟩ := createdByCoinbase memQ (same ▸ isAt)
      exact coinbaseAlike ids.roots ok taken taken' createdA (root.symm ▸ createdB) same
  | deposit txid vout =>
      have deposited := createdByDeposit memP isAt
      have deposited' := createdByDeposit memQ (same ▸ isAt)
      rw [List.inj_on_of_nodup_map ids.deposits deposited deposited' same]

theorem Identified.upTo {more : List (Step F)} (ids : Identified lib (steps ++ more)) : Identified lib steps := by
  refine ⟨?_,?_,?_⟩
  · intro a memA b memB
    refine ids.txids a ?_ b ?_
    · exact transactionsOfAppend ▸ List.mem_append_left _ memA
    · exact transactionsOfAppend ▸ List.mem_append_left _ memB
  · have kept : minedBlocks steps ⊆ minedBlocks (steps ++ more) := by
      rw [minedBlocks,minedBlocks,List.filterMap_append]
      exact List.subset_append_left _ _
    exact fun a memA b memB => ids.roots a (kept memA) b (kept memB)
  · have all := ids.deposits
    rw [depositsOf,List.flatMap_append,List.map_append] at all
    exact (List.nodup_append.mp all).1

end Bindings

section Once

def WorthOnce (made : List PointedOutput) : Prop :=
  made.Pairwise (fun p q => p.outpoint = q.outpoint → p.output.worth = 0)

def Consumed (lib : Externals F) (earlier : List (Step F)) (utxos : Table OutPoint Output) : Prop :=
  ∀ tx ∈ transactionsOf earlier, ∀ i ∈ tx.inputs, ∃ y, ⟨i.1,y⟩ ∈ createdBy lib earlier ∧
    y.content.isWithdrawal = false ∧ ((utxos.tryGet i.1).isSome = true → y.worth = 0)

variable {earlier later : List (Step F)}

/- The transactions of a block are none of those before it, if they take anything of worth. -/
theorem Consumed.noRepeat (consumed : Consumed lib earlier s.utxos) (alike : OutputsAlike (createdBy lib earlier))
    (provenance : Provenance (createdBy lib earlier) s) {tx old : Transaction} {f : FilledTransaction}
    (source : TransactionSource lib s tx f) (worthy : 0 < f.spends) (past : old ∈ transactionsOf earlier) :
    tx.inputs ≠ old.inputs := by
  intro same
  obtain ⟨i,isInput,x,found,positive⟩ := worthyInput source worthy
  obtain ⟨y,made,_,worthless⟩ := consumed old past i (same ▸ isInput)
  have zero := worthless (by rw [found]; rfl)
  have value := alike.worth made (provenance.ledger.utxos i.1 x found) rfl
  change y.worth = x.worth at value
  omega

theorem createdSpends (source : PrevalidateSource lib ctxt s header body pre) {tx : Transaction}
    (mem : tx ∈ body.transactions) {q : PointedOutput} (created : q ∈ tx.createdOutputs lib) (worthy : 0 < q.output.worth) :
    ∃ f, TransactionSource lib s tx f ∧ 0 < f.spends := by
  obtain ⟨f,_,txSource⟩ := relatedLeft source.transactions mem
  obtain ⟨⟨output,i⟩,inside,rfl⟩ := List.mem_map.mp created
  have paid := worthLe (List.fst_mem_of_mem_zipIdx inside)
  exact ⟨f,txSource,Nat.lt_of_lt_of_le worthy (Nat.le_trans paid txSource.balance)⟩

theorem coinbaseSpends (source : PrevalidateSource lib ctxt s header body pre) (worth : BlockWorth body pre)
    {q : PointedOutput} {root : MerkleRoot} (created : q ∈ coinbaseOutputs root body.coinbase)
    (worthy : 0 < q.output.worth) :
    ∃ tx ∈ body.transactions, ∃ f, TransactionSource lib s tx f ∧ 0 < f.spends := by
  obtain ⟨⟨output,i⟩,inside,rfl⟩ := List.mem_map.mp created
  have minted : output.worth ≤ worthOf body.coinbase := worthLe (List.fst_mem_of_mem_zipIdx inside)
  have fees := worth.fees
  have coinbase := worth.coinbase
  have enough := worth.enough
  have positive : (pre.filledTransactions.map FilledTransaction.spends).sum ≠ 0 := by
    change 0 < output.worth at worthy
    omega
  obtain ⟨n,isSpent,nonzero⟩ := List.exists_mem_ne_zero_of_sum_ne_zero positive
  obtain ⟨f,isFilled,rfl⟩ := List.mem_map.mp isSpent
  obtain ⟨tx,mem,txSource⟩ := relatedRight source.transactions isFilled
  exact ⟨tx,mem,f,txSource,Nat.pos_of_ne_zero nonzero⟩

theorem createdByConcat {x : Step F} : createdBy lib (earlier ++ [x]) = createdBy lib earlier ++ x.creates lib := by
  rw [createdByAppend]
  exact congrArg _ (List.flatMap_singleton _ _)

theorem createdBefore {x : Step F} : createdBy lib earlier ⊆ createdBy lib (earlier ++ [x]) := by
  rw [createdByConcat]
  exact List.subset_append_left _ _

theorem createdNow {x : Step F} : x.creates lib ⊆ createdBy lib (earlier ++ [x]) := by
  rw [createdByConcat]
  exact List.subset_append_right _ _

theorem takenBefore {x : Step F} : transactionsOf earlier ⊆ transactionsOf (earlier ++ [x]) := by
  rw [transactionsOfAppend]
  exact List.subset_append_left _ _

theorem takenNow : body.transactions ⊆ transactionsOf (earlier ++ [.connect header body]) :=
  fun _ mem => memTransactionsOf.mpr ⟨header,body,List.mem_append_right _ List.mem_cons_self,mem⟩

structure Mines (lib : Externals F) (ctxt : BatchVerificationContext) (earlier : List (Step F)) (s : State F)
    (header : Header) (body : Body) (pre : PrevalidatedBlock) : Prop where
  ids : Identified lib (earlier ++ [.connect header body])
  alike : OutputsAlike (createdBy lib (earlier ++ [.connect header body]))
  short : ∀ tx ∈ transactionsOf (earlier ++ [.connect header body]), tx.Short lib
  coinbase : (encodeSeq (encodeOutput lib) body.coinbase).length < 2 ^ 32
  provenance : Provenance (createdBy lib earlier) s
  consumed : Consumed lib earlier s.utxos
  source : PrevalidateSource lib ctxt s header body pre
  worth : BlockWorth body pre

theorem Mines.noRepeat (mines : Mines lib ctxt earlier s header body pre) {tx old : Transaction} {f : FilledTransaction}
    (source : TransactionSource lib s tx f) (worthy : 0 < f.spends) (past : old ∈ transactionsOf earlier) :
    tx.inputs ≠ old.inputs := by
  refine mines.consumed.noRepeat ?_ mines.provenance source worthy past
  exact fun p memP q memQ => mines.alike p (createdBefore memP) q (createdBefore memQ)

theorem Mines.fresh (mines : Mines lib ctxt earlier s header body pre) {p q : PointedOutput}
    (before : p ∈ createdBy lib earlier) (now : q ∈ blockCreates lib header body) (same : p.outpoint = q.outpoint) :
    p.output.worth = 0 := by
  have value := mines.alike.worth (createdBefore before) (createdNow now) same
  by_contra nonzero
  have worthy : 0 < q.output.worth := by omega
  rcases List.mem_append.mp now with minted | made
  · obtain ⟨vout,isAt⟩ := coinbaseOutpoint minted
    obtain ⟨header',body',past,root,_⟩ := createdByCoinbase before (same.trans isAt)
    obtain ⟨tx,mem,f,source,spends⟩ := coinbaseSpends mines.source mines.worth minted worthy
    have wire := (mines.ids.roots (header,body) (memMinedBlocks.mpr (List.mem_append_right _ List.mem_cons_self))
      (header',body') (memMinedBlocks.mpr (List.mem_append_left _ past)) root.symm).2
    have encoded : encodeTransaction lib tx ∈ body'.transactions.map (encodeTransaction lib) :=
      wire ▸ List.mem_map_of_mem mem
    obtain ⟨old,isOld,equal⟩ := List.mem_map.mp encoded
    have isPast : old ∈ transactionsOf earlier := memTransactionsOf.mpr ⟨header',body',past,isOld⟩
    have alike := encodingAlike (mines.short tx (takenNow mem)) (mines.short old (takenBefore isPast)) equal.symm
    exact mines.noRepeat source spends isPast alike.inputs
  · obtain ⟨tx,mem,created⟩ := List.mem_flatMap.mp made
    obtain ⟨vout,isAt⟩ := transactionOutpoint created
    obtain ⟨old,isPast,createdOld⟩ := createdByTransaction before (same.trans isAt)
    obtain ⟨f,source,spends⟩ := createdSpends mines.source mem created worthy
    have alike := (createdAlike mines.ids.txids (takenNow mem) (takenBefore isPast) (mines.short tx (takenNow mem))
      (mines.short old (takenBefore isPast)) created createdOld same.symm).1
    exact mines.noRepeat source spends isPast alike.inputs

theorem onceOfDistinct {made : List PointedOutput} (distinct : (made.map (·.outpoint)).Nodup) : WorthOnce made := by
  rw [List.nodup_iff_pairwise_ne,List.pairwise_map] at distinct
  exact distinct.imp (fun {p q} different same => absurd same different)

theorem Mines.transactionsOnce (mines : Mines lib ctxt earlier s header body pre) :
    WorthOnce (body.transactions.flatMap (Transaction.createdOutputs lib)) := by
  have apart := (List.nodup_flatMap.mp mines.source.distinct).2
  refine List.pairwise_flatMap.mpr ⟨fun tx mem => ?_,?_⟩
  · exact onceOfDistinct (createdDistinct (mines.short tx (takenNow mem)))
  · refine apart.imp_of_mem (fun {a b} memA memB disjoint p createdA q createdB same => ?_)
    by_contra nonzero
    obtain ⟨f,source,spends⟩ := createdSpends mines.source memA createdA (Nat.pos_of_ne_zero nonzero)
    obtain ⟨i,isInput,_⟩ := worthyInput source spends
    have alike := (createdAlike mines.ids.txids (takenNow memA) (takenNow memB) (mines.short a (takenNow memA))
      (mines.short b (takenNow memB)) createdA createdB same).1
    exact disjoint (List.mem_map_of_mem isInput) (List.mem_map_of_mem (alike.inputs ▸ isInput))

theorem Mines.blockOnce (mines : Mines lib ctxt earlier s header body pre) : WorthOnce (blockCreates lib header body) := by
  refine List.pairwise_append.mpr ⟨?_,mines.transactionsOnce,?_⟩
  · exact onceOfDistinct (pointedDistinct (fun _ _ same => (OutPoint.coinbase.inj same).2)
      (Nat.lt_of_le_of_lt outputsLength mines.coinbase))
  · intro p minted q made same
    obtain ⟨_,isCoinbase⟩ := coinbaseOutpoint minted
    obtain ⟨tx,_,created⟩ := List.mem_flatMap.mp made
    obtain ⟨_,isRegular⟩ := transactionOutpoint created
    rw [isCoinbase,isRegular] at same
    cases same

theorem Mines.consumedAfter (mines : Mines lib ctxt earlier s header body pre) {l : Ledger}
    (connected : connectCoins lib header body s.toLedger = .ok l) :
    Consumed lib (earlier ++ [.connect header body]) l.utxos := by
  intro tx mem i isInput
  rw [transactionsOfAppend] at mem
  rcases List.mem_append.mp mem with past | now
  · obtain ⟨y,made,notWithdrawn,worthless⟩ := mines.consumed tx past i isInput
    refine ⟨y,createdBefore made,notWithdrawn,fun there => ?_⟩
    obtain ⟨x,found⟩ := Option.isSome_iff_exists.mp there
    rcases blockUnspentFrom connected found with before | created
    · exact worthless (by rw [before]; rfl)
    · exact mines.fresh made created rfl
  · have inBody : tx ∈ body.transactions := by
      obtain ⟨step,inside,taken⟩ := List.mem_flatMap.mp now
      cases List.mem_singleton.mp inside
      exact taken
    obtain ⟨f,_,source⟩ := relatedLeft mines.source.transactions inBody
    obtain ⟨y,_,found⟩ := relatedLeft source.fill.spent isInput
    have spent : i.1 ∈ body.inputKeys := List.mem_flatMap.mpr ⟨tx,inBody,List.mem_map_of_mem isInput⟩
    have made := mines.provenance.ledger.utxos i.1 y found
    refine ⟨y,createdBefore made,inputsNotWithdrawn mines.source.transactions spent found,fun there => ?_⟩
    by_cases created : ∃ x, ⟨i.1,x⟩ ∈ blockCreates lib header body
    · obtain ⟨x,isCreated⟩ := created
      exact mines.fresh made isCreated rfl
    · rw [blockSpent connected spent (fun x isCreated => created ⟨x,isCreated⟩)] at there
      cases there

theorem absentStays {l : Ledger} {o : OutPoint} {ops : List PegOp} (away : ∀ op ∈ ops, op.isSpend = true ∨ op.utxo.1 ≠ o)
    (absent : l.utxos.tryGet o = none) : (ops.foldl PegOp.apply l).utxos.tryGet o = none := by
  induction ops generalizing l with
  | nil => exact absent
  | cons op ops ih =>
      refine ih (fun op mem => away op (List.mem_cons_of_mem _ mem)) ?_
      have here := away op List.mem_cons_self
      cases op with
      | spend m6id u =>
          simp only [PegOp.apply,Table.tryGetDelete]
          split
          · rfl
          · exact absent
      | deposit u =>
          have other : u.1 ≠ o := here.resolve_left (by simp [PegOp.isSpend])
          simp only [PegOp.apply,Table.tryGetPutOther other.symm]
          exact absent
      | unspend u =>
          have other : u.1 ≠ o := here.resolve_left (by simp [PegOp.isSpend])
          simp only [PegOp.apply,Table.tryGetPutOther other.symm]
          exact absent

section Peg

variable {data : TwoWayPegData} {rpc : RpcReplies}

theorem depositsFresh (ids : Identified lib (earlier ++ [.connectPeg data rpc])) {p q : PointedOutput}
    (before : p ∈ createdBy lib earlier) (now : q ∈ data.deposits) : p.outpoint ≠ q.outpoint := by
  intro same
  obtain ⟨txid,vout,isAt⟩ := depositOutpoint now
  have past : p ∈ depositsOf earlier := createdByDeposit before (same.trans isAt)
  have all := ids.deposits
  rw [depositsOf,List.flatMap_append,List.flatMap_singleton,List.map_append] at all
  exact (List.nodup_append.mp all).2.2 _ (List.mem_map_of_mem past) _ (List.mem_map_of_mem now) same

theorem depositsDistinct (ids : Identified lib (earlier ++ [.connectPeg data rpc])) :
    (data.deposits.map (·.outpoint)).Nodup := by
  have all := ids.deposits
  rw [depositsOf,List.flatMap_append,List.flatMap_singleton,List.map_append] at all
  exact (List.nodup_append.mp all).2.1

theorem eventAbsent {made : List PointedOutput} {height : Nat} {p p' : PegProgress} {event : Hash × BlockEvent}
    {ops : List PegOp} (alike : OutputsAlike made) (bundles : BundlesFrom made p.toPegTables)
    (effect : EventEffect lib height p event p' ops) {o : OutPoint} {y : Output} (mem : ⟨o,y⟩ ∈ made)
    (kept : y.content.isWithdrawal = false) (elsewhere : ∀ q, event.2.created = some q → o ≠ q.outpoint)
    (absent : p.utxos.tryGet o = none) : p'.utxos.tryGet o = none := by
  rw [effect.ledger]
  refine absentStays (fun op isOp => ?_) absent
  have happened := effect.cases
  generalize event.2 = e at happened elsewhere
  generalize p'.toPegTables = w at happened
  cases happened with
  | deposited d =>
      cases List.mem_singleton.mp isOp
      exact .inr (Ne.symm (elsewhere _ rfl))
  | submitted =>
      obtain ⟨u,_,rfl⟩ := List.mem_map.mp isOp
      exact .inl rfl
  | confirmedUnknown =>
      obtain ⟨u,_,rfl⟩ := List.mem_map.mp isOp
      exact .inl rfl
  | failed recorded live push failures =>
      obtain ⟨u,inside,rfl⟩ := List.mem_map.mp isOp
      refine .inr (fun same => ?_)
      have source := bundles.known _ _ _ recorded
      have bares := alike _ (source.created u inside) _ mem same
      have withdrawn := source.withdrawals u inside
      rw [← bareWithdrawal,show u.2.bare = y.bare from bares,bareWithdrawal,kept] at withdrawn
      cases withdrawn
  | _ => cases isOp

theorem consumedPeg (ids : Identified lib (earlier ++ [.connectPeg data rpc]))
    (alike : OutputsAlike (createdBy lib (earlier ++ [.connectPeg data rpc])))
    (provenance : Provenance (createdBy lib earlier) s) (consumed : Consumed lib earlier s.utxos)
    (ok : connectTwoWayPegData lib s data rpc = .ok t) : Consumed lib (earlier ++ [.connectPeg data rpc]) t.utxos := by
  obtain ⟨height,progress,source⟩ := pegConnectSource ok
  have more : createdBy lib earlier ⊆ createdBy lib (earlier ++ [.connectPeg data rpc]) := createdBefore
  have bundles := provenance.bundles.mono more
  intro tx mem i isInput
  rw [transactionsOfAppend] at mem
  obtain ⟨y,made,kept,worthless⟩ := consumed tx ((List.append_nil (transactionsOf earlier)) ▸ mem) i isInput
  refine ⟨y,createdBefore made,kept,fun there => ?_⟩
  cases before : s.utxos.tryGet i.1 with
  | some x => exact worthless (by rw [before]; rfl)
  | none =>
    have absent : BundlesFrom (createdBy lib (earlier ++ [.connectPeg data rpc])) progress.toPegTables ∧
        progress.utxos.tryGet i.1 = none := by
      refine eventsInvariant (P := fun p => BundlesFrom (createdBy lib (earlier ++ [.connectPeg data rpc])) p.toPegTables ∧
        p.utxos.tryGet i.1 = none) ?_ ⟨bundles,before⟩ source.events
      intro p event p' ops inside now effect
      refine ⟨eventBundlesFrom now.1 effect.cases,?_⟩
      refine eventAbsent alike now.1 effect (createdBefore made) kept (fun q created => ?_) now.2
      exact depositsFresh ids made (List.mem_filterMap.mpr ⟨event,inside,created⟩)
    rw [show t.utxos = progress.utxos from congrArg Ledger.utxos source.ledger,absent.2] at there
    cases there

end Peg

theorem runOnce (forward : ∀ step ∈ steps, step.isForward = true) (ids : Identified lib steps)
    (ok : run lib ctxt steps (State.new F) = .ok last) :
    WorthOnce (createdBy lib steps) ∧ Consumed lib steps last.utxos := by
  refine historyInvariant (P := fun earlier s => WorthOnce (createdBy lib earlier) ∧ Consumed lib earlier s.utxos)
    ⟨.nil,fun tx mem => by cases mem⟩ ?_ ok
  intro earlier s x t later split reached applied holds
  obtain ⟨once,consumed⟩ := holds
  have upTo : steps = (earlier ++ [x]) ++ later := by rw [split,List.append_assoc,List.singleton_append]
  have idsNow : Identified lib (earlier ++ [x]) := Identified.upTo (upTo ▸ ids)
  have reachedNow : run lib ctxt (earlier ++ [x]) (State.new F) = .ok t :=
    foldAppendOk.mpr ⟨s,reached,foldConsOk.mpr ⟨t,applied,rfl⟩⟩
  have alike := runAlike idsNow reachedNow
  have provenance := runProvenance (fun step mem => forward step (split ▸ List.mem_append_left _ mem)) reached
  have isForward := forward x (split ▸ List.mem_append_right earlier List.mem_cons_self)
  cases x with
  | connect header body =>
      obtain ⟨pre,source⟩ := connectBlockSource applied
      have mines : Mines lib ctxt earlier s header body pre :=
        ⟨idsNow,alike,runShort reachedNow,acceptedCoinbase source.accepted,provenance,consumed,source.validated,
          blockWorth source.accepted⟩
      refine ⟨?_,mines.consumedAfter source.connected.coins⟩
      rw [createdByConcat]
      exact List.pairwise_append.mpr ⟨once,mines.blockOnce,fun p before q now same => mines.fresh before now same⟩
  | connectPeg data rpc =>
      refine ⟨?_,consumedPeg idsNow alike provenance consumed applied⟩
      rw [createdByConcat]
      refine List.pairwise_append.mpr ⟨once,onceOfDistinct (depositsDistinct idsNow),fun p before q now same => ?_⟩
      exact absurd same (depositsFresh idsNow before now)
  | localOp op =>
      simp only [Step.apply,bindOk,pureOk] at applied
      obtain ⟨w,_,rfl⟩ := applied
      refine ⟨?_,fun tx mem i isInput => ?_⟩
      · rw [createdByConcat]
        exact (List.append_nil (createdBy lib earlier)).symm ▸ once
      · rw [transactionsOfAppend] at mem
        obtain ⟨y,isMade,kept,worthless⟩ := consumed tx ((List.append_nil (transactionsOf earlier)) ▸ mem) i isInput
        exact ⟨y,createdBefore isMade,kept,worthless⟩
  | _ => cases isForward

end Once

end Coinshift
