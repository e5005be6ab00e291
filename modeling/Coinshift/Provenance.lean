import Coinshift.PegOps
import Coinshift.StepEffects
import Coinshift.TransactionEncoding

/-! Where the outputs of a ledger come from.
Every output on record, unspent, spent or in a bundle, was created by a step of the run: in a
coinbase, by a transaction or by a deposit. -/
namespace Coinshift
open Checked Keyed

variable {F : Type} {lib : Externals F} {ctxt : BatchVerificationContext} {s s' : State F}
  {header : Header} {body : Body}

section Created

def blockCreates (lib : Externals F) (header : Header) (body : Body) : List PointedOutput :=
  coinbaseOutputs header.merkleRoot body.coinbase ++ body.transactions.flatMap (Transaction.createdOutputs lib)

def BlockEvent.created : BlockEvent → Option PointedOutput
  | .deposit d => some ⟨.deposit d.txid d.vout,d.output⟩
  | .withdrawalBundle _ => none

def TwoWayPegData.deposits (data : TwoWayPegData) : List PointedOutput :=
  data.events.filterMap (fun event => event.2.created)

def Step.creates (lib : Externals F) : Step F → List PointedOutput
  | .connect header body => blockCreates lib header body
  | .connectPeg data _ => data.deposits
  | _ => []

def createdBy (lib : Externals F) (steps : List (Step F)) : List PointedOutput := steps.flatMap (Step.creates lib)

def Step.transactions : Step F → List Transaction
  | .connect _ body => body.transactions
  | _ => []

def transactionsOf (steps : List (Step F)) : List Transaction := steps.flatMap Step.transactions

theorem createdByAppend {steps more : List (Step F)} :
    createdBy lib (steps ++ more) = createdBy lib steps ++ createdBy lib more := List.flatMap_append

theorem memTransactionsOf {steps : List (Step F)} {tx : Transaction} : tx ∈ transactionsOf steps ↔
    ∃ header body, Step.connect header body ∈ steps ∧ tx ∈ body.transactions := by
  simp only [transactionsOf,List.mem_flatMap]
  constructor
  · intro found
    obtain ⟨step,mem,inside⟩ := found
    cases step with
    | connect header body => exact ⟨header,body,mem,inside⟩
    | _ => cases inside
  · intro found
    obtain ⟨header,body,mem,inside⟩ := found
    exact ⟨.connect header body,mem,inside⟩

theorem transactionsOfAppend {steps more : List (Step F)} :
    transactionsOf (steps ++ more) = transactionsOf steps ++ transactionsOf more := List.flatMap_append

theorem runShort {steps : List (Step F)} {last : State F} (ok : run lib ctxt steps (State.new F) = .ok last) :
    ∀ tx ∈ transactionsOf steps, tx.Short lib := by
  intro tx mem
  obtain ⟨header,body,taken,inside⟩ := memTransactionsOf.mp mem
  obtain ⟨s,t,_,takes⟩ := takesOfMem ok taken
  have connected := takes.applied
  simp only [Step.apply,connectBlock,bindOk] at connected
  obtain ⟨pre,accepted,_⟩ := connected
  exact acceptedShort accepted inside

def Step.deposits : Step F → List PointedOutput
  | .connectPeg data _ => data.deposits
  | _ => []

def depositsOf (steps : List (Step F)) : List PointedOutput := steps.flatMap Step.deposits

theorem depositOutpoint {data : TwoWayPegData} {p : PointedOutput} (mem : p ∈ data.deposits) :
    ∃ txid vout, p.outpoint = .deposit txid vout := by
  obtain ⟨event,_,isDeposit⟩ := List.mem_filterMap.mp mem
  unfold BlockEvent.created at isDeposit
  split at isDeposit
  · next d _ =>
      cases isDeposit
      exact ⟨d.txid,d.vout,rfl⟩
  · cases isDeposit

theorem coinbaseOutpoint {root : MerkleRoot} {coinbase : List Output} {p : PointedOutput}
    (mem : p ∈ coinbaseOutputs root coinbase) : ∃ vout, p.outpoint = .coinbase root vout := by
  obtain ⟨o,_,rfl⟩ := List.mem_map.mp mem
  exact ⟨UInt32.ofNat o.2,rfl⟩

theorem transactionOutpoint {tx : Transaction} {p : PointedOutput} (mem : p ∈ tx.createdOutputs lib) :
    ∃ vout, p.outpoint = .regular (tx.txid lib) vout := by
  obtain ⟨o,_,rfl⟩ := List.mem_map.mp mem
  exact ⟨UInt32.ofNat o.2,rfl⟩

theorem createdOrigin {steps : List (Step F)} {p : PointedOutput} (mem : p ∈ createdBy lib steps) :
    (∃ header body, .connect header body ∈ steps ∧ p ∈ coinbaseOutputs header.merkleRoot body.coinbase) ∨
      (∃ tx ∈ transactionsOf steps, p ∈ tx.createdOutputs lib) ∨ p ∈ depositsOf steps := by
  obtain ⟨step,inside,created⟩ := List.mem_flatMap.mp mem
  cases step with
  | connect header body =>
      rcases List.mem_append.mp created with coinbase | made
      · exact .inl ⟨header,body,inside,coinbase⟩
      · obtain ⟨tx,memTx,isMade⟩ := List.mem_flatMap.mp made
        exact .inr (.inl ⟨tx,memTransactionsOf.mpr ⟨header,body,inside,memTx⟩,isMade⟩)
  | connectPeg data rpc => exact .inr (.inr (List.mem_flatMap.mpr ⟨_,inside,created⟩))
  | _ => cases created

theorem createdByTransaction {steps : List (Step F)} {p : PointedOutput} (mem : p ∈ createdBy lib steps) {txid : Txid}
    {vout : UInt32} (isRegular : p.outpoint = .regular txid vout) :
    ∃ tx ∈ transactionsOf steps, p ∈ tx.createdOutputs lib := by
  rcases createdOrigin mem with ⟨_,_,_,coinbase⟩ | made | deposited
  · obtain ⟨_,isCoinbase⟩ := coinbaseOutpoint coinbase
    cases isRegular.symm.trans isCoinbase
  · exact made
  · obtain ⟨step,_,inside⟩ := List.mem_flatMap.mp deposited
    cases step with
    | connectPeg data rpc =>
        obtain ⟨_,_,isDeposit⟩ := depositOutpoint inside
        cases isRegular.symm.trans isDeposit
    | _ => cases inside

theorem createdByCoinbase {steps : List (Step F)} {p : PointedOutput} (mem : p ∈ createdBy lib steps)
    {root : MerkleRoot} {vout : UInt32} (isCoinbase : p.outpoint = .coinbase root vout) :
    ∃ header body, .connect header body ∈ steps ∧ header.merkleRoot = root ∧ p ∈ coinbaseOutputs root body.coinbase := by
  rcases createdOrigin mem with ⟨header,body,inside,coinbase⟩ | ⟨tx,_,made⟩ | deposited
  · obtain ⟨_,isAt⟩ := coinbaseOutpoint coinbase
    obtain ⟨same,_⟩ := OutPoint.coinbase.inj (isAt.symm.trans isCoinbase)
    exact ⟨header,body,inside,same,same ▸ coinbase⟩
  · obtain ⟨_,isRegular⟩ := transactionOutpoint made
    cases isCoinbase.symm.trans isRegular
  · obtain ⟨step,_,inside⟩ := List.mem_flatMap.mp deposited
    cases step with
    | connectPeg data rpc =>
        obtain ⟨_,_,isDeposit⟩ := depositOutpoint inside
        cases isCoinbase.symm.trans isDeposit
    | _ => cases inside

theorem createdByDeposit {steps : List (Step F)} {p : PointedOutput} (mem : p ∈ createdBy lib steps)
    {txid : Hash} {vout : UInt32} (isDeposit : p.outpoint = .deposit txid vout) : p ∈ depositsOf steps := by
  rcases createdOrigin mem with ⟨_,_,_,coinbase⟩ | ⟨tx,_,made⟩ | deposited
  · obtain ⟨_,isCoinbase⟩ := coinbaseOutpoint coinbase
    cases isDeposit.symm.trans isCoinbase
  · obtain ⟨_,isRegular⟩ := transactionOutpoint made
    cases isDeposit.symm.trans isRegular
  · exact deposited

end Created

section Blocks

theorem memBlockPuts {p : PointedOutput} : LedgerOp.put p ∈ blockOps lib header body ↔ p ∈ blockCreates lib header body := by
  simp only [blockOps,blockCreates,Transaction.ops,Transaction.spends,List.mem_append,List.mem_map,List.mem_flatMap,
    LedgerOp.put.injEq,exists_eq_right,reduceCtorEq,and_false,exists_false,false_or]

theorem cellUnspentFrom {ops : List LedgerOp} {c c' : Cell} (folded : ops.foldlM Cell.apply c = some c') {x : Output}
    (unspent : c'.unspent = some x) : c.unspent = some x ∨ ∃ p, .put p ∈ ops ∧ p.output = x := by
  induction ops generalizing c with
  | nil =>
      cases Option.some.inj folded
      exact .inl unspent
  | cons op ops ih =>
      rw [List.foldlM_cons] at folded
      obtain ⟨middle,first,rest⟩ := Option.bind_eq_some_iff.mp folded
      rcases ih rest with before | ⟨p,mem,same⟩
      · cases op with
        | put p =>
            cases Option.some.inj first
            exact .inr ⟨p,List.mem_cons_self,Option.some.inj before⟩
        | spend o inpoint =>
            obtain ⟨output,_,rfl⟩ := Option.map_eq_some_iff.mp first
            cases before
      · exact .inr ⟨p,List.mem_cons_of_mem _ mem,same⟩

theorem cellSpentFrom {ops : List LedgerOp} {c c' : Cell} (folded : ops.foldlM Cell.apply c = some c') {y : SpentOutput}
    (spent : c'.spent = some y) :
    c.spent = some y ∨ c.unspent = some y.output ∨ ∃ p, .put p ∈ ops ∧ p.output = y.output := by
  induction ops generalizing c with
  | nil =>
      cases Option.some.inj folded
      exact .inl spent
  | cons op ops ih =>
      rw [List.foldlM_cons] at folded
      obtain ⟨middle,first,rest⟩ := Option.bind_eq_some_iff.mp folded
      cases op with
      | put p =>
          cases Option.some.inj first
          rcases ih rest with before | fresh | ⟨q,mem,same⟩
          · exact .inl before
          · exact .inr (.inr ⟨p,List.mem_cons_self,Option.some.inj fresh⟩)
          · exact .inr (.inr ⟨q,List.mem_cons_of_mem _ mem,same⟩)
      | spend o inpoint =>
          obtain ⟨output,isUnspent,rfl⟩ := Option.map_eq_some_iff.mp first
          rcases ih rest with before | fresh | ⟨q,mem,same⟩
          · cases Option.some.inj before
            exact .inr (.inl isUnspent)
          · cases fresh
          · exact .inr (.inr ⟨q,List.mem_cons_of_mem _ mem,same⟩)

theorem blockCell {l l' : Ledger} (connected : connectCoins lib header body l = .ok l') (o : OutPoint) :
    (at_ LedgerOp.key o (blockOps lib header body)).foldlM Cell.apply (l.cell o) = some (l'.cell o) := by
  rw [connectCoinsOps] at connected
  exact applyLocal.fold connected o

theorem memAtPut {o : OutPoint} {p : PointedOutput} (mem : .put p ∈ at_ LedgerOp.key o (blockOps lib header body)) :
    p ∈ blockCreates lib header body ∧ p.outpoint = o := by
  obtain ⟨inside,isHere⟩ := List.mem_filter.mp mem
  exact ⟨memBlockPuts.mp inside,of_decide_eq_true isHere⟩

theorem blockUnspentFrom {l l' : Ledger} (connected : connectCoins lib header body l = .ok l') {o : OutPoint} {x : Output}
    (unspent : l'.utxos.tryGet o = some x) : l.utxos.tryGet o = some x ∨ ⟨o,x⟩ ∈ blockCreates lib header body := by
  rcases cellUnspentFrom (blockCell connected o) unspent with before | ⟨p,mem,rfl⟩
  · exact .inl before
  · obtain ⟨created,rfl⟩ := memAtPut mem
    exact .inr created

theorem blockSpentFrom {l l' : Ledger} (connected : connectCoins lib header body l = .ok l') {o : OutPoint}
    {y : SpentOutput} (spent : l'.stxos.tryGet o = some y) :
    l.stxos.tryGet o = some y ∨ l.utxos.tryGet o = some y.output ∨ ⟨o,y.output⟩ ∈ blockCreates lib header body := by
  rcases cellSpentFrom (blockCell connected o) spent with before | unspent | ⟨p,mem,same⟩
  · exact .inl before
  · exact .inr (.inl unspent)
  · obtain ⟨created,rfl⟩ := memAtPut mem
    rw [← same]
    exact .inr (.inr created)

theorem notSpentAt {o : OutPoint} (unspent : o ∉ body.inputKeys) {op : LedgerOp}
    (mem : op ∈ at_ LedgerOp.key o (blockOps lib header body)) : ∃ p, op = .put p := by
  cases op with
  | put p => exact ⟨p,rfl⟩
  | spend outpoint inpoint =>
      refine absurd (@spendAt F lib header body o ?_) unspent
      intro none
      have inside : (LedgerOp.spend outpoint inpoint).key ∈ spendKeys (at_ LedgerOp.key o (blockOps lib header body)) :=
        List.mem_map_of_mem (List.mem_filter.mpr ⟨mem,rfl⟩)
      rw [none] at inside
      cases inside

theorem blockUntouched {l l' : Ledger} {o : OutPoint} (connected : connectCoins lib header body l = .ok l')
    (unspent : o ∉ body.inputKeys) (uncreated : ∀ x, ⟨o,x⟩ ∉ blockCreates lib header body) : l'.cell o = l.cell o := by
  have none : at_ LedgerOp.key o (blockOps lib header body) = [] := by
    rw [List.eq_nil_iff_forall_not_mem]
    intro op mem
    obtain ⟨p,rfl⟩ := notSpentAt unspent mem
    obtain ⟨created,rfl⟩ := memAtPut mem
    exact uncreated p.output created
  have cell := blockCell connected o
  rw [none] at cell
  exact (Option.some.inj cell).symm

theorem cellPuts {ops : List LedgerOp} {c c' : Cell} (nonempty : ops ≠ []) (puts : ∀ op ∈ ops, ∃ p, op = .put p)
    (folded : ops.foldlM Cell.apply c = some c') : ∃ p, .put p ∈ ops ∧ c'.unspent = some p.output := by
  obtain rfl | ⟨front,op,rfl⟩ := ops.eq_nil_or_concat'
  · exact absurd rfl nonempty
  · obtain ⟨p,rfl⟩ := puts op (List.mem_append_right front List.mem_cons_self)
    rw [List.foldlM_append] at folded
    obtain ⟨middle,_,ends⟩ := Option.bind_eq_some_iff.mp folded
    cases Option.some.inj ends
    exact ⟨p,List.mem_append_right front List.mem_cons_self,rfl⟩

theorem cellSpends {ops : List LedgerOp} {c c' : Cell} (nonempty : ops ≠ []) (spends : ∀ op ∈ ops, op.isPut = false)
    (folded : ops.foldlM Cell.apply c = some c') : c'.unspent = none := by
  obtain rfl | ⟨front,op,rfl⟩ := ops.eq_nil_or_concat'
  · exact absurd rfl nonempty
  · rw [List.foldlM_append] at folded
    obtain ⟨middle,_,ends⟩ := Option.bind_eq_some_iff.mp folded
    cases op with
    | put p => cases spends (.put p) (List.mem_append_right front List.mem_cons_self)
    | spend outpoint inpoint =>
        rw [List.foldlM_cons] at ends
        obtain ⟨last,isSpent,done⟩ := Option.bind_eq_some_iff.mp ends
        obtain ⟨_,_,rfl⟩ := Option.map_eq_some_iff.mp isSpent
        exact congrArg Cell.unspent (Option.some.inj done).symm

theorem blockSpent {l l' : Ledger} {o : OutPoint} (connected : connectCoins lib header body l = .ok l')
    (spent : o ∈ body.inputKeys) (uncreated : ∀ x, ⟨o,x⟩ ∉ blockCreates lib header body) : l'.utxos.tryGet o = none := by
  have inside : o ∈ spendKeys (at_ LedgerOp.key o (blockOps lib header body)) := by
    rw [spendKeysAt,spendKeysBlock]
    exact List.mem_filter.mpr ⟨spent,decide_eq_true rfl⟩
  refine cellSpends (fun isNil => ?_) (fun op mem => ?_) (blockCell connected o)
  · rw [isNil] at inside
    cases inside
  · cases op with
    | put p =>
        obtain ⟨created,rfl⟩ := memAtPut mem
        exact absurd created (uncreated p.output)
    | spend _ _ => rfl

theorem blockCreated {l l' : Ledger} {o : OutPoint} (connected : connectCoins lib header body l = .ok l')
    (unspent : o ∉ body.inputKeys) {x : Output} (created : ⟨o,x⟩ ∈ blockCreates lib header body) :
    ∃ y, l'.utxos.tryGet o = some y ∧ ⟨o,y⟩ ∈ blockCreates lib header body := by
  have inside : .put ⟨o,x⟩ ∈ at_ LedgerOp.key o (blockOps lib header body) :=
    List.mem_filter.mpr ⟨memBlockPuts.mpr created,decide_eq_true rfl⟩
  obtain ⟨p,mem,found⟩ := cellPuts (List.ne_nil_of_mem inside) (fun op mem => notSpentAt unspent mem)
    (blockCell connected o)
  obtain ⟨isCreated,rfl⟩ := memAtPut mem
  exact ⟨p.output,found,isCreated⟩

end Blocks

section Provenance

variable {made : List PointedOutput}

structure LedgerFrom (made : List PointedOutput) (l : Ledger) : Prop where
  utxos : ∀ o x, l.utxos.tryGet o = some x → ⟨o,x⟩ ∈ made
  stxos : ∀ o y, l.stxos.tryGet o = some y → ⟨o,y.output⟩ ∈ made

structure BundleFrom (made : List PointedOutput) (bundle : WithdrawalBundle) : Prop where
  distinct : (bundle.spendUtxos.map (·.1)).Nodup
  withdrawals : ∀ u ∈ bundle.spendUtxos, u.2.content.isWithdrawal = true
  created : ∀ u ∈ bundle.spendUtxos, ⟨u.1,u.2⟩ ∈ made

structure BundlesFrom (made : List PointedOutput) (t : PegTables) : Prop where
  pending : ∀ bundle collectedAt, t.pendingWithdrawalBundle = some (bundle,collectedAt) → BundleFrom made bundle
  known : ∀ m6id bundle history, t.withdrawalBundles.tryGet m6id = some (.known bundle,history) → BundleFrom made bundle

structure Provenance (made : List PointedOutput) (s : State F) : Prop where
  ledger : LedgerFrom made s.toLedger
  bundles : BundlesFrom made s.toPegTables

variable {l : Ledger} {t t' : PegTables} {more : List PointedOutput}

theorem newLedgerFrom : LedgerFrom made (State.new F).toLedger := by
  refine ⟨fun o x found => ?_,fun o y found => ?_⟩
  · cases Table.tryGetEmpty.symm.trans found
  · cases Table.tryGetEmpty.symm.trans found

theorem LedgerFrom.mono (holds : LedgerFrom made l) (sub : made ⊆ more) : LedgerFrom more l :=
  ⟨fun o x found => sub (holds.utxos o x found),fun o y found => sub (holds.stxos o y found)⟩

theorem BundlesFrom.mono (holds : BundlesFrom made t) (sub : made ⊆ more) : BundlesFrom more t := by
  have bundle {b : WithdrawalBundle} (source : BundleFrom made b) : BundleFrom more b :=
    ⟨source.distinct,source.withdrawals,fun u mem => sub (source.created u mem)⟩
  exact ⟨fun b at_ found => bundle (holds.pending b at_ found),
    fun m6id b history found => bundle (holds.known m6id b history found)⟩

theorem blockLedgerFrom {l' : Ledger} (holds : LedgerFrom made l) (connected : connectCoins lib header body l = .ok l') :
    LedgerFrom (made ++ blockCreates lib header body) l' := by
  refine ⟨?_,?_⟩
  · intro o x found
    rcases blockUnspentFrom connected found with before | created
    · exact List.mem_append_left _ (holds.utxos o x before)
    · exact List.mem_append_right _ created
  · intro o y found
    rcases blockSpentFrom connected found with before | unspent | created
    · exact List.mem_append_left _ (holds.stxos o y before)
    · exact List.mem_append_left _ (holds.utxos o _ unspent)
    · exact List.mem_append_right _ created

theorem LedgerFrom.put {o : OutPoint} {x : Output} (holds : LedgerFrom made l) (created : ⟨o,x⟩ ∈ made) :
    LedgerFrom made { l with utxos := l.utxos.put o x } := by
  refine ⟨fun o' x' found => ?_,holds.stxos⟩
  rw [Table.tryGetPut] at found
  split at found
  · next here =>
      cases found
      exact here ▸ created
  · exact holds.utxos o' x' found

theorem LedgerFrom.spend {o : OutPoint} {y : SpentOutput} (holds : LedgerFrom made l) (created : ⟨o,y.output⟩ ∈ made) :
    LedgerFrom made ⟨l.utxos.delete o,l.stxos.put o y⟩ := by
  refine ⟨fun o' x found => ?_,fun o' y' found => ?_⟩
  · rw [Table.tryGetDelete] at found
    split at found
    · cases found
    · exact holds.utxos o' x found
  · rw [Table.tryGetPut] at found
    split at found
    · next here =>
        cases found
        exact here ▸ created
    · exact holds.stxos o' y' found

theorem opLedgerFrom {op : PegOp} (holds : LedgerFrom made l) (created : ⟨op.utxo.1,op.utxo.2⟩ ∈ made) :
    LedgerFrom made (op.apply l) := by
  cases op with
  | deposit u => exact holds.put created
  | spend m6id u => exact holds.spend created
  | unspend u =>
      refine ⟨(holds.put created).utxos,fun o y found => ?_⟩
      simp only [PegOp.apply,Table.tryGetDelete] at found
      split at found
      · cases found
      · exact holds.stxos o y found

theorem opsLedgerFrom {ops : List PegOp} (holds : LedgerFrom made l)
    (created : ∀ op ∈ ops, ⟨op.utxo.1,op.utxo.2⟩ ∈ made) : LedgerFrom made (ops.foldl PegOp.apply l) := by
  induction ops generalizing l with
  | nil => exact holds
  | cons op ops ih =>
      exact ih (opLedgerFrom holds (created op List.mem_cons_self)) (fun op mem => created op (List.mem_cons_of_mem _ mem))

theorem eventOpsFrom {height : Nat} {event : BlockEvent} {ops : List PegOp}
    (ledger : LedgerFrom made l) (bundles : BundlesFrom made t)
    (happened : EventCase lib height l.utxos t event ops t') :
    ∀ op ∈ ops, ⟨op.utxo.1,op.utxo.2⟩ ∈ made ++ event.created.toList := by
  intro op mem
  cases happened with
  | deposited d =>
      cases List.mem_singleton.mp mem
      exact List.mem_append_right _ List.mem_cons_self
  | submitted pending own next =>
      obtain ⟨u,inside,rfl⟩ := List.mem_map.mp mem
      exact List.mem_append_left _ ((bundles.pending _ _ pending).created u inside)
  | confirmedUnknown recorded unknown genesis live push =>
      obtain ⟨u,inside,rfl⟩ := List.mem_map.mp mem
      exact List.mem_append_left _ (ledger.utxos u.1 u.2 (Table.memEntries.mp (memSortByOutPoint.mp inside)))
  | failed recorded live push failures =>
      obtain ⟨u,inside,rfl⟩ := List.mem_map.mp mem
      exact List.mem_append_left _ ((bundles.known _ _ _ recorded).created u inside)
  | _ => cases mem

theorem knownAfterPut {m6id m : M6id} {info : WithdrawalBundleInfo} {history h : RollBack WithdrawalBundleStatus}
    {bundle : WithdrawalBundle} (found : (t.withdrawalBundles.put m6id (info,history)).tryGet m = some (.known bundle,h)) :
    (m = m6id ∧ info = .known bundle ∧ history = h) ∨
      m ≠ m6id ∧ t.withdrawalBundles.tryGet m = some (.known bundle,h) := by
  rw [Table.tryGetPut] at found
  split at found
  · next here =>
      cases found
      exact .inl ⟨here,rfl,rfl⟩
  · next other => exact .inr ⟨other,found⟩

theorem eventBundlesFrom {height : Nat} {event : BlockEvent} {ops : List PegOp}
    (bundles : BundlesFrom made t) (happened : EventCase lib height l.utxos t event ops t') : BundlesFrom made t' := by
  have written {m6id : M6id} {info : WithdrawalBundleInfo} {history : RollBack WithdrawalBundleStatus}
      (isFrom : ∀ bundle, info = .known bundle → BundleFrom made bundle) (m : M6id) (bundle : WithdrawalBundle)
      (h : RollBack WithdrawalBundleStatus)
      (found : (t.withdrawalBundles.put m6id (info,history)).tryGet m = some (.known bundle,h)) :
      BundleFrom made bundle := by
    rcases knownAfterPut found with ⟨_,isKnown,_⟩ | ⟨_,before⟩
    · exact isFrom bundle isKnown
    · exact bundles.known m bundle h before
  cases happened with
  | deposited d => exact bundles
  | submitted pending own next =>
      refine ⟨fun _ _ gone => ?_,written (fun bundle isKnown => ?_)⟩
      · cases gone
      · cases isKnown
        exact bundles.pending _ _ pending
  | submittedUnknown other missing => exact ⟨bundles.pending,written (fun bundle isKnown => by cases isKnown)⟩
  | confirmed recorded live push =>
      refine ⟨bundles.pending,written (fun bundle isKnown => ?_)⟩
      cases isKnown
      exact bundles.known _ _ _ recorded
  | confirmedUnknown recorded unknown genesis live push =>
      exact ⟨bundles.pending,written (fun bundle isKnown => by cases isKnown)⟩
  | failed recorded live push failures =>
      refine ⟨bundles.pending,written (fun bundle isKnown => ?_)⟩
      cases isKnown
      exact bundles.known _ _ _ recorded
  | failedUnknown recorded unknown live push =>
      exact ⟨bundles.pending,written (fun bundle isKnown => absurd isKnown (unknown bundle))⟩
  | submittedAgain other recorded first => exact bundles
  | confirmedAgain recorded already => exact bundles
  | failedAgain recorded already => exact bundles

theorem eventProvenance {height : Nat} {event : Hash × BlockEvent} {p p' : PegProgress} {ops : List PegOp}
    (holds : LedgerFrom made p.toLedger ∧ BundlesFrom made p.toPegTables) (deposit : event.2.created.toList ⊆ made)
    (effect : EventEffect lib height p event p' ops) :
    LedgerFrom made p'.toLedger ∧ BundlesFrom made p'.toPegTables := by
  refine ⟨?_,eventBundlesFrom holds.2 effect.cases⟩
  rw [effect.ledger]
  refine opsLedgerFrom holds.1 (fun op mem => ?_)
  rcases List.mem_append.mp (eventOpsFrom holds.1 holds.2 effect.cases op mem) with before | deposited
  · exact before
  · exact deposit deposited

theorem connectPegProvenance {data : TwoWayPegData} {rpc : RpcReplies} (holds : Provenance made s)
    (ok : connectTwoWayPegData lib s data rpc = .ok s') : Provenance (made ++ data.deposits) s' := by
  obtain ⟨height,progress,source⟩ := pegConnectSource ok
  have kept : made ⊆ made ++ data.deposits := List.subset_append_left _ _
  have after : LedgerFrom (made ++ data.deposits) progress.toLedger ∧
      BundlesFrom (made ++ data.deposits) progress.toPegTables := by
    refine eventsInvariant (P := fun p => LedgerFrom (made ++ data.deposits) p.toLedger ∧
      BundlesFrom (made ++ data.deposits) p.toPegTables) ?_ ⟨holds.ledger.mono kept,holds.bundles.mono kept⟩ source.events
    intro p event p' ops mem isFrom effect
    refine eventProvenance isFrom (fun created inside => ?_) effect
    exact List.mem_append_right _ (List.mem_filterMap.mpr ⟨event,mem,Option.mem_toList.mp inside⟩)
  refine ⟨source.ledger ▸ after.1,?_,?_⟩
  · intro bundle collectedAt found
    rcases collectPendingSource source.pending with same | ⟨_,_,collected⟩
    · exact after.2.pending bundle collectedAt (same ▸ found)
    · obtain ⟨_,fresh⟩ := collected bundle collectedAt found
      exact ⟨fresh.distinct,fresh.withdrawals,fun u mem => after.1.utxos u.1 u.2 (fresh.unspent u mem)⟩
  · intro m6id bundle history found
    rw [source.bundles] at found
    exact after.2.known m6id bundle history found

theorem forwardProvenance {step : Step F} (forward : step.isForward = true) (holds : Provenance made s)
    (ok : step.apply lib ctxt s = .ok s') : Provenance (made ++ step.creates lib) s' := by
  cases step with
  | connect header body =>
      obtain ⟨pre,source⟩ := connectBlockSource ok
      refine ⟨blockLedgerFrom holds.ledger source.connected.coins,?_⟩
      rw [source.connected.pegs]
      exact holds.bundles.mono (List.subset_append_left _ _)
  | connectPeg data rpc => exact connectPegProvenance holds ok
  | localOp op =>
      simp only [Step.apply,bindOk,pureOk] at ok
      obtain ⟨w,_,rfl⟩ := ok
      have nothing : Step.creates lib (.localOp op) = [] := rfl
      rw [nothing,List.append_nil]
      exact ⟨holds.ledger,holds.bundles⟩
  | _ => cases forward

theorem newProvenance : Provenance [] (State.new F) := by
  refine ⟨newLedgerFrom,fun bundle collectedAt found => ?_,fun m6id bundle history found => ?_⟩
  · cases found
  · cases Table.tryGetEmpty.symm.trans found

theorem runProvenance {steps : List (Step F)} {last : State F} (forward : ∀ step ∈ steps, step.isForward = true)
    (ok : run lib ctxt steps (State.new F) = .ok last) : Provenance (createdBy lib steps) last := by
  refine historyInvariant (P := fun earlier s => Provenance (createdBy lib earlier) s) newProvenance ?_ ok
  intro earlier s x t later split _ applied holds
  have mem : x ∈ steps := split ▸ List.mem_append_right earlier List.mem_cons_self
  rw [createdByAppend]
  simpa [createdBy] using forwardProvenance (forward x mem) holds applied

end Provenance

end Coinshift
