import Coinshift.BundlePayout
import Coinshift.Reference
import Coinshift.SidechainWealth

/-! Value is conserved.
Blocks and events move worth between the tables of a ledger; only deposits bring it in and only fees that no
coinbase takes leave. So what is unspent and what was withdrawn never exceed the deposits. -/
namespace Coinshift
open Checked Keyed

variable {F : Type} {lib : Externals F} {ctxt : BatchVerificationContext} {s t last : State F}
  {header : Header} {body : Body} {pre : PrevalidatedBlock} {steps : List (Step F)}

section Blocks

variable {made : List PointedOutput} {l l' : Ledger} {o : OutPoint}

def LedgerOp.creates : LedgerOp → Option PointedOutput
  | .put p => some p
  | .spend .. => none

def LedgerOp.given : LedgerOp → Nat
  | .put p => p.output.worth
  | .spend .. => 0

def LedgerOp.taken (l : Ledger) : LedgerOp → Nat
  | .put _ => 0
  | .spend o _ => (l.cell o).unspentWorth

theorem createsBlock : (blockOps lib header body).filterMap LedgerOp.creates = blockCreates lib header body := by
  have puts (ps : List PointedOutput) : (ps.map LedgerOp.put).filterMap LedgerOp.creates = ps := by
    rw [List.filterMap_map]
    exact List.filterMap_some
  have each (tx : Transaction) : (tx.ops lib).filterMap LedgerOp.creates = tx.createdOutputs lib := by
    have spends : (tx.spends lib).filterMap LedgerOp.creates = [] := by
      refine List.filterMap_eq_nil_iff.mpr (fun op mem => ?_)
      obtain ⟨input,_,rfl⟩ := List.mem_map.mp mem
      rfl
    rw [Transaction.ops,List.filterMap_append,spends,List.nil_append,puts]
  rw [blockOps,blockCreates,List.filterMap_append,puts,List.filterMap_flatMap]
  simp only [each]

theorem spendRegular {inpoint : InPoint} (mem : LedgerOp.spend o inpoint ∈ blockOps lib header body) :
    ∃ txid vin, inpoint = .regular txid vin := by
  rcases List.mem_append.mp mem with coinbase | made
  · obtain ⟨_,_,same⟩ := List.mem_map.mp coinbase
    cases same
  · obtain ⟨tx,_,inside⟩ := List.mem_flatMap.mp made
    rcases List.mem_append.mp inside with spends | puts
    · obtain ⟨input,_,same⟩ := List.mem_map.mp spends
      cases same
      exact ⟨_,_,rfl⟩
    · obtain ⟨_,_,same⟩ := List.mem_map.mp puts
      cases same

theorem blockShare {p : PointedOutput} (mem : p ∈ blockCreates lib header body) (worth : Nat) : p.outpoint.share worth = 0 := by
  rcases List.mem_append.mp mem with coinbase | made
  · obtain ⟨_,isAt⟩ := coinbaseOutpoint coinbase
    rw [isAt]
    rfl
  · obtain ⟨tx,_,created⟩ := List.mem_flatMap.mp made
    obtain ⟨_,isAt⟩ := transactionOutpoint created
    rw [isAt]
    rfl

structure WorthWalk (made : List PointedOutput) (start : Ledger) (before : List LedgerOp) (l : Ledger) : Prop where
  accounted : Accounted (made ++ before.filterMap LedgerOp.creates) l
  unspent : l.unspentWorth + (before.map (LedgerOp.taken start)).sum = start.unspentWorth + (before.map LedgerOp.given).sum
  withdrawn : l.withdrawnWorth = start.withdrawnWorth
  deposited : l.depositedWorth = start.depositedWorth

theorem WorthWalk.put {start : Ledger} {before : List LedgerOp} {p : PointedOutput} (walk : WorthWalk made start before l)
    (alike : OutputsAlike (made ++ before.filterMap LedgerOp.creates ++ [p]))
    (once : ∀ q ∈ made ++ before.filterMap LedgerOp.creates, q.outpoint = p.outpoint → q.output.worth = 0)
    (share : ∀ worth, p.outpoint.share worth = 0) : WorthWalk made start (before ++ [.put p]) (l.putOutput p) := by
  have elsewhere : ∀ o', o' ≠ p.outpoint → (l.putOutput p).cell o' = l.cell o' := by
    intro o' other
    simp only [Ledger.cell,Ledger.putOutput,Table.tryGetPutOther other]
  have zero := walk.accounted.fresh once
  unfold Cell.worth at zero
  have now : (l.putOutput p).cell p.outpoint = ⟨some p.output,(l.cell p.outpoint).spent⟩ := by
    simp only [Ledger.cell,Ledger.putOutput,Table.tryGetPutSelf]
  have unspentNow : ((l.putOutput p).cell p.outpoint).unspentWorth = p.output.worth := by rw [now]; rfl
  have spentNow : ((l.putOutput p).cell p.outpoint).spentWorth = (l.cell p.outpoint).spentWorth := by rw [now]; rfl
  have withdrawnNow : ((l.putOutput p).cell p.outpoint).withdrawnWorth = (l.cell p.outpoint).withdrawnWorth := by
    rw [now]; rfl
  have change := measured elsewhere
  have unspent := change.unspent
  have withdrawn := change.withdrawn
  have deposited := change.deposited
  rw [share,share] at deposited
  have creates : made ++ (before ++ [LedgerOp.put p]).filterMap LedgerOp.creates =
      made ++ before.filterMap LedgerOp.creates ++ [p] := by
    rw [List.filterMap_append,List.append_assoc]
    rfl
  refine ⟨?_,?_,?_,?_⟩
  · rw [creates]
    have more : made ++ before.filterMap LedgerOp.creates ⊆ made ++ before.filterMap LedgerOp.creates ++ [p] :=
      List.subset_append_left _ _
    refine walk.accounted.change ((walk.accounted.from_.mono more).put (List.mem_append_right _ List.mem_cons_self)) elsewhere
      (fun q mem => congrArg _ (List.mem_singleton.mp mem)) (fun q mem same => ?_)
    have value := alike.worth mem (List.mem_append_right _ List.mem_cons_self) same
    unfold Cell.worth
    omega
  · have sums := walk.unspent
    rw [List.map_append,List.map_append,List.sum_append,List.sum_append]
    simp only [List.map_cons,List.map_nil,List.sum_singleton,LedgerOp.taken,LedgerOp.given]
    omega
  · have same := walk.withdrawn
    omega
  · have same := walk.deposited
    omega

theorem WorthWalk.spend {start : Ledger} {before : List LedgerOp} {x : Output} {txid : Txid} {vin : UInt32}
    (walk : WorthWalk made start before l) (unspent : l.utxos.tryGet o = some x)
    (same : (start.cell o).unspentWorth = x.worth) :
    WorthWalk made start (before ++ [.spend o (.regular txid vin)])
      ⟨l.utxos.delete o,l.stxos.put o ⟨x,.regular txid vin⟩⟩ := by
  have elsewhere : ∀ o', o' ≠ o →
      (Ledger.mk (l.utxos.delete o) (l.stxos.put o ⟨x,.regular txid vin⟩)).cell o' = l.cell o' := by
    intro o' other
    simp only [Ledger.cell,Table.tryGetPutOther other,Table.tryGetDeleteOther other]
  obtain ⟨worth,noSpent,noWithdrawn⟩ := walk.accounted.found unspent
  have now : (Ledger.mk (l.utxos.delete o) (l.stxos.put o ⟨x,.regular txid vin⟩)).cell o =
      ⟨none,some ⟨x,.regular txid vin⟩⟩ := by
    simp only [Ledger.cell,Table.tryGetPutSelf,Table.tryGetDeleteSelf]
  have change := measured elsewhere
  have unspentSum := change.unspent
  have withdrawnSum := change.withdrawn
  have depositedSum := change.deposited
  have worthNow : (Cell.mk none (some ⟨x,.regular txid vin⟩)).worth = x.worth := Nat.zero_add _
  have worthWas : (l.cell o).worth = x.worth := by
    unfold Cell.worth
    omega
  rw [now,worthNow,worthWas] at depositedSum
  have creates : made ++ (before ++ [LedgerOp.spend o (.regular txid vin)]).filterMap LedgerOp.creates =
      made ++ before.filterMap LedgerOp.creates ++ [] := by
    rw [List.filterMap_append,List.append_assoc]
    rfl
  refine ⟨?_,?_,?_,?_⟩
  · rw [creates]
    refine walk.accounted.change ?_ elsewhere (fun q mem => by cases mem) (fun q mem here => ?_)
    · rw [List.append_nil]
      exact walk.accounted.from_.spend (walk.accounted.from_.utxos o x unspent)
    · rw [List.append_nil] at mem
      rw [now,worthNow,← walk.accounted.worth q mem,here,worthWas]
  · have sums := walk.unspent
    rw [List.map_append,List.map_append,List.sum_append,List.sum_append]
    simp only [List.map_cons,List.map_nil,List.sum_singleton,LedgerOp.taken,LedgerOp.given]
    rw [now,show (Cell.mk none (some ⟨x,.regular txid vin⟩)).unspentWorth = 0 from rfl] at unspentSum
    omega
  · have sums := walk.withdrawn
    rw [now,show (Cell.mk none (some ⟨x,.regular txid vin⟩)).withdrawnWorth = 0 from rfl] at withdrawnSum
    omega
  · have sums := walk.deposited
    omega

theorem worthWalk {l' : Ledger} (accounted : Accounted made l) (alike : OutputsAlike (made ++ blockCreates lib header body))
    (once : WorthOnce (made ++ blockCreates lib header body))
    (present : ∀ o ∈ body.inputKeys, (l.utxos.tryGet o).isSome = true)
    (ok : (blockOps lib header body).foldlM LedgerOp.apply l = .ok l') :
    WorthWalk made l (blockOps lib header body) l' := by
  refine foldHistory (P := fun before k => WorthWalk made l before k) ?_ ?_ ok
  · refine ⟨?_,rfl,rfl,rfl⟩
    rw [List.filterMap_nil,List.append_nil]
    exact accounted
  intro before op after k k' split reached applied walk
  have inBlock : op ∈ blockOps lib header body := split ▸ List.mem_append_right before List.mem_cons_self
  cases op with
  | put p =>
      cases applied
      have creates : made ++ blockCreates lib header body =
          made ++ before.filterMap LedgerOp.creates ++ p :: after.filterMap LedgerOp.creates := by
        rw [← createsBlock,split,List.filterMap_append,List.append_assoc]
        rfl
      rw [creates] at alike once
      refine walk.put (fun a memA b memB => ?_) (fun q mem => ?_) (fun worth => blockShare (memBlockPuts.mp inBlock) worth)
      · have inside : made ++ before.filterMap LedgerOp.creates ++ [p] ⊆
            made ++ before.filterMap LedgerOp.creates ++ p :: after.filterMap LedgerOp.creates := by
          refine List.append_subset.mpr ⟨List.subset_append_left _ _,fun q mem => ?_⟩
          exact List.mem_append_right _ (List.mem_singleton.mp mem ▸ List.mem_cons_self)
        exact alike a (inside memA) b (inside memB)
      · exact (List.pairwise_append.mp once).2.2 q mem p List.mem_cons_self
  | spend o inpoint =>
      obtain ⟨txid,vin,rfl⟩ := spendRegular inBlock
      simp only [LedgerOp.apply,bindOk,okOrOk,pureOk] at applied
      obtain ⟨x,unspent,rfl⟩ := applied
      have isInput : o ∈ body.inputKeys := by
        rw [← @spendKeysBlock _ lib header]
        exact List.mem_map.mpr ⟨_,List.mem_filter.mpr ⟨inBlock,rfl⟩,rfl⟩
      obtain ⟨y,was⟩ := Option.isSome_iff_exists.mp (present o isInput)
      refine walk.spend unspent ((accounted.found was).1.trans ?_)
      have now : ⟨o,x⟩ ∈ made ++ blockCreates lib header body := by
        have madeNow := walk.accounted.from_.utxos o x unspent
        rw [← createsBlock,split,List.filterMap_append,← List.append_assoc]
        exact List.mem_append_left _ madeNow
      exact alike.worth (List.mem_append_left _ (accounted.from_.utxos o y was)) now rfl

theorem givenSum {ops : List LedgerOp} :
    (ops.map LedgerOp.given).sum = worthOf ((ops.filterMap LedgerOp.creates).map (·.output)) := by
  induction ops with
  | nil => rfl
  | cons op ops ih =>
      rw [List.map_cons,List.sum_cons,ih]
      cases op with
      | put p => rfl
      | spend o inpoint => exact Nat.zero_add _

theorem takenSum {ops : List LedgerOp} :
    (ops.map (LedgerOp.taken l)).sum = ((spendKeys ops).map (fun o => (l.cell o).unspentWorth)).sum := by
  induction ops with
  | nil => rfl
  | cons op ops ih =>
      rw [List.map_cons,List.sum_cons,ih]
      cases op with
      | put p => exact Nat.zero_add _
      | spend o inpoint => rfl

theorem worthAppend {xs ys : List Output} : worthOf (xs ++ ys) = worthOf xs + worthOf ys := by
  unfold worthOf
  rw [List.map_append,List.sum_append]

theorem spendsWorth {txs : List Transaction} {filled : List FilledTransaction}
    (each : List.Forall₂ (TransactionSource lib s) txs filled) :
    ((txs.flatMap (fun tx => tx.inputs.map (·.1))).map (fun o => (s.toLedger.cell o).unspentWorth)).sum =
      (filled.map FilledTransaction.spends).sum := by
  induction each with
  | nil => rfl
  | @cons tx f txs filled source _ ih =>
      rw [List.flatMap_cons,List.map_append,List.sum_append,ih,List.map_cons,List.sum_cons]
      refine congrArg (· + _) ?_
      have spent := source.fill.spent
      unfold FilledTransaction.spends
      generalize f.spentUtxos = utxos at spent
      generalize tx.inputs = inputs at spent
      induction spent with
      | nil => rfl
      | @cons input utxo inputs utxos found _ ihInputs =>
          rw [List.map_cons,List.map_cons,List.sum_cons,ihInputs]
          have here : (s.toLedger.cell input.1).unspentWorth = utxo.worth := by
            simp [Cell.unspentWorth,Ledger.cell,found]
          rw [here]
          rfl

theorem paysWorth {txs : List Transaction} {filled : List FilledTransaction}
    (each : List.Forall₂ (TransactionSource lib s) txs filled) :
    worthOf ((txs.flatMap (Transaction.createdOutputs lib)).map (·.output)) = (filled.map FilledTransaction.pays).sum := by
  induction each with
  | nil => rfl
  | @cons tx f txs filled source _ ih =>
      rw [List.flatMap_cons,List.map_append,worthAppend,ih,List.map_cons,List.sum_cons]
      refine congrArg (· + _) ?_
      have outputs : (tx.createdOutputs lib).map (·.output) = tx.outputs := by
        rw [Transaction.createdOutputs,List.map_map]
        exact List.zipIdx_map_fst 0 tx.outputs
      rw [outputs,FilledTransaction.pays,source.fill.transaction]

theorem blockBalance (walk : WorthWalk made s.toLedger (blockOps lib header body) l)
    (source : PrevalidateSource lib ctxt s header body pre) (worth : BlockWorth body pre) :
    l.unspentWorth + pre.totalFees.val = s.toLedger.unspentWorth + pre.coinbaseValue.val := by
  have sums := walk.unspent
  have coinbase : (coinbaseOutputs header.merkleRoot body.coinbase).map (·.output) = body.coinbase := by
    rw [coinbaseOutputs,List.map_map]
    exact List.zipIdx_map_fst 0 body.coinbase
  rw [takenSum,spendKeysBlock,Body.inputKeys,spendsWorth source.transactions,givenSum,createsBlock,blockCreates,
    List.map_append,worthAppend,coinbase,paysWorth source.transactions] at sums
  have fees := worth.fees
  have minted := worth.coinbase
  omega

end Blocks

section Operations

variable {made more : List PointedOutput} {l : Ledger} {o : OutPoint}

namespace PegOp

def adds : PegOp → Nat
  | deposit u | unspend u => u.2.worth
  | spend .. => 0

def removes : PegOp → Nat
  | spend _ u => u.2.worth
  | _ => 0

def deposits : PegOp → Nat
  | deposit u => u.2.worth
  | _ => 0

def Carries (l : Ledger) : PegOp → Prop
  | deposit u => (l.cell u.1).worth = 0 ∧ ∀ worth, u.1.share worth = worth
  | spend _ u => (l.cell u.1).unspentWorth = u.2.worth ∧ (l.cell u.1).spentWorth = 0
  | unspend u => (l.cell u.1).unspentWorth = 0 ∧ (l.cell u.1).spentWorth = u.2.worth ∧
      (l.cell u.1).withdrawnWorth = u.2.worth

theorem Carries.worthAfter {op : PegOp} (carries : op.Carries l) : (op.cellAfter l).worth = op.utxo.2.worth := by
  cases op with
  | deposit u =>
      have zero := carries.1
      have sum : (cellAfter l (deposit u)).worth = u.2.worth + (l.cell u.1).spentWorth := rfl
      unfold Cell.worth at zero
      rw [sum,show (l.cell u.1).spentWorth = 0 by omega]
      rfl
  | spend m6id u => exact Nat.zero_add _
  | unspend u => exact Nat.add_zero _

end PegOp

structure Balance (l l' : Ledger) (ops : List PegOp) : Prop where
  unspent : l'.unspentWorth + (ops.map PegOp.removes).sum = l.unspentWorth + (ops.map PegOp.adds).sum
  kept : l'.unspentWorth + l'.withdrawnWorth = l.unspentWorth + l.withdrawnWorth + (ops.map PegOp.deposits).sum
  deposited : l'.depositedWorth = l.depositedWorth + (ops.map PegOp.deposits).sum

theorem opBalance {op : PegOp} (carries : op.Carries l) : Balance l (op.apply l) [op] := by
  have change : Measured l (op.apply l) op.utxo.1 := measured (fun o other => PegOp.applyElsewhere other)
  have unspent := change.unspent
  have withdrawn := change.withdrawn
  have deposited := change.deposited
  have worth := carries.worthAfter
  have less := @Cell.withdrawnLe (l.cell op.utxo.1)
  rw [PegOp.applyCell] at unspent withdrawn deposited
  rw [worth] at deposited
  cases op with
  | deposit u =>
      obtain ⟨zero,share⟩ := carries
      simp only [PegOp.utxo] at unspent withdrawn deposited less
      rw [share,share,zero] at deposited
      unfold Cell.worth at zero
      have unspentAfter : (PegOp.cellAfter l (.deposit u)).unspentWorth = u.2.worth := rfl
      have withdrawnAfter : (PegOp.cellAfter l (.deposit u)).withdrawnWorth = (l.cell u.1).withdrawnWorth := rfl
      refine ⟨?_,?_,?_⟩ <;> simp only [List.map_cons,List.map_nil,List.sum_singleton,PegOp.removes,PegOp.adds,PegOp.deposits] <;>
        omega
  | spend m6id u =>
      obtain ⟨here,noSpent⟩ := carries
      simp only [PegOp.utxo] at unspent withdrawn deposited less
      have before : (l.cell u.1).worth = u.2.worth := by unfold Cell.worth; omega
      rw [before] at deposited
      have unspentAfter : (PegOp.cellAfter l (.spend m6id u)).unspentWorth = 0 := rfl
      have withdrawnAfter : (PegOp.cellAfter l (.spend m6id u)).withdrawnWorth = u.2.worth := rfl
      refine ⟨?_,?_,?_⟩ <;> simp only [List.map_cons,List.map_nil,List.sum_singleton,PegOp.removes,PegOp.adds,PegOp.deposits] <;>
        omega
  | unspend u =>
      obtain ⟨noUnspent,spent,returned⟩ := carries
      simp only [PegOp.utxo] at unspent withdrawn deposited less
      have before : (l.cell u.1).worth = u.2.worth := by unfold Cell.worth; omega
      rw [before] at deposited
      have unspentAfter : (PegOp.cellAfter l (.unspend u)).unspentWorth = u.2.worth := rfl
      have withdrawnAfter : (PegOp.cellAfter l (.unspend u)).withdrawnWorth = 0 := rfl
      refine ⟨?_,?_,?_⟩ <;> simp only [List.map_cons,List.map_nil,List.sum_singleton,PegOp.removes,PegOp.adds,PegOp.deposits] <;>
        omega

theorem carriesElsewhere {op other : PegOp} (apart : op.utxo.1 ≠ other.utxo.1) (carries : op.Carries l) :
    op.Carries (other.apply l) := by
  have same : (other.apply l).cell op.utxo.1 = l.cell op.utxo.1 := PegOp.applyElsewhere apart
  cases op <;> simp only [PegOp.utxo] at same <;> simpa only [PegOp.Carries,same] using carries

theorem carriesRest {op : PegOp} {ops : List PegOp} (apart : op.utxo.1 ∉ ops.map (·.utxo.1))
    (carries : ∀ x ∈ ops, x.Carries l) : ∀ x ∈ ops, x.Carries (op.apply l) := by
  intro x inside
  refine carriesElsewhere (fun same => apart ?_) (carries x inside)
  exact same ▸ List.mem_map_of_mem inside

theorem opsBalance {ops : List PegOp} (distinct : (ops.map (·.utxo.1)).Nodup) (carries : ∀ op ∈ ops, op.Carries l) :
    Balance l (ops.foldl PegOp.apply l) ops := by
  induction ops generalizing l with
  | nil => exact ⟨rfl,rfl,rfl⟩
  | cons op ops ih =>
      rw [List.map_cons,List.nodup_cons] at distinct
      have first := opBalance (carries op List.mem_cons_self)
      have rest := ih distinct.2 (carriesRest distinct.1 (fun x inside => carries x (List.mem_cons_of_mem _ inside)))
      obtain ⟨unspent,kept,deposited⟩ := first
      obtain ⟨unspent',kept',deposited'⟩ := rest
      simp only [List.map_cons,List.map_nil,List.sum_singleton] at unspent kept deposited
      refine ⟨?_,?_,?_⟩ <;> rw [List.foldl_cons] <;> simp only [List.map_cons,List.sum_cons] <;> omega

theorem opAccounted {op : PegOp} (accounted : Accounted made l) (alike : OutputsAlike (made ++ more))
    (mem : ⟨op.utxo.1,op.utxo.2⟩ ∈ made ++ more) (news : ∀ p ∈ more, p.outpoint = op.utxo.1) (carries : op.Carries l) :
    Accounted (made ++ more) (op.apply l) := by
  refine accounted.change (opLedgerFrom (accounted.from_.mono (List.subset_append_left _ _)) mem)
    (fun o other => PegOp.applyElsewhere other) news (fun p inside same => ?_)
  rw [PegOp.applyCell,carries.worthAfter]
  exact alike.worth mem inside same.symm

theorem opsAccounted {ops : List PegOp} (accounted : Accounted made l) (alike : OutputsAlike made)
    (mem : ∀ op ∈ ops, ⟨op.utxo.1,op.utxo.2⟩ ∈ made) (distinct : (ops.map (·.utxo.1)).Nodup)
    (carries : ∀ op ∈ ops, op.Carries l) : Accounted made (ops.foldl PegOp.apply l) := by
  induction ops generalizing l with
  | nil => exact accounted
  | cons op ops ih =>
      rw [List.map_cons,List.nodup_cons] at distinct
      have first : Accounted (made ++ []) (op.apply l) := by
        refine opAccounted accounted ?_ ?_ (fun p inside => by cases inside) (carries op List.mem_cons_self)
        · rw [List.append_nil]
          exact alike
        · rw [List.append_nil]
          exact mem op List.mem_cons_self
      rw [List.append_nil] at first
      exact ih first (fun x inside => mem x (List.mem_cons_of_mem _ inside)) distinct.2
        (carriesRest distinct.1 (fun x inside => carries x (List.mem_cons_of_mem _ inside)))

end Operations

section Events

variable {made : List PointedOutput} {l : Ledger} {w w' : PegTables} {height deposited : Nat} {event : BlockEvent}
  {ops : List PegOp} {utxos : Table OutPoint Output}

structure PegTables.Outstanding (w : PegTables) (m6id : M6id) (bundle : WithdrawalBundle)
    (history : RollBack WithdrawalBundleStatus) : Prop where
  recorded : w.withdrawalBundles.tryGet m6id = some (.known bundle,history)
  live : history.latest.value = .submitted

theorem eventOutstanding {m6id : M6id} {bundle : WithdrawalBundle} {history : RollBack WithdrawalBundleStatus}
    (happened : EventCase lib height utxos w event ops w') (now : w'.Outstanding m6id bundle history) :
    w.Outstanding m6id bundle history ∨ event = .withdrawalBundle ⟨m6id,.submitted⟩ ∧
      (∃ collectedAt, w.pendingWithdrawalBundle = some (bundle,collectedAt)) ∧
      ops = bundle.spendUtxos.map (.spend m6id) := by
  obtain ⟨found,live⟩ := now
  cases happened with
  | submitted pending own next =>
      rcases knownAfterPut found with ⟨rfl,same,_⟩ | ⟨_,before⟩
      · cases same
        exact .inr ⟨rfl,⟨_,pending⟩,rfl⟩
      · exact .inl ⟨before,live⟩
  | submittedUnknown other missing =>
      rcases knownAfterPut found with ⟨_,same,_⟩ | ⟨_,before⟩
      · cases same
      · exact .inl ⟨before,live⟩
  | confirmed recorded _ push =>
      rcases knownAfterPut found with ⟨_,_,rfl⟩ | ⟨_,before⟩
      · rw [RollBack.pushLatest push] at live
        cases live
      · exact .inl ⟨before,live⟩
  | confirmedUnknown recorded unknown genesis _ push =>
      rcases knownAfterPut found with ⟨_,same,_⟩ | ⟨_,before⟩
      · cases same
      · exact .inl ⟨before,live⟩
  | failed recorded _ push failures =>
      rcases knownAfterPut found with ⟨_,_,rfl⟩ | ⟨_,before⟩
      · rw [RollBack.pushLatest push] at live
        cases live
      · exact .inl ⟨before,live⟩
  | failedUnknown recorded unknown _ push =>
      rcases knownAfterPut found with ⟨_,same,_⟩ | ⟨_,before⟩
      · exact absurd same (unknown bundle)
      · exact .inl ⟨before,live⟩
  | _ => exact .inl ⟨found,live⟩

/- What is unspent and what was withdrawn are backed by deposits; the worth of the pending bundle is unspent,
and that of an outstanding one was taken by its own submission. -/
structure Valued (made : List PointedOutput) (height deposited : Nat) (w : PegTables) (l : Ledger) : Prop where
  accounted : Accounted made l
  bundles : BundlesFrom made w
  backed : l.unspentWorth + l.withdrawnWorth ≤ deposited
  deposits : l.depositedWorth = deposited
  pending : ∀ bundle collectedAt, w.pendingWithdrawalBundle = some (bundle,collectedAt) →
    ∀ u ∈ bundle.spendUtxos, (l.cell u.1).unspentWorth = u.2.worth
  outstanding : ∀ m6id bundle history, w.Outstanding m6id bundle history → ∀ u ∈ bundle.spendUtxos, 0 < u.2.worth →
    ∃ y, l.stxos.tryGet u.1 = some ⟨y,.withdrawal m6id⟩
  genesis : height = 0 → w.pendingWithdrawalBundle = none

theorem Valued.outstandingCell (valued : Valued made height deposited w l) (alike : OutputsAlike made) {m6id : M6id}
    {bundle : WithdrawalBundle} {history : RollBack WithdrawalBundleStatus} (out : w.Outstanding m6id bundle history)
    {u : OutPoint × Output} (inside : u ∈ bundle.spendUtxos) : (l.cell u.1).unspentWorth = 0 ∧
      (l.cell u.1).spentWorth = u.2.worth ∧ (l.cell u.1).withdrawnWorth = u.2.worth := by
  have created := (valued.bundles.known m6id bundle history out.recorded).created u inside
  have worth := valued.accounted.worth _ created
  have less := @Cell.withdrawnLe (l.cell u.1)
  unfold Cell.worth at worth
  dsimp only at worth
  cases positive : u.2.worth with
  | zero =>
      rw [positive] at worth
      exact ⟨by omega,by omega,by omega⟩
  | succ n =>
      obtain ⟨y,found⟩ := valued.outstanding m6id bundle history out u inside (by omega)
      have value := alike.worth (valued.accounted.from_.stxos u.1 _ found) created rfl
      dsimp only at value
      have spent : (l.cell u.1).spentWorth = y.worth := by simp [Cell.spentWorth,Ledger.cell,found]
      have withdrawn : (l.cell u.1).withdrawnWorth = y.worth := by
        simp [Cell.withdrawnWorth,Ledger.cell,found,SpentOutput.withdrawn]
      exact ⟨by omega,by omega,by omega⟩

theorem eventCarries (valued : Valued made height deposited w l) (alike : OutputsAlike made)
    (fresh : ∀ p, event.created = some p → ∀ q ∈ made, q.outpoint ≠ p.outpoint)
    (happened : EventCase lib height l.utxos w event ops w') :
    (ops.map (·.utxo.1)).Nodup ∧ ∀ op ∈ ops, op.Carries l := by
  cases happened with
  | deposited d =>
      refine ⟨List.nodup_singleton _,fun op mem => ?_⟩
      cases List.mem_singleton.mp mem
      refine ⟨valued.accounted.fresh (fun q mem same => ?_),fun _ => rfl⟩
      exact absurd same (fresh _ rfl q mem)
  | submitted isPending own next =>
      have source := valued.bundles.pending _ _ isPending
      refine ⟨by rw [opsKeys (fun _ => rfl)]; exact source.distinct,fun op mem => ?_⟩
      obtain ⟨u,inside,rfl⟩ := List.mem_map.mp mem
      have unspent := valued.pending _ _ isPending u inside
      have worth := valued.accounted.worth _ (source.created u inside)
      unfold Cell.worth at worth
      dsimp only at worth
      exact ⟨unspent,by omega⟩
  | confirmedUnknown recorded unknown genesis live push =>
      have sorted : List.Perm (sortByOutPoint l.utxos.entries) l.utxos.entries := List.perm_insertionSort _ _
      refine ⟨?_,fun op mem => ?_⟩
      · rw [opsKeys (fun _ => rfl),(sorted.map _).nodup_iff]
        exact Table.entriesDistinct
      · obtain ⟨u,inside,rfl⟩ := List.mem_map.mp mem
        have found := valued.accounted.found (Table.memEntries.mp (memSortByOutPoint.mp inside))
        exact ⟨found.1,found.2.1⟩
  | failed recorded live push failures =>
      refine ⟨by rw [opsKeys (fun _ => rfl)]; exact (valued.bundles.known _ _ _ recorded).distinct,fun op mem => ?_⟩
      obtain ⟨u,inside,rfl⟩ := List.mem_map.mp mem
      exact valued.outstandingCell alike ⟨recorded,live⟩ inside
  | _ => exact ⟨List.nodup_nil,fun op mem => by cases mem⟩

theorem eventDeposits (happened : EventCase lib height utxos w event ops w') :
    (ops.map PegOp.deposits).sum = worthOf (event.created.toList.map (·.output)) := by
  have none (us : List (OutPoint × Output)) (f : OutPoint × Output → PegOp) (zero : ∀ u, (f u).deposits = 0) :
      ((us.map f).map PegOp.deposits).sum = 0 := by
    refine List.sum_eq_zero (fun n mem => ?_)
    obtain ⟨op,isOp,rfl⟩ := List.mem_map.mp mem
    obtain ⟨u,_,rfl⟩ := List.mem_map.mp isOp
    exact zero u
  cases happened with
  | deposited d => rfl
  | submitted => exact none _ _ (fun _ => rfl)
  | confirmedUnknown => exact none _ _ (fun _ => rfl)
  | failed => exact none _ _ (fun _ => rfl)
  | _ => rfl

theorem unspentStays {o : OutPoint} (carries : ∀ op ∈ ops, op.Carries l) (keeps : ∀ op ∈ ops, op.isSpend = false)
    (unspent : 0 < (l.cell o).unspentWorth) : (ops.foldl PegOp.apply l).cell o = l.cell o := by
  refine opsElsewhere (fun op mem here => ?_)
  have moves := carries op mem
  cases op with
  | deposit u =>
      have zero : (l.cell u.1).worth = 0 := moves.1
      unfold Cell.worth at zero
      rw [show u.1 = o from here] at zero
      omega
  | spend m6id u => cases keeps _ mem
  | unspend u =>
      have zero : (l.cell u.1).unspentWorth = 0 := moves.1
      rw [show u.1 = o from here] at zero
      omega

theorem Valued.pendingAfter (valued : Valued made height deposited w l) (carries : ∀ op ∈ ops, op.Carries l) (happened : EventCase lib height l.utxos w event ops w')
    (accounted : Accounted (made ++ event.created.toList) (ops.foldl PegOp.apply l)) {bundle : WithdrawalBundle}
    {collectedAt : Nat} (found : w'.pendingWithdrawalBundle = some (bundle,collectedAt)) {u : OutPoint × Output}
    (inside : u ∈ bundle.spendUtxos) : ((ops.foldl PegOp.apply l).cell u.1).unspentWorth = u.2.worth := by
  have before := eventPending happened found
  have unspent := valued.pending bundle collectedAt before u inside
  have created := (valued.bundles.pending bundle collectedAt before).created u inside
  have worth := accounted.worth _ (List.mem_append_left _ created)
  unfold Cell.worth at worth
  dsimp only at worth
  rcases Nat.eq_zero_or_pos u.2.worth with zero | positive
  · omega
  · have keeps : ∀ op ∈ ops, op.isSpend = false := by
      intro op mem
      cases happened with
      | deposited d =>
          cases List.mem_singleton.mp mem
          rfl
      | submitted => cases found
      | confirmedUnknown recorded unknown genesis live push =>
          rw [valued.genesis genesis] at before
          cases before
      | failed =>
          obtain ⟨_,_,rfl⟩ := List.mem_map.mp mem
          rfl
      | _ => cases mem
    rw [unspentStays carries keeps (by omega)]
    exact unspent

theorem Valued.outstandingAfter (valued : Valued made height deposited w l) (alike : OutputsAlike made)
    (distinct : (ops.map (·.utxo.1)).Nodup)
    (carries : ∀ op ∈ ops, op.Carries l) (happened : EventCase lib height l.utxos w event ops w') {m6id : M6id} {bundle : WithdrawalBundle}
    {history : RollBack WithdrawalBundleStatus} (now : w'.Outstanding m6id bundle history) {u : OutPoint × Output}
    (inside : u ∈ bundle.spendUtxos) (positive : 0 < u.2.worth) :
    ∃ y, (ops.foldl PegOp.apply l).stxos.tryGet u.1 = some ⟨y,.withdrawal m6id⟩ := by
  rcases eventOutstanding happened now with before | ⟨_,_,rfl⟩
  · obtain ⟨y,found⟩ := valued.outstanding m6id bundle history before u inside positive
    obtain ⟨noUnspent,spent,_⟩ := valued.outstandingCell alike before inside
    have same : (ops.foldl PegOp.apply l).cell u.1 = l.cell u.1 := by
      refine opsElsewhere (fun op mem here => ?_)
      have moves := carries op mem
      cases op with
      | deposit u' =>
          have zero : (l.cell u'.1).worth = 0 := moves.1
          unfold Cell.worth at zero
          rw [show u'.1 = u.1 from here] at zero
          omega
      | spend m u' =>
          have zero : (l.cell u'.1).spentWorth = 0 := moves.2
          rw [show u'.1 = u.1 from here] at zero
          omega
      | unspend u' =>
          -- the other bundle would have to be this one, and that has failed now
          cases happened with
          | failed recorded live push failures =>
              obtain ⟨_,isOther,same⟩ := List.mem_map.mp mem
              cases same
              have value : (l.cell u'.1).spentWorth = u'.2.worth := moves.2.1
              rw [show u'.1 = u.1 from here] at value
              obtain ⟨y',found'⟩ := valued.outstanding _ _ _ ⟨recorded,live⟩ u' isOther (by omega)
              rw [show u'.1 = u.1 from here,found] at found'
              cases found'
              rcases knownAfterPut now.recorded with ⟨_,_,rfl⟩ | ⟨other,_⟩
              · have latest := now.live
                rw [RollBack.pushLatest push] at latest
                cases latest
              · exact other rfl
          | deposited d => cases List.mem_singleton.mp mem
          | submitted =>
              obtain ⟨_,_,same⟩ := List.mem_map.mp mem
              cases same
          | confirmedUnknown =>
              obtain ⟨_,_,same⟩ := List.mem_map.mp mem
              cases same
          | _ => cases mem
    have stays : (ops.foldl PegOp.apply l).stxos.tryGet u.1 = l.stxos.tryGet u.1 := congrArg Cell.spent same
    exact ⟨y,stays.trans found⟩
  · obtain ⟨before,after,split⟩ := List.append_of_mem inside
    refine ⟨u.2,?_⟩
    rw [split] at distinct ⊢
    simp only [List.map_append,List.map_cons,List.foldl_append,List.foldl_cons] at distinct ⊢
    have away : ∀ op ∈ after.map (PegOp.spend m6id), op.utxo.1 ≠ u.1 := by
      intro op mem same
      have later := (List.nodup_cons.mp (List.nodup_append.mp distinct).2.1).1
      exact later (same ▸ List.mem_map_of_mem mem)
    have last := congrArg Cell.spent (@opsElsewhere (PegOp.apply
      ((before.map (PegOp.spend m6id)).foldl PegOp.apply l) (.spend m6id u)) u.1 _ away)
    refine Eq.trans last ?_
    exact congrArg Cell.spent (@PegOp.applyCell _ (.spend m6id u))

theorem eventAccounted (valued : Valued made height deposited w l) (alike : OutputsAlike (made ++ event.created.toList))
    (distinct : (ops.map (·.utxo.1)).Nodup) (carries : ∀ op ∈ ops, op.Carries l)
    (happened : EventCase lib height l.utxos w event ops w') :
    Accounted (made ++ event.created.toList) (ops.foldl PegOp.apply l) := by
  have mem := eventOpsFrom valued.accounted.from_ valued.bundles happened
  have moved (none : event.created = none) : Accounted (made ++ event.created.toList) (ops.foldl PegOp.apply l) := by
    rw [none,Option.toList_none,List.append_nil] at alike mem ⊢
    exact opsAccounted valued.accounted alike mem distinct carries
  cases happened with
  | deposited d =>
      refine opAccounted valued.accounted alike (mem _ List.mem_cons_self) (fun p inside => ?_) (carries _ List.mem_cons_self)
      exact congrArg _ (List.mem_singleton.mp inside)
  | _ => exact moved rfl

theorem Valued.afterEvent (valued : Valued made height deposited w l) (alike : OutputsAlike (made ++ event.created.toList))
    (fresh : ∀ p, event.created = some p → ∀ q ∈ made, q.outpoint ≠ p.outpoint)
    (happened : EventCase lib height l.utxos w event ops w') :
    Valued (made ++ event.created.toList) height (deposited + worthOf (event.created.toList.map (·.output))) w'
      (ops.foldl PegOp.apply l) := by
  have madeBefore : made ⊆ made ++ event.created.toList := List.subset_append_left _ _
  have alikeBefore : OutputsAlike made := fun p memP q memQ => alike p (madeBefore memP) q (madeBefore memQ)
  obtain ⟨distinct,carries⟩ := eventCarries valued alikeBefore fresh happened
  have accounted := eventAccounted valued alike distinct carries happened
  have balance := opsBalance distinct carries
  have kept := balance.kept
  have deposits := balance.deposited
  rw [eventDeposits happened] at kept deposits
  refine ⟨accounted,(eventBundlesFrom (l := l) valued.bundles happened).mono madeBefore,?_,?_,?_,?_,?_⟩
  · have backed := valued.backed
    omega
  · have same := valued.deposits
    omega
  · intro bundle collectedAt found u inside
    exact valued.pendingAfter carries happened accounted found inside
  · intro m6id bundle history out u inside positive
    exact valued.outstandingAfter alikeBefore distinct carries happened out inside positive
  · intro isZero
    cases after : w'.pendingWithdrawalBundle with
    | none => rfl
    | some now =>
        have before := eventPending happened after
        rw [valued.genesis isZero] at before
        cases before

end Events

section Connection

variable {earlier : List (Step F)} {deposited : Nat}

theorem Mines.untouched {l : Ledger} (mines : Mines lib ctxt earlier s header body pre) {o : OutPoint} {x : Output}
    (connected : connectCoins lib header body s.toLedger = .ok l) (created : ⟨o,x⟩ ∈ createdBy lib earlier)
    (worthy : 0 < x.worth) (unspent : o ∉ body.inputKeys) : l.cell o = s.toLedger.cell o := by
  refine blockUntouched connected unspent (fun y now => ?_)
  have zero := mines.fresh created now rfl
  dsimp only at zero
  omega

theorem Valued.afterBlock {l : Ledger} {w : PegTables} {height height' : Nat}
    (valued : Valued (createdBy lib earlier) height deposited w s.toLedger) (mines : Mines lib ctxt earlier s header body pre)
    (once : WorthOnce (createdBy lib (earlier ++ [.connect header body])))
    (connected : connectCoins lib header body s.toLedger = .ok l) (start : height' = 0 → height = 0) :
    Valued (createdBy lib (earlier ++ [.connect header body])) height' deposited w l ∧
      l.unspentWorth + pre.totalFees.val = s.toLedger.unspentWorth + pre.coinbaseValue.val := by
  have alike := mines.alike
  have made : createdBy lib (earlier ++ [.connect header body]) = createdBy lib earlier ++ blockCreates lib header body :=
    createdByConcat
  have folded := connected
  rw [connectCoinsOps] at folded
  have walk := worthWalk valued.accounted (made ▸ alike) (made ▸ once)
    (fun o isInput => inputsPresent mines.source.transactions isInput) folded
  have balance := blockBalance walk mines.source mines.worth
  have accounted := walk.accounted
  rw [createsBlock,← made] at accounted
  have alikeBefore : OutputsAlike (createdBy lib earlier) :=
    fun p memP q memQ => alike p (createdBefore memP) q (createdBefore memQ)
  refine ⟨⟨accounted,valued.bundles.mono createdBefore,?_,?_,?_,?_,fun isZero => valued.genesis (start isZero)⟩,balance⟩
  · have backed := valued.backed
    have enough := mines.worth.enough
    have withdrawn := walk.withdrawn
    omega
  · exact walk.deposited.trans valued.deposits
  · intro bundle collectedAt found u inside
    have unspent := valued.pending bundle collectedAt found u inside
    have source := valued.bundles.pending bundle collectedAt found
    have worth := accounted.worth _ (createdBefore (source.created u inside))
    unfold Cell.worth at worth
    dsimp only at worth
    rcases Nat.eq_zero_or_pos u.2.worth with zero | positive
    · omega
    · rw [mines.untouched connected (source.created u inside) positive (fun isInput => ?_)]
      · exact unspent
      · obtain ⟨x,there⟩ := Option.isSome_iff_exists.mp (inputsPresent mines.source.transactions isInput)
        have notWithdrawn := inputsNotWithdrawn mines.source.transactions isInput there
        have bares := alikeBefore _ (valued.accounted.from_.utxos u.1 x there) _ (source.created u inside) rfl
        rw [← bareWithdrawal,show x.bare = u.2.bare from bares,bareWithdrawal,source.withdrawals u inside] at notWithdrawn
        cases notWithdrawn
  · intro m6id bundle history out u inside positive
    have created := (valued.bundles.known m6id bundle history out.recorded).created u inside
    obtain ⟨y,found⟩ := valued.outstanding m6id bundle history out u inside positive
    have same := mines.untouched connected created positive (fun isInput => ?_)
    · exact ⟨y,(congrArg Cell.spent same).trans found⟩
    · obtain ⟨x,there⟩ := Option.isSome_iff_exists.mp (inputsPresent mines.source.transactions isInput)
      have zero := (valued.outstandingCell alikeBefore out inside).1
      have here := (valued.accounted.found there).1
      have value := alikeBefore.worth (valued.accounted.from_.utxos u.1 x there) created rfl
      dsimp only at value
      omega

end Connection

section Statement

def Submission (lib : Externals F) (ctxt : BatchVerificationContext) (steps : List (Step F)) (m6id : M6id)
    (bundle : WithdrawalBundle) (history : RollBack WithdrawalBundleStatus) (removed : Nat) : Prop :=
  ∃ q height blockHash q', TakesEvent lib ctxt steps q height (blockHash,.withdrawalBundle ⟨m6id,.submitted⟩) ∧
    connectEvent lib height q (blockHash,.withdrawalBundle ⟨m6id,.submitted⟩) = .ok q' ∧
    q'.toPegTables.Outstanding m6id bundle history ∧ q'.unspentWorth + removed = q.unspentWorth

structure ValueConserved (lib : Externals F) (ctxt : BatchVerificationContext) (steps : List (Step F)) : Prop where
  blocks : ∀ s header body t later, Takes lib ctxt steps s (.connect header body) t later →
    ∃ pre, prevalidate lib s ctxt header body = .ok pre ∧
      t.unspentWorth + pre.totalFees.val = s.unspentWorth + pre.coinbaseValue.val ∧ t.unspentWorth ≤ s.unspentWorth
  pegs : ∀ s data rpc t later, Takes lib ctxt steps s (.connectPeg data rpc) t later → ∃ height p,
    s.height = some height ∧ data.events.foldlM (connectEvent lib height) (PegProgress.start s) = .ok p ∧ t.utxos = p.utxos
  deposits : ∀ p height blockHash d p', TakesEvent lib ctxt steps p height (blockHash,.deposit d) →
    connectEvent lib height p (blockHash,.deposit d) = .ok p' → p'.unspentWorth = p.unspentWorth + d.output.getValue.val
  failures : ∀ p height blockHash m6id bundle history p',
    TakesEvent lib ctxt steps p height (blockHash,.withdrawalBundle ⟨m6id,.failed⟩) →
    connectEvent lib height p (blockHash,.withdrawalBundle ⟨m6id,.failed⟩) = .ok p' →
    p.toPegTables.Outstanding m6id bundle history →
    ∃ removed, Submission lib ctxt steps m6id bundle history removed ∧ p'.unspentWorth = p.unspentWorth + removed
  others : ∀ p height event p', TakesEvent lib ctxt steps p height event → connectEvent lib height p event = .ok p' →
    (∀ d, event.2 ≠ .deposit d) → (∀ m6id bundle history, event.2 = .withdrawalBundle ⟨m6id,.failed⟩ →
      ¬ p.toPegTables.Outstanding m6id bundle history) → p'.unspentWorth ≤ p.unspentWorth
  locals : ∀ s op t later, Takes lib ctxt steps s (.localOp op) t later → t.utxos = s.utxos
  wealth : ∀ earlier later s, steps = earlier ++ later → run lib ctxt earlier (State.new F) = .ok s →
    ∃ wealth, s.sidechainWealth = .ok wealth ∧ s.unspentWorth ≤ wealth.val

end Statement

section Run

variable {earlier later : List (Step F)} {data : TwoWayPegData} {rpc : RpcReplies} {height : Nat} {p : PegProgress}

def eventsCreate (events : List (Hash × BlockEvent)) : List PointedOutput := events.filterMap (fun event => event.2.created)

def depositedWorth (steps : List (Step F)) : Nat := worthOf ((depositsOf steps).map (·.output))

structure Followed (lib : Externals F) (ctxt : BatchVerificationContext) (steps : List (Step F)) (made : List PointedOutput)
    (height deposited : Nat) (w : PegTables) (l : Ledger) : Prop where
  valued : Valued made height deposited w l
  submitted : ∀ m6id bundle history, w.Outstanding m6id bundle history →
    Submission lib ctxt steps m6id bundle history (worthOf (bundle.spendUtxos.map (·.2)))

theorem removesWorth {us : List (OutPoint × Output)} {m6id : M6id} :
    ((us.map (PegOp.spend m6id)).map PegOp.removes).sum = worthOf (us.map (·.2)) ∧
      ((us.map (PegOp.spend m6id)).map PegOp.adds).sum = 0 := by
  induction us with
  | nil => exact ⟨rfl,rfl⟩
  | cons u us ih =>
      refine ⟨?_,?_⟩
      · rw [List.map_cons,List.map_cons,List.sum_cons,ih.1]
        rfl
      · rw [List.map_cons,List.map_cons,List.sum_cons,ih.2]
        rfl

theorem addsWorth {us : List (OutPoint × Output)} : ((us.map PegOp.unspend).map PegOp.removes).sum = 0 ∧
    ((us.map PegOp.unspend).map PegOp.adds).sum = worthOf (us.map (·.2)) := by
  induction us with
  | nil => exact ⟨rfl,rfl⟩
  | cons u us ih =>
      refine ⟨?_,?_⟩
      · rw [List.map_cons,List.map_cons,List.sum_cons,ih.1]
        rfl
      · rw [List.map_cons,List.map_cons,List.sum_cons,ih.2]
        rfl

theorem Followed.afterEvent {made : List PointedOutput} {deposited : Nat} {event : Hash × BlockEvent} {p' : PegProgress}
    (followed : Followed lib ctxt steps made height deposited p.toPegTables p.toLedger)
    (alike : OutputsAlike (made ++ event.2.created.toList))
    (fresh : ∀ d, event.2.created = some d → ∀ q ∈ made, q.outpoint ≠ d.outpoint)
    (takes : TakesEvent lib ctxt steps p height event) (connected : connectEvent lib height p event = .ok p') :
    Followed lib ctxt steps (made ++ event.2.created.toList) height
      (deposited + worthOf (event.2.created.toList.map (·.output))) p'.toPegTables p'.toLedger := by
  obtain ⟨ops,effect⟩ := eventEffect connected
  refine ⟨effect.ledger ▸ followed.valued.afterEvent alike fresh effect.cases,fun m6id bundle history out => ?_⟩
  rcases eventOutstanding effect.cases out with before | ⟨isSubmission,_,isSpends⟩
  · exact followed.submitted m6id bundle history before
  · obtain ⟨blockHash,e⟩ := event
    cases isSubmission
    refine ⟨p,height,blockHash,p',takes,connected,out,?_⟩
    have alikeBefore : OutputsAlike made := fun a memA b memB =>
      alike a (List.mem_append_left _ memA) b (List.mem_append_left _ memB)
    obtain ⟨distinct,carries⟩ := eventCarries followed.valued alikeBefore fresh effect.cases
    have balance := (opsBalance distinct carries).unspent
    rw [← effect.ledger,isSpends,removesWorth.1,removesWorth.2] at balance
    exact balance

theorem eventPlace {before after : List (Hash × BlockEvent)} {event : Hash × BlockEvent}
    (ids : Identified lib (earlier ++ [.connectPeg data rpc]))
    (alike : OutputsAlike (createdBy lib (earlier ++ [.connectPeg data rpc]))) (split : data.events = before ++ event :: after) :
    OutputsAlike (createdBy lib earlier ++ eventsCreate before ++ event.2.created.toList) ∧
      ∀ d, event.2.created = some d → ∀ q ∈ createdBy lib earlier ++ eventsCreate before, q.outpoint ≠ d.outpoint := by
  have deposits : data.deposits = eventsCreate before ++ (event.2.created.toList ++ eventsCreate after) := by
    have whole : data.deposits = eventsCreate data.events := rfl
    rw [whole,split,eventsCreate,List.filterMap_append]
    refine congrArg (_ ++ ·) ?_
    cases created : event.2.created <;> simp [eventsCreate,created]
  refine ⟨?_,fun d isCreated q mem => ?_⟩
  · have inside : createdBy lib earlier ++ eventsCreate before ++ event.2.created.toList ⊆
        createdBy lib (earlier ++ [.connectPeg data rpc]) := by
      rw [createdByConcat,List.append_assoc]
      refine List.append_subset.mpr ⟨List.subset_append_left _ _,fun q mem => List.mem_append_right _ ?_⟩
      change q ∈ data.deposits
      rw [deposits,← List.append_assoc]
      exact List.mem_append_left _ mem
    exact fun a memA b memB => alike a (inside memA) b (inside memB)
  · have now : d ∈ event.2.created.toList ++ eventsCreate after := by
      rw [isCreated]
      exact List.mem_cons_self
    rcases List.mem_append.mp mem with past | earlierEvent
    · exact depositsFresh ids past (deposits ▸ List.mem_append_right _ now)
    · have distinct := depositsDistinct ids
      rw [deposits,List.map_append] at distinct
      exact (List.nodup_append.mp distinct).2.2 _ (List.mem_map_of_mem earlierEvent) _ (List.mem_map_of_mem now)

theorem followEvents {before after : List (Hash × BlockEvent)} (ids : Identified lib (earlier ++ [.connectPeg data rpc]))
    (alike : OutputsAlike (createdBy lib (earlier ++ [.connectPeg data rpc])))
    (followed : Followed lib ctxt steps (createdBy lib earlier) height (depositedWorth earlier) s.toPegTables s.toLedger)
    (takes : Takes lib ctxt steps s (.connectPeg data rpc) t later) (atHeight : s.height = some height)
    (split : data.events = before ++ after) (folded : before.foldlM (connectEvent lib height) (PegProgress.start s) = .ok p) :
    Followed lib ctxt steps (createdBy lib earlier ++ eventsCreate before) height
      (depositedWorth earlier + worthOf ((eventsCreate before).map (·.output))) p.toPegTables p.toLedger := by
  refine foldHistory (P := fun front p => Followed lib ctxt steps (createdBy lib earlier ++ eventsCreate front) height
    (depositedWorth earlier + worthOf ((eventsCreate front).map (·.output))) p.toPegTables p.toLedger) ?_ ?_ folded
  · simp only [eventsCreate,List.filterMap_nil,List.append_nil]
    exact followed
  · intro front event back p p' isSplit reached connected now
    have place : data.events = front ++ event :: (back ++ after) := by rw [split,isSplit,List.append_assoc,List.cons_append]
    have creates : eventsCreate (front ++ [event]) = eventsCreate front ++ event.2.created.toList := by
      rw [eventsCreate,List.filterMap_append]
      cases created : event.2.created <;> simp [eventsCreate,created]
    obtain ⟨alikeNow,fresh⟩ := eventPlace ids alike place
    have step := now.afterEvent alikeNow fresh
      ⟨s,data,rpc,t,later,front,back ++ after,takes,atHeight,place,reached⟩ connected
    rw [creates,← List.append_assoc,List.map_append,worthAppend,← Nat.add_assoc]
    exact step

theorem newFollowed : Followed lib ctxt steps [] 0 0 (State.new F).toPegTables (State.new F).toLedger := by
  have unspent : (State.new F).toLedger.unspentWorth = 0 := Table.weighEmpty
  have withdrawn : (State.new F).toLedger.withdrawnWorth = 0 := Table.weighEmpty
  have deposited : (State.new F).toLedger.depositedWorth = 0 := congrArg₂ (· + ·) Table.weighEmpty Table.weighEmpty
  refine ⟨⟨⟨newProvenance.ledger,fun p mem => by cases mem⟩,newProvenance.bundles,?_,deposited,?_,?_,fun _ => rfl⟩,?_⟩
  · rw [unspent,withdrawn]
  · intro bundle collectedAt found
    cases found
  · intro m6id bundle history out
    cases Table.tryGetEmpty.symm.trans out.recorded
  · intro m6id bundle history out
    cases Table.tryGetEmpty.symm.trans out.recorded

theorem depositedConcat {x : Step F} :
    depositedWorth (earlier ++ [x]) = depositedWorth earlier + worthOf (x.deposits.map (·.output)) := by
  rw [depositedWorth,depositsOf,List.flatMap_append,List.flatMap_singleton,List.map_append,worthAppend]
  rfl

theorem Followed.afterPeg (ids : Identified lib (earlier ++ [.connectPeg data rpc]))
    (alike : OutputsAlike (createdBy lib (earlier ++ [.connectPeg data rpc])))
    (followed : Followed lib ctxt steps (createdBy lib earlier) (s.height.getD 0) (depositedWorth earlier) s.toPegTables
      s.toLedger) (takes : Takes lib ctxt steps s (.connectPeg data rpc) t later) :
    Followed lib ctxt steps (createdBy lib (earlier ++ [.connectPeg data rpc])) (t.height.getD 0)
      (depositedWorth (earlier ++ [.connectPeg data rpc])) t.toPegTables t.toLedger := by
  have ok : connectTwoWayPegData lib s data rpc = .ok t := takes.applied
  obtain ⟨height,progress,source⟩ := pegConnectSource ok
  have atHeight : s.height.getD 0 = height := by rw [source.atHeight]; rfl
  have sameHeight : t.height.getD 0 = height := by rw [(connectPegSource ok).height,atHeight]
  rw [atHeight] at followed
  have done := followEvents ids alike followed takes source.atHeight (List.append_nil _).symm source.events
  rw [createdByConcat,depositedConcat,sameHeight,source.ledger]
  have valued := done.valued
  refine ⟨⟨valued.accounted,?_,valued.backed,valued.deposits,?_,?_,?_⟩,?_⟩
  · refine ⟨fun bundle collectedAt found => ?_,fun m6id bundle history found => ?_⟩
    · rcases collectPendingSource source.pending with same | ⟨_,_,collected⟩
      · exact valued.bundles.pending bundle collectedAt (same ▸ found)
      · obtain ⟨_,fresh⟩ := collected bundle collectedAt found
        exact ⟨fresh.distinct,fresh.withdrawals,fun u mem => valued.accounted.from_.utxos u.1 u.2 (fresh.unspent u mem)⟩
    · exact valued.bundles.known m6id bundle history (source.bundles ▸ found)
  · intro bundle collectedAt found u inside
    rcases collectPendingSource source.pending with same | ⟨_,_,collected⟩
    · exact valued.pending bundle collectedAt (same ▸ found) u inside
    · exact (valued.accounted.found ((collected bundle collectedAt found).2.unspent u inside)).1
  · intro m6id bundle history out
    exact valued.outstanding m6id bundle history ⟨source.bundles ▸ out.recorded,out.live⟩
  · intro isZero
    rcases collectPendingSource source.pending with same | ⟨_,gap,_⟩
    · exact same.trans (valued.genesis isZero)
    · rw [isZero] at gap
      cases gap
  · intro m6id bundle history out
    exact done.submitted m6id bundle history ⟨source.bundles ▸ out.recorded,out.live⟩

variable (forward : ∀ step ∈ steps, step.isForward = true) (ids : Identified lib steps)
include forward ids

theorem runMines (split : steps = earlier ++ .connect header body :: later) (reached : run lib ctxt earlier (State.new F) = .ok s)
    (applied : connectBlock lib ctxt s header body = .ok t) : ∃ pre, Mines lib ctxt earlier s header body pre ∧
      ConnectBlockSource lib ctxt s header body pre t ∧ WorthOnce (createdBy lib (earlier ++ [.connect header body])) := by
  have upTo : steps = (earlier ++ [.connect header body]) ++ later := by
    rw [split,List.append_assoc,List.singleton_append]
  have idsNow : Identified lib (earlier ++ [.connect header body]) := Identified.upTo (upTo ▸ ids)
  have reachedNow : run lib ctxt (earlier ++ [.connect header body]) (State.new F) = .ok t :=
    foldAppendOk.mpr ⟨s,reached,foldConsOk.mpr ⟨t,applied,rfl⟩⟩
  have forwardNow : ∀ step ∈ earlier ++ [.connect header body], step.isForward = true :=
    fun step mem => forward step (upTo ▸ List.mem_append_left _ mem)
  have forwardBefore : ∀ step ∈ earlier, step.isForward = true := fun step mem => forwardNow step (List.mem_append_left _ mem)
  obtain ⟨pre,source⟩ := connectBlockSource applied
  exact ⟨pre,⟨idsNow,runAlike idsNow reachedNow,runShort reachedNow,acceptedCoinbase source.accepted,
    runProvenance forwardBefore reached,(runOnce forwardBefore idsNow.upTo reached).2,source.validated,
    blockWorth source.accepted⟩,source,(runOnce forwardNow idsNow reachedNow).1⟩

theorem runFollowed (split : steps = earlier ++ later) (ok : run lib ctxt earlier (State.new F) = .ok s) :
    Followed lib ctxt steps (createdBy lib earlier) (s.height.getD 0) (depositedWorth earlier) s.toPegTables s.toLedger := by
  refine historyInvariant (P := fun front s => Followed lib ctxt steps (createdBy lib front) (s.height.getD 0)
    (depositedWorth front) s.toPegTables s.toLedger) newFollowed ?_ ok
  intro front s x t back isSplit reached applied followed
  have place : steps = front ++ x :: (back ++ later) := by rw [split,isSplit,List.append_assoc,List.cons_append]
  have isForward := forward x (place ▸ List.mem_append_right front List.mem_cons_self)
  cases x with
  | connect header body =>
      obtain ⟨pre,mines,source,once⟩ := runMines forward ids place reached applied
      have start : t.height.getD 0 = 0 → s.height.getD 0 = 0 := by
        intro isZero
        rw [source.connected.height,Option.getD_some] at isZero
        unfold State.nextHeight at isZero
        cases height : s.height with
        | none => rfl
        | some below => simp [height] at isZero
      have valued := (followed.valued.afterBlock mines once source.connected.coins start).1
      have same : depositedWorth (front ++ [.connect header body]) = depositedWorth front := depositedConcat
      rw [same,source.connected.pegs]
      exact ⟨valued,followed.submitted⟩
  | connectPeg data rpc =>
      have upTo : steps = (front ++ [.connectPeg data rpc]) ++ (back ++ later) := by
        rw [place,List.append_assoc,List.singleton_append]
      have idsNow : Identified lib (front ++ [.connectPeg data rpc]) := Identified.upTo (upTo ▸ ids)
      have reachedNow : run lib ctxt (front ++ [.connectPeg data rpc]) (State.new F) = .ok t :=
        foldAppendOk.mpr ⟨s,reached,foldConsOk.mpr ⟨t,applied,rfl⟩⟩
      exact followed.afterPeg idsNow (runAlike idsNow reachedNow) ⟨⟨front,place,reached⟩,applied⟩
  | localOp op =>
      simp only [Step.apply,bindOk,pureOk] at applied
      obtain ⟨w,_,rfl⟩ := applied
      have same : depositedWorth (front ++ [.localOp op]) = depositedWorth front := depositedConcat
      have none : createdBy lib (front ++ [.localOp op]) = createdBy lib front :=
        createdByConcat.trans (List.append_nil _)
      rw [same,none]
      exact ⟨followed.valued,followed.submitted⟩
  | _ => cases isForward

theorem eventFollowed {event : Hash × BlockEvent} {p' : PegProgress} (takes : TakesEvent lib ctxt steps p height event)
    (connected : connectEvent lib height p event = .ok p') : ∃ ops, EventEffect lib height p event p' ops ∧
      p'.unspentWorth + (ops.map PegOp.removes).sum = p.unspentWorth + (ops.map PegOp.adds).sum ∧
      ∀ m6id bundle history, p.toPegTables.Outstanding m6id bundle history →
        Submission lib ctxt steps m6id bundle history (worthOf (bundle.spendUtxos.map (·.2))) := by
  obtain ⟨s,data,rpc,t,later,before,after,step,atHeight,split,folded⟩ := takes.taken
  obtain ⟨earlier,place,reached⟩ := step.split
  have upTo : steps = (earlier ++ [.connectPeg data rpc]) ++ later := by
    rw [place,List.append_assoc,List.singleton_append]
  have idsNow : Identified lib (earlier ++ [.connectPeg data rpc]) := Identified.upTo (upTo ▸ ids)
  have reachedNow : run lib ctxt (earlier ++ [.connectPeg data rpc]) (State.new F) = .ok t :=
    foldAppendOk.mpr ⟨s,reached,foldConsOk.mpr ⟨t,step.applied,rfl⟩⟩
  have alike := runAlike idsNow reachedNow
  have start := runFollowed forward ids place reached
  rw [show s.height.getD 0 = height by rw [atHeight]; rfl] at start
  have now := followEvents idsNow alike start step atHeight split folded
  obtain ⟨ops,effect⟩ := eventEffect connected
  obtain ⟨alikeNow,fresh⟩ := eventPlace idsNow alike split
  have alikeBefore : OutputsAlike (createdBy lib earlier ++ eventsCreate before) := fun a memA b memB =>
    alikeNow a (List.mem_append_left _ memA) b (List.mem_append_left _ memB)
  obtain ⟨distinct,carries⟩ := eventCarries now.valued alikeBefore fresh effect.cases
  refine ⟨ops,effect,?_,now.submitted⟩
  rw [effect.ledger]
  exact (opsBalance distinct carries).unspent

end Run

/- Deposits each at its own outpoint that fit into an amount together; hashes that do not collide in the run. -/
theorem valueConserved (forward : ∀ step ∈ steps, step.isForward = true) (txids : TxidsBind lib (transactionsOf steps))
    (roots : RootsBind lib (minedBlocks steps)) (distinct : ((depositsOf steps).map (·.outpoint)).Nodup)
    (fits : depositedWorth steps < Amount.max.val) : ValueConserved lib ctxt steps := by
  have ids : Identified lib steps := ⟨txids,roots,distinct⟩
  refine ⟨?_,?_,?_,?_,?_,?_,?_⟩
  · intro s header body t later takes
    obtain ⟨earlier,split,reached⟩ := takes.split
    obtain ⟨pre,mines,source,once⟩ := runMines forward ids split reached takes.applied
    have balance := ((runFollowed forward ids split reached).valued.afterBlock mines once source.connected.coins id).2
    have enough := mines.worth.enough
    exact ⟨pre,source.accepted,balance,by omega⟩
  · intro s data rpc t later takes
    obtain ⟨height,progress,source⟩ := pegConnectSource takes.applied
    exact ⟨height,progress,source.atHeight,source.events,congrArg Ledger.utxos source.ledger⟩
  · intro p height blockHash d p' takes connected
    obtain ⟨ops,effect,balance,_⟩ := eventFollowed forward ids takes connected
    have happened := effect.cases
    generalize p'.toPegTables = w at happened
    cases happened
    exact balance
  · intro p height blockHash m6id bundle history p' takes connected out
    obtain ⟨ops,effect,balance,submitted⟩ := eventFollowed forward ids takes connected
    refine ⟨_,submitted m6id bundle history out,?_⟩
    have happened := effect.cases
    generalize p'.toPegTables = w at happened
    cases happened with
    | failed recorded live push failures =>
        cases recorded.symm.trans out.recorded
        rw [addsWorth.1,addsWorth.2] at balance
        exact balance
    | failedAgain recorded already =>
        cases recorded.symm.trans out.recorded
        rw [out.live] at already
        cases already
    | failedUnknown recorded unknown live push =>
        cases recorded.symm.trans out.recorded
        exact absurd rfl (unknown bundle)
  · intro p height event p' takes connected noDeposit noFailure
    obtain ⟨ops,effect,balance,_⟩ := eventFollowed forward ids takes connected
    obtain ⟨blockHash,event⟩ := event
    have nothing : (ops.map PegOp.adds).sum = 0 := by
      have happened := effect.cases
      generalize p'.toPegTables = w at happened
      cases happened with
      | deposited d => exact absurd rfl (noDeposit d)
      | submitted => exact removesWorth.2
      | confirmedUnknown => exact removesWorth.2
      | failed recorded live push failures => exact absurd ⟨recorded,live⟩ (noFailure _ _ _ rfl)
      | _ => rfl
    omega
  · intro s op t later takes
    have applied := takes.applied
    simp only [Step.apply,bindOk,pureOk] at applied
    obtain ⟨w,_,rfl⟩ := applied
    rfl
  · intro earlier later s split reached
    have valued := (runFollowed forward ids split reached).valued
    have total : depositedWorth steps = depositedWorth earlier + worthOf ((depositsOf later).map (·.output)) := by
      rw [depositedWorth,depositsOf,split,List.flatMap_append,List.map_append,worthAppend]
      rfl
    have small : Amount.max.val < 2 ^ 64 := Amount.max.sat.toNat_lt
    have backed := valued.backed
    have deposits := valued.deposits
    obtain ⟨wealth,ok,isWealth⟩ := wealthOk (s := s) (by omega) (by omega)
    exact ⟨wealth,ok,by omega⟩

section Reached
open Reference

theorem failedBundleConserved : ∃ (steps : List (Step Forest)) (last : State Forest),
    run externals context steps (State.new Forest) = .ok last ∧ last.sidechainWealth = .ok ⟨1500⟩ ∧
    ValueConserved externals context steps := by
  have played : playsReported collected [[.submitted],[.failed]] (fun steps s =>
      steps.all Step.isForward && (decide (TxidsBind externals (transactionsOf steps)) &&
        (decide (RootsBind externals (minedBlocks steps)) && (decide ((depositsOf steps).map (·.outpoint)).Nodup &&
          (decide (depositedWorth steps < Amount.max.val) && decide (s.sidechainWealth.toOption = some ⟨1500⟩)))))) = true := by
    decide +kernel
  obtain ⟨steps,last,ran,checked⟩ := playsReportedRun played
  simp only [Bool.and_eq_true,decide_eq_true_eq] at checked
  obtain ⟨forward,txids,roots,distinct,fits,wealth⟩ := checked
  refine ⟨steps,last,ran,?_,valueConserved (List.all_eq_true.mp forward) txids roots distinct fits⟩
  cases isWealth : last.sidechainWealth with
  | error e => simp [isWealth,Except.toOption] at wealth
  | ok value => simpa [isWealth,Except.toOption] using wealth

end Reached

end Coinshift
