import Coinshift.ConnectTotal
import Coinshift.StepEffects

/-! When disconnecting a block takes back what connecting it did to the ledger.
Every outpoint is looked at by itself: the block may leave it alone, create it where nothing is unspent,
or spend it where no spent output is on record, and then create it once more. -/
namespace Coinshift
open Checked Keyed

variable {F : Type} {lib : Externals F} {ctxt : BatchVerificationContext} {s s' : State F}
  {header : Header} {body : Body} {pre : PrevalidatedBlock}

section Cells

variable {c c' : Cell} {ops : List LedgerOp}

/- The operations of a block on an outpoint that its disconnection takes back. -/
def Cell.Restorable (c : Cell) : List LedgerOp → Prop
  | [] => True
  | [.put _] => c.unspent = none
  | [.spend _ _] => c.spent = none
  | [.spend _ _,.put _] => c.spent = none
  | _ => False

instance (c : Cell) (ops : List LedgerOp) : Decidable (c.Restorable ops) :=
  match ops with
  | [] => inferInstanceAs (Decidable True)
  | [.put _] => inferInstanceAs (Decidable (c.unspent = none))
  | [.spend _ _] => inferInstanceAs (Decidable (c.spent = none))
  | [.spend _ _,.put _] => inferInstanceAs (Decidable (c.spent = none))
  | .put _ :: _ :: _ => inferInstanceAs (Decidable False)
  | .spend _ _ :: .spend _ _ :: _ => inferInstanceAs (Decidable False)
  | .spend _ _ :: .put _ :: _ :: _ => inferInstanceAs (Decidable False)

theorem undoTwoPuts {p q : PointedOutput} : (.put p :: .put q :: ops).reverse.foldlM Cell.undo c = none := by
  rw [List.reverse_cons,List.reverse_cons,List.append_assoc,List.foldlM_append]
  cases ops.reverse.foldlM Cell.undo c with
  | none => rfl
  | some between =>
      obtain ⟨unspent,spent⟩ := between
      cases unspent with
      | none => rfl
      | some output => rfl

theorem undoFirstPut {p : PointedOutput} (undone : (.put p :: ops).reverse.foldlM Cell.undo c = some c') :
    c'.unspent = none := by
  rw [List.reverse_cons,List.foldlM_append] at undone
  obtain ⟨between,_,last⟩ := Option.bind_eq_some_iff.mp undone
  simp only [List.foldlM_cons,List.foldlM_nil] at last
  obtain ⟨result,step,same⟩ := Option.bind_eq_some_iff.mp last
  cases Option.some.inj same
  obtain ⟨_,_,rfl⟩ := Option.map_eq_some_iff.mp step
  rfl

theorem restorePut {p : PointedOutput} (present : spendKeys (.put p :: ops) ≠ [] → c.unspent.isSome)
    (folded : (LedgerOp.put p :: ops).foldlM Cell.apply c = some c') :
    (LedgerOp.put p :: ops).reverse.foldlM Cell.undo c' = some c ↔ c.Restorable (.put p :: ops) := by
  cases unspent : c.unspent with
  | some output =>
      refine iff_of_false ?_ ?_
      · intro undone
        have gone := undoFirstPut undone
        rw [unspent] at gone
        cases gone
      · cases ops with
        | nil => simp [Cell.Restorable,unspent]
        | cons next more => simp [Cell.Restorable]
  | none =>
      cases ops with
      | nil =>
          cases Option.some.inj folded
          obtain ⟨_,spent⟩ := c
          cases unspent
          exact iff_of_true rfl rfl
      | cons next more =>
          refine iff_of_false ?_ (by simp [Cell.Restorable])
          cases next with
          | put q =>
              rw [undoTwoPuts]
              exact (Option.some_ne_none c).symm
          | spend o inpoint =>
              have isSome := present (by simp [spendKeys,LedgerOp.isPut])
              rw [unspent] at isSome
              cases isSome

theorem restoreSpend {o : OutPoint} {inpoint : InPoint} (once : spendKeys ops = []) (present : c.unspent.isSome)
    (folded : (LedgerOp.spend o inpoint :: ops).foldlM Cell.apply c = some c') :
    (LedgerOp.spend o inpoint :: ops).reverse.foldlM Cell.undo c' = some c ↔ c.Restorable (.spend o inpoint :: ops) := by
  obtain ⟨output,unspent⟩ := Option.isSome_iff_exists.mp present
  obtain ⟨_,spent⟩ := c
  cases unspent
  cases ops with
  | nil =>
      cases Option.some.inj folded
      simp [Cell.Restorable,Cell.undo,eq_comm]
  | cons next more =>
      cases next with
      | spend => cases once
      | put p =>
          cases more with
          | nil =>
              cases Option.some.inj folded
              simp [Cell.Restorable,Cell.undo,eq_comm]
          | cons last others =>
              refine iff_of_false ?_ (by simp [Cell.Restorable])
              cases last with
              | spend => cases once
              | put q =>
                  rw [List.reverse_cons,List.foldlM_append,undoTwoPuts]
                  exact (Option.some_ne_none _).symm

theorem restoredIff (once : (spendKeys ops).length ≤ 1) (present : spendKeys ops ≠ [] → c.unspent.isSome)
    (folded : ops.foldlM Cell.apply c = some c') :
    ops.reverse.foldlM Cell.undo c' = some c ↔ c.Restorable ops := by
  cases ops with
  | nil =>
      cases Option.some.inj folded
      exact iff_of_true rfl trivial
  | cons op rest =>
      cases op with
      | put p => exact restorePut present folded
      | spend o inpoint =>
          have keys : spendKeys (.spend o inpoint :: rest) = o :: spendKeys rest := rfl
          rw [keys] at once present
          exact restoreSpend (by simpa using once) (present (by simp)) folded

end Cells

section Coins

def Restorable (lib : Externals F) (header : Header) (body : Body) (l : Ledger) : Prop :=
  ∀ o, (l.cell o).Restorable (at_ LedgerOp.key o (blockOps lib header body))

theorem coinsRestoredIff {l l' : Ledger} (distinct : body.inputKeys.Nodup)
    (present : ∀ o ∈ body.inputKeys, (l.utxos.tryGet o).isSome) (connected : connectCoins lib header body l = .ok l') :
    disconnectCoins lib header body l' = .ok l ↔ Restorable lib header body l := by
  rw [connectCoinsOps] at connected
  rw [disconnectCoinsOps]
  have each (o : OutPoint) : (at_ LedgerOp.key o (blockOps lib header body)).reverse.foldlM Cell.undo (l'.cell o) =
      some (l.cell o) ↔ (l.cell o).Restorable (at_ LedgerOp.key o (blockOps lib header body)) := by
    refine restoredIff ?_ ?_ (applyLocal.fold connected o)
    · exact spendsOnceAt distinct o
    · intro spent
      exact present o (spendAt spent)
  constructor
  · intro undone o
    have folded := undoLocal.fold undone o
    rw [atReverse] at folded
    exact (each o).mp folded
  · intro restorable
    have total : ∀ o, ∃ c, (at_ LedgerOp.key o (blockOps lib header body).reverse).foldlM Cell.undo (l'.cell o) = some c := by
      intro o
      rw [atReverse]
      exact ⟨_,(each o).mpr (restorable o)⟩
    obtain ⟨final,undone⟩ := undoLocal.foldTotal total
    have same : final = l := by
      refine Ledger.ext (fun o => ?_)
      have folded := undoLocal.fold undone o
      rw [atReverse,(each o).mpr (restorable o)] at folded
      exact (Option.some.inj folded).symm
    rw [undone,same]

end Coins

section Leaves

def LedgerOp.leaf (lib : Externals F) (l : Ledger) : LedgerOp → Hash
  | .put p => utxoHash lib p
  | .spend o _ => ((l.utxos.tryGet o).map (fun output => utxoHash lib ⟨o,output⟩)).getD 0

def touched (lib : Externals F) (header : Header) (body : Body) (l : Ledger) : List PointedOutput :=
  coinbaseOutputs header.merkleRoot body.coinbase ++ body.transactions.flatMap (Transaction.createdOutputs lib) ++
    body.inputKeys.filterMap (fun o => (l.utxos.tryGet o).map (fun output => ⟨o,output⟩))

def LeavesDistinct (lib : Externals F) (header : Header) (body : Body) (l : Ledger) : Prop :=
  ∀ p ∈ touched lib header body l, ∀ q ∈ touched lib header body l, utxoHash lib p = utxoHash lib q → p = q

theorem filledHash {tx : Transaction} {f : FilledTransaction} {fee : Amount} (fill : FillSource s tx f)
    (valid : validateFilledTransaction lib f = .ok fee) {input : OutPoint × Hash} (mem : input ∈ tx.inputs) :
    ∃ utxo, s.utxos.tryGet input.1 = some utxo ∧ input.2 = utxoHash lib ⟨input.1,utxo⟩ := by
  obtain ⟨i,found⟩ := List.getElem?_of_mem mem
  obtain ⟨utxo,atIndex,unspent⟩ := relatedAt fill.spent found
  simp only [validateFilledTransaction,bindOk] at valid
  obtain ⟨_,hashes,_⟩ := valid
  have inside : (input,utxo) ∈ f.inputs := by
    rw [FilledTransaction.inputs,fill.transaction]
    exact List.mem_of_getElem? (List.getElem?_zip_eq_some.mpr ⟨found,atIndex⟩)
  exact ⟨utxo,unspent,ensureOk.mp (checkAllOk.mp hashes _ inside)⟩

theorem inputHash {tx : Transaction} {f : FilledTransaction} (source : TransactionSource lib s tx f)
    {input : OutPoint × Hash} (mem : input ∈ tx.inputs) :
    ∃ utxo, s.utxos.tryGet input.1 = some utxo ∧ input.2 = utxoHash lib ⟨input.1,utxo⟩ := by
  obtain ⟨fee,valid⟩ := source.value
  exact filledHash source.fill valid mem

theorem spendsLeaves {tx : Transaction} {f : FilledTransaction} (source : TransactionSource lib s tx f) (flag : Bool) :
    (tx.spends lib).map (fun op => (flag,op.leaf lib s.toLedger)) = tx.inputs.map (fun input => (flag,input.2)) := by
  have firsts := List.zipIdx_map_fst 0 tx.inputs
  rw [Transaction.spends,List.map_map]
  conv_rhs => rw [← firsts,List.map_map]
  refine List.map_congr_left (fun input mem => ?_)
  have inside : input.1 ∈ tx.inputs := firsts ▸ List.mem_map_of_mem mem
  obtain ⟨utxo,unspent,same⟩ := inputHash source inside
  simp [LedgerOp.leaf,unspent,same]

theorem requestsOps {tx : Transaction} {f : FilledTransaction} (source : TransactionSource lib s tx f) :
    tx.requests lib = (tx.ops lib).map (fun op => (op.isPut,op.leaf lib s.toLedger)) := by
  rw [Transaction.requests,Transaction.ops,List.map_append,← spendsLeaves source,List.map_map]
  congr 1
  refine List.map_congr_left (fun op mem => ?_)
  obtain ⟨input,_,rfl⟩ := List.mem_map.mp mem
  rfl

theorem undoRequestsOps {tx : Transaction} {f : FilledTransaction} (source : TransactionSource lib s tx f) :
    tx.undoRequests lib = (tx.ops lib).reverse.map (fun op => (! op.isPut,op.leaf lib s.toLedger)) := by
  rw [Transaction.undoRequests,Transaction.ops,List.reverse_append,List.map_append,List.map_reverse,List.map_reverse,
    List.map_reverse,List.map_reverse,← spendsLeaves source,List.map_map]
  congr 2
  refine List.map_congr_left (fun op mem => ?_)
  obtain ⟨input,_,rfl⟩ := List.mem_map.mp mem
  rfl

theorem connectDiffOps (source : PrevalidateSource lib ctxt s header body pre) :
    connectDiff lib header body = AccumulatorDiff.empty.recordAll
      ((blockOps lib header body).map (fun op => (op.isPut,op.leaf lib s.toLedger))) := by
  have transactions : body.transactions.flatMap (Transaction.requests lib) =
      (body.transactions.flatMap (Transaction.ops lib)).map (fun op => (op.isPut,op.leaf lib s.toLedger)) := by
    rw [List.map_flatMap]
    refine List.flatMap_congr (fun tx mem => ?_)
    obtain ⟨f,_,txSource⟩ := relatedLeft source.transactions mem
    exact requestsOps txSource
  rw [connectDiff,transactions,blockOps,List.map_append,List.map_map]
  exact List.foldl_append.symm

theorem disconnectDiffOps (source : PrevalidateSource lib ctxt s header body pre) :
    disconnectDiff lib header body = AccumulatorDiff.empty.recordAll
      ((blockOps lib header body).reverse.map (fun op => (! op.isPut,op.leaf lib s.toLedger))) := by
  have transactions : body.transactions.reverse.flatMap (Transaction.undoRequests lib) =
      (body.transactions.flatMap (Transaction.ops lib)).reverse.map
        (fun op => (! op.isPut,op.leaf lib s.toLedger)) := by
    rw [List.reverse_flatMap,List.map_flatMap]
    refine List.flatMap_congr (fun tx mem => ?_)
    obtain ⟨f,_,txSource⟩ := relatedLeft source.transactions (List.mem_reverse.mp mem)
    exact undoRequestsOps txSource
  rw [disconnectDiff,transactions,blockOps,List.reverse_append,List.map_append,← List.map_reverse,List.map_map]
  exact List.foldl_append.symm

theorem leafKey (source : PrevalidateSource lib ctxt s header body pre)
    (leaves : LeavesDistinct lib header body s.toLedger) {op op' : LedgerOp} (mem : op ∈ blockOps lib header body)
    (mem' : op' ∈ blockOps lib header body) (same : op.leaf lib s.toLedger = op'.leaf lib s.toLedger) :
    op.key = op'.key := by
  have pointed {op : LedgerOp} (mem : op ∈ blockOps lib header body) :
      ∃ p ∈ touched lib header body s.toLedger, op.leaf lib s.toLedger = utxoHash lib p ∧ op.key = p.outpoint := by
    cases op with
    | put p =>
        refine ⟨p,List.mem_append_left _ ?_,rfl,rfl⟩
        rcases List.mem_append.mp mem with coinbase | inTransaction
        · obtain ⟨q,inside,isPut⟩ := List.mem_map.mp coinbase
          cases isPut
          exact List.mem_append_left _ inside
        · obtain ⟨tx,inBody,inOps⟩ := List.mem_flatMap.mp inTransaction
          rcases List.mem_append.mp inOps with spent | created
          · obtain ⟨input,_,isSpend⟩ := List.mem_map.mp spent
            cases isSpend
          · obtain ⟨q,inside,isPut⟩ := List.mem_map.mp created
            cases isPut
            exact List.mem_append_right _ (List.mem_flatMap.mpr ⟨tx,inBody,inside⟩)
    | spend o inpoint =>
        have isInput : o ∈ body.inputKeys := by
          rw [← @spendKeysBlock _ lib header]
          exact List.mem_map.mpr ⟨_,List.mem_filter.mpr ⟨mem,rfl⟩,rfl⟩
        obtain ⟨output,unspent⟩ := Option.isSome_iff_exists.mp (inputsPresent source.transactions isInput)
        refine ⟨⟨o,output⟩,List.mem_append_right _ (List.mem_filterMap.mpr ⟨o,isInput,?_⟩),?_,rfl⟩
        · simp [unspent]
        · simp [LedgerOp.leaf,unspent]
  obtain ⟨p,inside,leaf,key⟩ := pointed mem
  obtain ⟨q,inside',leaf',key'⟩ := pointed mem'
  have equal := leaves p inside q inside' (leaf.symm.trans (same.trans leaf'))
  rw [key,key',equal]

theorem restorableStatus {c : Cell} {ops : List LedgerOp} {p : LedgerOp → Bool} (restorable : c.Restorable ops)
    (removed : ((ops.filter p).reverse.map (fun op => ! op.isPut)).foldl AccumulatorDiff.statusAfter none = some false) :
    ((ops.filter p).map LedgerOp.isPut).foldl AccumulatorDiff.statusAfter none = some true := by
  unfold Cell.Restorable at restorable
  split at restorable
  · cases removed
  · next created =>
      cases here : p (.put created)
      · simp [here] at removed
      · simp [here,LedgerOp.isPut,AccumulatorDiff.statusAfter]
  · next o inpoint =>
      cases here : p (.spend o inpoint)
      · simp [here] at removed
      · simp [here,LedgerOp.isPut,AccumulatorDiff.statusAfter] at removed
  · next o inpoint created =>
      cases first : p (.spend o inpoint) <;> cases second : p (.put created) <;>
        simp_all [LedgerOp.isPut,AccumulatorDiff.statusAfter]
  · cases restorable

theorem removedWereInserted (source : PrevalidateSource lib ctxt s header body pre)
    (leaves : LeavesDistinct lib header body s.toLedger) (restorable : Restorable lib header body s.toLedger)
    {x : Hash} (mem : x ∈ (disconnectDiff lib header body).deletions) : x ∈ (connectDiff lib header body).insertions := by
  have distinct : AccumulatorDiff.empty.Distinct := List.nodup_nil
  rw [disconnectDiffOps source] at mem
  have removed := AccumulatorDiff.memDeletions (AccumulatorDiff.distinctRecordAll distinct) mem
  rw [AccumulatorDiff.statusRecordAll,List.filter_map,List.map_map,List.filter_reverse] at removed
  rw [connectDiffOps source]
  refine AccumulatorDiff.memInsertions ?_
  rw [AccumulatorDiff.statusRecordAll,List.filter_map,List.map_map]
  cases onLeaf : (blockOps lib header body).filter (fun op => op.leaf lib s.toLedger = x) with
  | nil =>
      have empty : (blockOps lib header body).filter
          ((fun request : Bool × Hash => decide (request.2 = x)) ∘ fun op => (! op.isPut,op.leaf lib s.toLedger)) = [] :=
        onLeaf
      rw [empty] at removed
      cases removed
  | cons first others =>
      have firstIn := List.mem_filter.mp (onLeaf ▸ List.mem_cons_self : first ∈ _)
      have sameKey : (blockOps lib header body).filter (fun op => op.leaf lib s.toLedger = x) =
          (at_ LedgerOp.key first.key (blockOps lib header body)).filter (fun op => op.leaf lib s.toLedger = x) := by
        rw [at_,List.filter_filter]
        refine List.filter_congr (fun op inside => ?_)
        cases here : decide (op.leaf lib s.toLedger = x) with
        | false => rfl
        | true =>
            have leaf := (of_decide_eq_true here).trans (of_decide_eq_true firstIn.2).symm
            simp [leafKey source leaves inside firstIn.1 leaf]
      have status := restorableStatus (p := fun op => op.leaf lib s.toLedger = x) (restorable first.key)
      rw [← sameKey] at status
      exact status removed

theorem accumulatorDisconnects {holds : F → Hash → Prop} (laws : ForestKeepsLeaves lib holds)
    (source : PrevalidateSource lib ctxt s header body pre) (leaves : LeavesDistinct lib header body s.toLedger)
    (restorable : Restorable lib header body s.toLedger) {forest forest' : F}
    (applied : applyDiff lib forest (connectDiff lib header body) = .ok forest') :
    ∃ back, applyDiff lib forest' (disconnectDiff lib header body) = .ok back := by
  rw [applyDiff,mapErrorOk] at applied
  have distinct : (disconnectDiff lib header body).Distinct :=
    AccumulatorDiff.distinctRecordAll (AccumulatorDiff.distinctRecordAll List.nodup_nil)
  have held : ∀ x ∈ (disconnectDiff lib header body).deletions, holds forest' x := by
    intro x mem
    exact laws.added _ _ _ _ applied x (removedWereInserted source leaves restorable mem)
  obtain ⟨back,ok⟩ := laws.removable forest' (disconnectDiff lib header body).insertions _
    (AccumulatorDiff.deletionsNodup distinct) held
  exact ⟨back,mapErrorOk.mpr ok⟩

end Leaves

section Swaps

theorem keepsTermsUndone {before now : SwapId → Option Swap} {tx : Transaction}
    (fresh : ∀ create, tx.data = .swapCreate create → before create.swapId = none) (keeps : KeepsTerms before now) :
    KeepsTerms before (recordsUndone tx now) := by
  intro swapId swap recorded
  obtain ⟨later,found,same⟩ := keeps swapId swap recorded
  unfold recordsUndone
  cases kind : tx.data with
  | regular => exact ⟨later,found,same⟩
  | swapAccept accepted claimer => exact ⟨later,found,same⟩
  | swapCreate create =>
      have other : swapId ≠ create.swapId := by
        intro here
        rw [here,fresh create kind] at recorded
        cases recorded
      exact ⟨later,by simpa only [other,if_false] using found,same⟩
  | swapClaim claimed claimer proof =>
      by_cases here : swapId = claimed
      · refine ⟨later.revertClaim,?_,?_⟩
        · simp only [here,if_true]
          rw [← here,found]
          rfl
        · unfold Swap.revertClaim
          split
          · exact same
          · exact same
      · exact ⟨later,by simpa only [here,if_false] using found,same⟩

theorem swapsDisconnect {txs : List Transaction} {w : SwapTables} (before : SwapId → Option Swap)
    (fresh : ∀ tx ∈ txs, ∀ create, tx.data = .swapCreate create → before create.swapId = none)
    (recorded : ∀ tx ∈ txs, ∀ swapId claimer proof, tx.data = .swapClaim swapId claimer proof → before swapId ≠ none)
    (keeps : KeepsTerms before w.getSwap) : ∃ w', txs.foldlM (disconnectSwap lib) w = .ok w' := by
  induction txs generalizing w with
  | nil => exact ⟨w,rfl⟩
  | cons tx txs ih =>
      have first : ∃ middle, disconnectSwap lib w tx = .ok middle := by
        refine disconnectSwapOk.mpr ?_
        intro swapId claimer proof kind
        obtain ⟨swap,found⟩ := Option.ne_none_iff_exists'.mp (recorded tx List.mem_cons_self swapId claimer proof kind)
        obtain ⟨later,foundLater,_⟩ := keeps swapId swap found
        rw [foundLater]
        exact Option.some_ne_none later
      obtain ⟨middle,ok⟩ := first
      have rest := @ih middle (fun other mem => fresh other (List.mem_cons_of_mem tx mem))
        (fun other mem => recorded other (List.mem_cons_of_mem tx mem)) (by
          rw [(disconnectSwapEffect ok).2.2]
          exact keepsTermsUndone (fresh tx List.mem_cons_self) keeps)
      obtain ⟨w',tail⟩ := rest
      exact ⟨w',foldConsOk.mpr ⟨middle,ok,tail⟩⟩

theorem blockSwapsDisconnect (source : ConnectBlockSource lib ctxt s header body pre s') :
    ∃ w, disconnectSwaps lib body s'.toSwapTables = .ok w := by
  refine swapsDisconnect s.getSwap ?_ ?_ source.keepsTerms
  · intro tx mem create kind
    exact source.validated.unrecorded (List.mem_reverse.mp mem) kind
  · intro tx mem swapId claimer proof kind missing
    obtain ⟨_,_,_,claim⟩ := source.validated.claim (List.mem_reverse.mp mem) kind
    have recorded := claim.recorded
    rw [missing] at recorded
    cases recorded

end Swaps

section Tip

theorem stepTipHeight {step : Step F} {t : State F} (paired : s.tip.isSome = s.height.isSome)
    (ok : step.apply lib ctxt s = .ok t) : t.tip.isSome = t.height.isSome := by
  cases step with
  | connect header body =>
      obtain ⟨_,source⟩ := connectBlockSource ok
      rw [source.connected.tip,source.connected.height]
      rfl
  | disconnect header body =>
      obtain ⟨_,_,back⟩ := (disconnectSource ok).previous
      obtain ⟨tip,below⟩ := previousTipOk.mp back
      rw [tip]
      rcases below with ⟨isNone,_,heightNone⟩ | ⟨isSome,_,_,heightSome⟩
      · rw [isNone,heightNone]
        rfl
      · rw [heightSome]
        exact Option.isSome_iff_ne_none.mpr isSome
  | connectPeg data rpc =>
      have source := connectPegSource ok
      rw [source.tip,source.height,paired]
  | disconnectPeg data =>
      have source := disconnectPegSource ok
      rw [source.tip,source.height,paired]
  | restoreAccumulator accumulator =>
      cases ok
      exact paired
  | localOp op =>
      simp only [Step.apply,bindOk,pureOk] at ok
      obtain ⟨_,_,rfl⟩ := ok
      exact paired

theorem reachableTipHeight (reachable : Reachable lib ctxt s) : s.tip.isSome = s.height.isSome := by
  obtain ⟨steps,_,_,ran⟩ := reachable
  exact runInvariant (P := fun s => s.tip.isSome = s.height.isSome) (fun _ _ _ _ paired ok => stepTipHeight paired ok)
    rfl ran

theorem previousOfConnected (reachable : Reachable lib ctxt s) (parent : header.prevSideHash = s.tip) :
    previousTip header s.nextHeight = .ok (s.tip,s.height) := by
  have paired := reachableTipHeight reachable
  refine previousTipOk.mpr ⟨parent.symm,?_⟩
  cases heightIs : s.height with
  | none =>
      rw [heightIs] at paired
      refine .inl ⟨?_,?_,rfl⟩
      · rw [parent]
        exact Option.not_isSome_iff_eq_none.mp (by simp [paired])
      · rw [State.nextHeight,heightIs]
  | some height =>
      rw [heightIs] at paired
      refine .inr ⟨?_,height,?_,rfl⟩
      · rw [parent]
        exact Option.isSome_iff_ne_none.mp paired
      · rw [State.nextHeight,heightIs]

end Tip

/- Connecting the block and disconnecting it both succeed, and the ledger, tip and height are as before. -/
def RestoresLedger (lib : Externals F) (s : State F) (header : Header) (body : Body) (pre : PrevalidatedBlock) : Prop :=
  ∃ s' s'', connectPrevalidated lib s header body pre = .ok s' ∧ disconnectTip lib s' header body = .ok s'' ∧
    s''.utxos = s.utxos ∧ s''.stxos = s.stxos ∧ s''.tip = s.tip ∧ s''.height = s.height

theorem restoresLedgerIff {holds : F → Hash → Prop} (laws : ForestKeepsLeaves lib holds)
    (reachable : Reachable lib ctxt s) (ok : prevalidate lib s ctxt header body = .ok pre)
    (leaves : LeavesDistinct lib header body s.toLedger) :
    RestoresLedger lib s header body pre ↔
      OpenClaimsDeclare s body ∧ CreatesFit body ∧ Restorable lib header body s.toLedger := by
  have source := prevalidateSource ok
  have coinsIff {l' : Ledger} (connected : connectCoins lib header body s.toLedger = .ok l') :=
    coinsRestoredIff source.distinct (fun _ spent => inputsPresent source.transactions spent) connected
  constructor
  · intro restores
    obtain ⟨s',s'',connected,disconnected,utxos,stxos,_,_⟩ := restores
    have result := connectSource source connected
    have undone := (disconnectSource disconnected).coins
    have ledger : s''.toLedger = s.toLedger := by
      refine Ledger.ext (fun o => ?_)
      rw [Ledger.cell,Ledger.cell,utxos,stxos]
    rw [ledger] at undone
    obtain ⟨declare,fit⟩ := (swapsConnectIff source).mp ⟨_,result.swaps⟩
    exact ⟨declare,fit,(coinsIff result.coins).mp undone⟩
  · intro condition
    obtain ⟨declare,fit,restorable⟩ := condition
    obtain ⟨s',connected⟩ := (connectTotal source).mpr ⟨coinsConnect source,(swapsConnectIff source).mpr ⟨declare,fit⟩⟩
    have result := connectSource source connected
    have undone := (coinsIff result.coins).mpr restorable
    obtain ⟨w,swapsUndone⟩ := blockSwapsDisconnect ⟨ok,source,result⟩
    obtain ⟨applied,apply,isApplied⟩ := result.accumulator
    obtain ⟨back,applyBack⟩ := accumulatorDisconnects laws source leaves restorable apply
    have accumulator : s'.accumulator lib = applied := by rw [State.accumulator,isApplied]; rfl
    rw [← accumulator] at applyBack
    have previous := previousOfConnected reachable source.parent
    obtain ⟨s'',disconnected⟩ := (disconnectTotal result.tip result.height previous).mpr
      ⟨⟨_,undone⟩,⟨w,swapsUndone⟩,back,applyBack⟩
    have final := disconnectSource disconnected
    have ledger : s''.toLedger = s.toLedger := Except.ok.inj (final.coins.symm.trans undone)
    obtain ⟨height,heightIs,tipBack⟩ := final.previous
    rw [result.height] at heightIs
    rw [← Option.some.inj heightIs,previous] at tipBack
    refine ⟨s',s'',connected,disconnected,congrArg Ledger.utxos ledger,congrArg Ledger.stxos ledger,?_,?_⟩
    · exact (congrArg Prod.fst (Except.ok.inj tipBack)).symm
    · exact (congrArg Prod.snd (Except.ok.inj tipBack)).symm

section Reached

open Reference

theorem referenceForest : ForestKeepsLeaves externals (fun forest x => x ∈ forest) where
  removable := by
    intro forest add del _ held
    have all : del.all (· ∈ forest) = true := by simpa using held
    exact ⟨_,if_pos all⟩
  added := by
    intro forest add del after ok x mem
    simp only [externals,Reference.modify] at ok
    split at ok
    · cases ok
      exact List.mem_append_right _ mem
    · cases ok

theorem restorableOfTouched {l : Ledger} (each : ∀ op ∈ blockOps lib header body,
    (l.cell op.key).Restorable (at_ LedgerOp.key op.key (blockOps lib header body))) : Restorable lib header body l := by
  intro o
  cases touchedAt : at_ LedgerOp.key o (blockOps lib header body) with
  | nil => trivial
  | cons op others =>
      obtain ⟨mem,key⟩ := List.mem_filter.mp (touchedAt ▸ List.mem_cons_self : op ∈ at_ LedgerOp.key o _)
      obtain rfl : op.key = o := of_decide_eq_true key
      rw [← touchedAt]
      exact each op mem

theorem leavesDistinctOfNodup {l : Ledger} (distinct : ((touched lib header body l).map (utxoHash lib)).Nodup) :
    LeavesDistinct lib header body l := by
  intro p inside q inside' same
  exact List.inj_on_of_nodup_map distinct inside inside' same

/- A block whose coinbase holds one output of no value: its merkle root is the same every time. -/
def zeroCoinbase : Body := Reference.body [] [coin alice 0]

def zeroOutput (s : State Forest) : OutPoint := .coinbase (mine s zeroCoinbase).merkleRoot 0

def losesCoinbase (s back : State Forest) : Bool :=
  (s.utxos.tryGet (zeroOutput s)).isSome && (back.utxos.tryGet (zeroOutput s)).isNone

theorem equalCoinbasesLost : ∃ s header body pre, Reachable externals context s ∧
    prevalidate externals s context header body = .ok pre ∧ LeavesDistinct externals header body s.toLedger ∧
    ¬ RestoresLedger externals s header body pre := by
  have played : reaches [.grow zeroCoinbase [] noRpc] (roundTrips zeroCoinbase losesCoinbase) = true := by
    decide +kernel
  obtain ⟨s,reachable,loses⟩ := reachesReachable played
  obtain ⟨pre,s',s'',ok,connected,disconnected,lost⟩ := roundTripsOk loses
  rw [losesCoinbase,Bool.and_eq_true,Option.isNone_iff_eq_none] at lost
  refine ⟨s,_,zeroCoinbase,pre,reachable,ok,leavesDistinctOfNodup (List.nodup_singleton _),?_⟩
  intro restores
  obtain ⟨t',t'',connects,disconnects,utxos,_⟩ := restores
  rw [connected] at connects
  obtain rfl := Except.ok.inj connects
  rw [disconnected] at disconnects
  obtain rfl := Except.ok.inj disconnects
  rw [utxos] at lost
  rw [lost.2] at lost
  cases lost.1

def payment : Body :=
  Reference.body [(transaction [deposited 1 (coin alice 1000)] [coin bob 900,coin alice 100] .regular,[alice])] []

def paymentRestorable (s : State Forest) : Bool :=
  accepts payment s &&
    decide ((touched externals (mine s payment) payment s.toLedger).map (utxoHash externals)).Nodup &&
    (blockOps externals (mine s payment) payment).all (fun op => (s.cell op.key).Restorable
      (at_ LedgerOp.key op.key (blockOps externals (mine s payment) payment)))

theorem paymentRestored : ∃ s header pre, Reachable externals context s ∧
    prevalidate externals s context header payment = .ok pre ∧ RestoresLedger externals s header payment pre := by
  have played : reaches funded paymentRestorable = true := by decide +kernel
  obtain ⟨s,reachable,checked⟩ := reachesReachable played
  simp only [paymentRestorable,Bool.and_eq_true,decide_eq_true_eq,List.all_eq_true] at checked
  obtain ⟨⟨accepted,leaves⟩,restorable⟩ := checked
  obtain ⟨pre,ok⟩ := acceptsOk accepted
  refine ⟨s,_,pre,reachable,ok,
    (restoresLedgerIff referenceForest reachable ok (leavesDistinctOfNodup leaves)).mpr ⟨?_,?_,?_⟩⟩
  · intro tx mem swapId proof kind
    obtain rfl := List.mem_singleton.mp mem
    cases kind
  · intro tx mem create kind
    obtain rfl := List.mem_singleton.mp mem
    cases kind
  · exact restorableOfTouched restorable

end Reached

end Coinshift
