import Coinshift.LedgerOps
import Coinshift.SwapEffects

/-! Connection and disconnection of a whole block, taken apart into the coin ledger, the swap
tables and the accumulator. -/
namespace Coinshift
open Checked

variable {F : Type} {lib : Externals F} {ctxt : BatchVerificationContext} {s s' : State F}
  {header : Header} {body : Body} {pre : PrevalidatedBlock}

theorem filledTransactions {txs : List Transaction} {filled : List FilledTransaction}
    (each : List.Forall₂ (TransactionSource lib s) txs filled) : filled.map (·.transaction) = txs := by
  induction each with
  | nil => rfl
  | cons head tail ih => rw [List.map_cons,ih,head.fill.transaction]

theorem filledSource {txs : List Transaction} {filled : List FilledTransaction}
    (each : List.Forall₂ (TransactionSource lib s) txs filled) {f : FilledTransaction} (mem : f ∈ filled) :
    f.transaction ∈ txs ∧ TransactionSource lib s f.transaction f := by
  obtain ⟨tx,inside,source⟩ := relatedRight each mem
  have same := source.fill.transaction
  subst same
  exact ⟨inside,source⟩

section Creations

variable {swapId : SwapId}

def Transaction.createOf (swapId : SwapId) (tx : Transaction) : Option SwapCreate :=
  match tx.data with
  | .swapCreate create => if create.swapId = swapId then some create else none
  | _ => none

def Swap.route (swap : Swap) : ParentChainType × Option Address := (swap.parentChain,swap.l2Recipient)

def SwapCreate.route (create : SwapCreate) : ParentChainType × Option Address :=
  (create.parentChain,create.l2Recipient)

def createsOf (swapId : SwapId) (txs : List Transaction) : List (ParentChainType × Option Address) :=
  txs.filterMap (fun tx => (tx.createOf swapId).map SwapCreate.route)

theorem createOfSome {tx : Transaction} {create : SwapCreate} (found : tx.createOf swapId = some create) :
    tx.data = .swapCreate create ∧ create.swapId = swapId := by
  unfold Transaction.createOf at found
  cases kind : tx.data with
  | swapCreate made =>
      simp only [kind] at found
      split at found
      · next same =>
          cases found
          exact ⟨rfl,same⟩
      · cases found
  | _ => simp [kind] at found

def Transaction.createdId (tx : Transaction) : Option SwapId :=
  match tx.data with
  | .swapCreate create => some create.swapId
  | _ => none

def createdIds (txs : List Transaction) : List SwapId := txs.filterMap Transaction.createdId

theorem createdIdSome {tx : Transaction} : tx.createdId = some swapId ↔
    ∃ create, tx.data = .swapCreate create ∧ create.swapId = swapId := by
  unfold Transaction.createdId
  cases tx.data <;> simp

theorem routesAfterCreates {filled : List FilledTransaction} {height : Nat} {records : SwapId → Option Swap} :
    (filled.foldl (fun r f => recordsAfter height f r) records swapId).map Swap.route =
      (createsOf swapId (filled.map (·.transaction))).getLast?.or ((records swapId).map Swap.route) := by
  have step (r : SwapId → Option Swap) (f : FilledTransaction) :
      (recordsAfter height f r swapId).map Swap.route =
        ((f.transaction.createOf swapId).map SwapCreate.route).or ((r swapId).map Swap.route) := by
    unfold recordsAfter Transaction.createOf
    cases f.transaction.data with
    | swapCreate create =>
        by_cases own : swapId = create.swapId
        · simp only [own,if_true]
          rfl
        · simp only [own,Ne.symm own,if_false]
          rfl
    | swapClaim claimed declared proof =>
        by_cases own : swapId = claimed
        · simp only [own,if_true,Option.map_map]
          rfl
        · simp only [own,if_false]
          rfl
    | regular => rfl
    | swapAccept accepted claimer => rfl
  rw [createsOf,List.filterMap_map]
  exact foldlLast (fun r : SwapId → Option Swap => (r swapId).map Swap.route) step

theorem routesUndone {txs : List Transaction} {records : SwapId → Option Swap} :
    (txs.foldl (fun r tx => recordsUndone tx r) records swapId).map Swap.route =
      if txs.any (fun tx => (tx.createOf swapId).isSome) then none else (records swapId).map Swap.route := by
  have step (r : SwapId → Option Swap) (tx : Transaction) :
      (recordsUndone tx r swapId).map Swap.route =
        if (tx.createOf swapId).isSome then none else (r swapId).map Swap.route := by
    unfold recordsUndone Transaction.createOf
    cases tx.data with
    | swapCreate create => by_cases own : swapId = create.swapId <;> simp [own,eq_comm]
    | swapClaim claimed declared proof =>
        by_cases own : swapId = claimed
        · simp only [own,if_true,Option.map_map]
          cases r claimed with
          | none => rfl
          | some swap =>
              simp only [Option.map_some,Function.comp_apply,Option.isSome_none,Bool.false_eq_true,if_false]
              unfold Swap.revertClaim
              split <;> rfl
        · simp only [own,if_false]
          rfl
    | _ => rfl
  exact foldlClear (fun r : SwapId → Option Swap => (r swapId).map Swap.route) step

end Creations

section Connect

def connectSwaps (lib : Externals F) (pre : PrevalidatedBlock) (w : SwapTables) : Except Error SwapTables :=
  pre.filledTransactions.foldlM (connectSwap lib pre.nextHeight) w

structure ConnectSource (lib : Externals F) (s : State F) (header : Header) (body : Body)
    (pre : PrevalidatedBlock) (s' : State F) : Prop where
  coins : connectCoins lib header body s.toLedger = .ok s'.toLedger
  swaps : connectSwaps lib pre s.toSwapTables = .ok s'.toSwapTables
  pegs : s'.toPegTables = s.toPegTables
  tip : s'.tip = some (header.hash lib)
  height : s'.height = some s.nextHeight
  accumulator : ∃ applied, applyDiff lib (s.accumulator lib) (connectDiff lib header body) = .ok applied ∧
    s'.utreexoAccumulator = some applied

theorem connectFold (source : PrevalidateSource lib ctxt s header body pre) {l l' : Ledger}
    {w w' : SwapTables} :
    pre.filledTransactions.foldlM
      (both (fun l filled => connectLedger lib l filled.transaction) (connectSwap lib pre.nextHeight)) (l,w) =
        .ok (l',w') ↔
    body.transactions.foldlM (connectLedger lib) l = .ok l' ∧ connectSwaps lib pre w = .ok w' := by
  rw [foldBothOk,← filledTransactions source.transactions,List.foldlM_map]
  rfl

theorem connectSource (source : PrevalidateSource lib ctxt s header body pre)
    (ok : connectPrevalidated lib s header body pre = .ok s') : ConnectSource lib s header body pre s' := by
  simp only [connectPrevalidated,bindOk,ensureOk,pureOk] at ok
  obtain ⟨_,_,_,root,⟨coins,swaps⟩,folded,applied,apply,rfl⟩ := ok
  obtain ⟨coinsOk,swapsOk⟩ := (connectFold source).mp folded
  rw [root] at coinsOk
  rw [source.accumulatorDiff] at apply
  exact ⟨coinsOk,swapsOk,rfl,rfl,congrArg some source.nextHeight,applied,apply,rfl⟩

theorem connectTotal (source : PrevalidateSource lib ctxt s header body pre) :
    (∃ s', connectPrevalidated lib s header body pre = .ok s') ↔
      (∃ coins, connectCoins lib header body s.toLedger = .ok coins) ∧
      ∃ swaps, connectSwaps lib pre s.toSwapTables = .ok swaps := by
  constructor
  · intro connected
    obtain ⟨s',ok⟩ := connected
    have result := connectSource source ok
    exact ⟨⟨_,result.coins⟩,⟨_,result.swaps⟩⟩
  · intro halves
    obtain ⟨⟨coins,coinsOk⟩,⟨swaps,swapsOk⟩⟩ := halves
    obtain ⟨applied,apply,_⟩ := source.accumulator
    rw [← source.accumulatorDiff] at apply
    unfold connectCoins at coinsOk
    rw [← source.merkleRoot] at coinsOk
    simp only [connectPrevalidated,bindOk,ensureOk,pureOk]
    exact ⟨_,(),source.parent.symm,(),source.merkleRoot,(coins,swaps),
      (connectFold source).mpr ⟨coinsOk,swapsOk⟩,applied,apply,rfl⟩

theorem connectSwapsEffect {w w' : SwapTables} (ok : connectSwaps lib pre w = .ok w') :
    w'.isOutputLockedToSwap =
      (pre.filledTransactions.map (·.transaction)).foldl (fun locks tx => locksAfter lib tx locks)
        w.isOutputLockedToSwap ∧
    w'.getSwapReservation =
      (pre.filledTransactions.map (·.transaction)).foldl (fun r tx => reservationsAfter pre.nextHeight tx r)
        w.getSwapReservation ∧
    w'.getSwap = pre.filledTransactions.foldl (fun r f => recordsAfter pre.nextHeight f r) w.getSwap ∧
    w'.expiredSwaps = w.expiredSwaps := by
  refine ⟨?_,?_,?_,?_⟩
  · rw [List.foldl_map]
    exact foldView SwapTables.isOutputLockedToSwap (fun _ _ _ ok => (connectSwapEffect ok).1) ok
  · rw [List.foldl_map]
    exact foldView SwapTables.getSwapReservation (fun _ _ _ ok => (connectSwapEffect ok).2.1) ok
  · exact foldView SwapTables.getSwap (fun _ _ _ ok => (connectSwapEffect ok).2.2.1) ok
  · exact foldInvariant (P := fun t => t.expiredSwaps = w.expiredSwaps)
      (fun s x t _ same ok => (connectSwapEffect ok).2.2.2.trans same) rfl ok

def KeepsTerms (before now : SwapId → Option Swap) : Prop :=
  ∀ swapId swap, before swapId = some swap → ∃ later, now swapId = some later ∧ later.terms = swap.terms

theorem keepsTermsStep {before now : SwapId → Option Swap} {f : FilledTransaction} {height : Nat}
    (fresh : ∀ create, f.transaction.data = .swapCreate create → before create.swapId = none)
    (keeps : KeepsTerms before now) : KeepsTerms before (recordsAfter height f now) := by
  intro swapId swap recorded
  obtain ⟨later,found,same⟩ := keeps swapId swap recorded
  unfold recordsAfter
  cases kind : f.transaction.data with
  | regular => exact ⟨later,found,same⟩
  | swapAccept accepted claimer => exact ⟨later,found,same⟩
  | swapCreate create =>
      have other : swapId ≠ create.swapId := by
        intro here
        rw [here,fresh create kind] at recorded
        cases recorded
      refine ⟨later,?_,same⟩
      simp only [other,if_false]
      exact found
  | swapClaim claimed claimer proof =>
      by_cases here : swapId = claimed
      · refine ⟨later.markCompleted,?_,same⟩
        simp only [here,if_true]
        rw [← here,found]
        rfl
      · refine ⟨later,?_,same⟩
        simp only [here,if_false]
        exact found

theorem freshKeepsTerms {w w' : SwapTables} {filled : List FilledTransaction} {height : Nat}
    (ok : filled.foldlM (connectSwap lib height) w = .ok w')
    (fresh : ∀ f ∈ filled, ∀ create, f.transaction.data = .swapCreate create → w.getSwap create.swapId = none) :
    KeepsTerms w.getSwap w'.getSwap := by
  refine foldInvariant (P := fun now => KeepsTerms w.getSwap now.getSwap) ?_
    (fun _ swap recorded => ⟨swap,recorded,rfl⟩) ok
  intro middle f next mem keeps step
  rw [(connectSwapEffect step).2.2.1]
  exact keepsTermsStep (fresh f mem) keeps

end Connect

section Disconnect

def disconnectSwaps (lib : Externals F) (body : Body) (w : SwapTables) : Except Error SwapTables :=
  body.transactions.reverse.foldlM (disconnectSwap lib) w

structure DisconnectSource (lib : Externals F) (s : State F) (header : Header) (body : Body)
    (s' : State F) : Prop where
  coins : disconnectCoins lib header body s.toLedger = .ok s'.toLedger
  swaps : disconnectSwaps lib body s.toSwapTables = .ok s'.toSwapTables
  pegs : s'.toPegTables = s.toPegTables
  tip : s.tip = some (header.hash lib)
  previous : ∃ height, s.height = some height ∧ previousTip header height = .ok (s'.tip,s'.height)
  accumulator : ∃ applied, applyDiff lib (s.accumulator lib) (disconnectDiff lib header body) = .ok applied ∧
    s'.utreexoAccumulator = some applied

theorem previousTipOk {height : Nat} {tip : Option BlockHash} {before : Option Nat} :
    previousTip header height = .ok (tip,before) ↔ tip = header.prevSideHash ∧
      ((header.prevSideHash = none ∧ height = 0 ∧ before = none) ∨
        (header.prevSideHash ≠ none ∧ ∃ below, height = below + 1 ∧ before = some below)) := by
  unfold previousTip
  cases header.prevSideHash with
  | none => cases height <;> simp [eq_comm]
  | some parent => cases height <;> simp [eq_comm]

theorem disconnectSource (ok : disconnectTip lib s header body = .ok s') :
    DisconnectSource lib s header body s' := by
  simp only [disconnectTip,bindOk,okOrOk,ensureOk,pureOk] at ok
  obtain ⟨_,tip,_,rfl,⟨swaps,middle⟩,folded,coins,coinbase,height,heightIs,previous,back,applied,apply,rfl⟩ := ok
  obtain ⟨swapsOk,transactions⟩ := foldBothOk.mp folded
  refine ⟨?_,swapsOk,rfl,tip,⟨height,heightIs,back⟩,⟨applied,apply,rfl⟩⟩
  simp only [disconnectCoins,bindOk]
  exact ⟨middle,transactions,coinbase⟩

theorem disconnectTotal (tip : s.tip = some (header.hash lib)) {height : Nat} (heightIs : s.height = some height)
    {previous : Option BlockHash × Option Nat} (back : previousTip header height = .ok previous) :
    (∃ s', disconnectTip lib s header body = .ok s') ↔
      (∃ coins, disconnectCoins lib header body s.toLedger = .ok coins) ∧
      (∃ swaps, disconnectSwaps lib body s.toSwapTables = .ok swaps) ∧
      ∃ applied, applyDiff lib (s.accumulator lib) (disconnectDiff lib header body) = .ok applied := by
  constructor
  · intro disconnected
    obtain ⟨s',ok⟩ := disconnected
    have result := disconnectSource ok
    obtain ⟨applied,apply,_⟩ := result.accumulator
    exact ⟨⟨_,result.coins⟩,⟨_,result.swaps⟩,applied,apply⟩
  · intro parts
    obtain ⟨⟨coins,coinsOk⟩,⟨swaps,swapsOk⟩,applied,apply⟩ := parts
    simp only [disconnectCoins,bindOk] at coinsOk
    obtain ⟨middle,transactions,coinbase⟩ := coinsOk
    simp only [disconnectTip,bindOk,okOrOk,ensureOk,pureOk]
    exact ⟨_,_,tip,(),rfl,(swaps,middle),foldBothOk.mpr ⟨swapsOk,transactions⟩,coins,coinbase,height,heightIs,
      previous,back,applied,apply,rfl⟩

theorem disconnectSwapsEffect {w w' : SwapTables} (ok : disconnectSwaps lib body w = .ok w') :
    w'.getSwapReservation = body.transactions.reverse.foldl (fun r tx => reservationsUndone tx r) w.getSwapReservation ∧
    w'.getSwap = body.transactions.reverse.foldl (fun r tx => recordsUndone tx r) w.getSwap := by
  refine ⟨?_,?_⟩
  · exact foldView SwapTables.getSwapReservation (fun _ _ _ ok => (disconnectSwapEffect ok).2.1) ok
  · exact foldView SwapTables.getSwap (fun _ _ _ ok => (disconnectSwapEffect ok).2.2) ok

end Disconnect

end Coinshift
