import Coinshift.BlockSource
import Coinshift.Keyed

/-! The coin ledger's side of a block as a list of operations, each on one outpoint.
Connecting a block applies the list, disconnecting it undoes the reversed list. -/
namespace Coinshift
open Checked Keyed

inductive LedgerOp where
  | put (p : PointedOutput)
  | spend (outpoint : OutPoint) (inpoint : InPoint)
  deriving DecidableEq, Repr

namespace LedgerOp

def key : LedgerOp → OutPoint
  | put p => p.outpoint
  | spend outpoint _ => outpoint

def isPut : LedgerOp → Bool
  | put _ => true
  | spend .. => false

def apply (l : Ledger) : LedgerOp → Except Error Ledger
  | put p => pure (l.putOutput p)
  | spend outpoint inpoint => do
      let spentOutput ← okOr (l.utxos.tryGet outpoint) (.noUtxo outpoint)
      pure ⟨l.utxos.delete outpoint,l.stxos.put outpoint ⟨spentOutput,inpoint⟩⟩

def undo (l : Ledger) : LedgerOp → Except Error Ledger
  | put p => l.removeOutput p
  | spend outpoint _ => l.unspend outpoint

end LedgerOp

structure Cell where
  unspent : Option Output
  spent : Option SpentOutput
  deriving DecidableEq, Repr

def Ledger.cell (l : Ledger) (o : OutPoint) : Cell := ⟨l.utxos.tryGet o,l.stxos.tryGet o⟩

theorem Ledger.ext {l l' : Ledger} (same : ∀ o, l.cell o = l'.cell o) : l = l' := by
  have utxos : l.utxos = l'.utxos := Table.ext (fun o => congrArg Cell.unspent (same o))
  have stxos : l.stxos = l'.stxos := Table.ext (fun o => congrArg Cell.spent (same o))
  cases l
  cases l'
  simp_all

namespace Cell

def apply (c : Cell) : LedgerOp → Option Cell
  | .put p => some ⟨some p.output,c.spent⟩
  | .spend _ inpoint => c.unspent.map (fun output => ⟨none,some ⟨output,inpoint⟩⟩)

def undo (c : Cell) : LedgerOp → Option Cell
  | .put _ => c.unspent.map (fun _ => ⟨none,c.spent⟩)
  | .spend _ _ => c.spent.map (fun spentOutput => ⟨some spentOutput.output,none⟩)

end Cell

theorem applyLocal : Local Ledger.cell LedgerOp.key LedgerOp.apply Cell.apply where
  here := by
    intro l op l' ok
    cases op with
    | put p =>
        simp only [LedgerOp.apply,pureOk] at ok
        subst ok
        simp [Cell.apply,Ledger.cell,Ledger.putOutput,LedgerOp.key]
    | spend o inpoint =>
        simp only [LedgerOp.apply,bindOk,okOrOk,pureOk] at ok
        obtain ⟨output,found,rfl⟩ := ok
        simp [Cell.apply,Ledger.cell,LedgerOp.key,found]
  elsewhere := by
    intro l op l' k ok other
    cases op with
    | put p =>
        simp only [LedgerOp.apply,pureOk] at ok
        subst ok
        have away : k ≠ p.outpoint := other
        simp only [Ledger.cell,Ledger.putOutput,Table.tryGetPutOther away]
    | spend o inpoint =>
        simp only [LedgerOp.apply,bindOk,okOrOk,pureOk] at ok
        obtain ⟨output,found,rfl⟩ := ok
        have away : k ≠ o := other
        simp only [Ledger.cell,Table.tryGetDeleteOther away,Table.tryGetPutOther away]
  total := by
    intro l op c ok
    cases op with
    | put p => exact ⟨_,rfl⟩
    | spend o inpoint =>
        simp only [Cell.apply,Ledger.cell,LedgerOp.key,Option.map_eq_some_iff] at ok
        obtain ⟨output,found,_⟩ := ok
        simp only [LedgerOp.apply,bindOk,okOrOk,pureOk]
        exact ⟨_,output,found,rfl⟩

theorem undoLocal : Local Ledger.cell LedgerOp.key LedgerOp.undo Cell.undo where
  here := by
    intro l op l' ok
    cases op with
    | put p =>
        simp only [LedgerOp.undo,Ledger.removeOutput,bindOk,ensureOk,pureOk] at ok
        obtain ⟨_,present,rfl⟩ := ok
        obtain ⟨output,found⟩ := Option.isSome_iff_exists.mp present
        simp [Cell.undo,Ledger.cell,LedgerOp.key,found]
    | spend o inpoint =>
        simp only [LedgerOp.undo,Ledger.unspend,bindOk,okOrOk,pureOk] at ok
        obtain ⟨output,found,rfl⟩ := ok
        simp [Cell.undo,Ledger.cell,LedgerOp.key,found]
  elsewhere := by
    intro l op l' k ok other
    cases op with
    | put p =>
        simp only [LedgerOp.undo,Ledger.removeOutput,bindOk,ensureOk,pureOk] at ok
        obtain ⟨_,present,rfl⟩ := ok
        have away : k ≠ p.outpoint := other
        simp only [Ledger.cell,Table.tryGetDeleteOther away]
    | spend o inpoint =>
        simp only [LedgerOp.undo,Ledger.unspend,bindOk,okOrOk,pureOk] at ok
        obtain ⟨output,found,rfl⟩ := ok
        have away : k ≠ o := other
        simp only [Ledger.cell,Table.tryGetDeleteOther away,Table.tryGetPutOther away]
  total := by
    intro l op c ok
    cases op with
    | put p =>
        simp only [Cell.undo,Ledger.cell,LedgerOp.key,Option.map_eq_some_iff] at ok
        obtain ⟨output,found,_⟩ := ok
        simp only [LedgerOp.undo,Ledger.removeOutput,bindOk,ensureOk,pureOk]
        exact ⟨_,(),by simp [found],rfl⟩
    | spend o inpoint =>
        simp only [Cell.undo,Ledger.cell,LedgerOp.key,Option.map_eq_some_iff] at ok
        obtain ⟨output,found,_⟩ := ok
        simp only [LedgerOp.undo,Ledger.unspend,bindOk,okOrOk,pureOk]
        exact ⟨_,output,found,rfl⟩

section Blocks

variable {F : Type} (lib : Externals F)

def Transaction.spends (tx : Transaction) : List LedgerOp :=
  tx.inputs.zipIdx.map (fun input => .spend input.1.1 (.regular (tx.txid lib) (UInt32.ofNat input.2)))

def Transaction.ops (tx : Transaction) : List LedgerOp := tx.spends lib ++ (tx.createdOutputs lib).map .put

def blockOps (header : Header) (body : Body) : List LedgerOp :=
  (coinbaseOutputs header.merkleRoot body.coinbase).map .put ++ body.transactions.flatMap (Transaction.ops lib)

def connectCoins (header : Header) (body : Body) (l : Ledger) : Except Error Ledger :=
  body.transactions.foldlM (connectLedger lib)
    ((coinbaseOutputs header.merkleRoot body.coinbase).foldl Ledger.putOutput l)

def disconnectCoins (header : Header) (body : Body) (l : Ledger) : Except Error Ledger := do
  let coins ← body.transactions.reverse.foldlM (disconnectLedger lib) l
  (coinbaseOutputs header.merkleRoot body.coinbase).reverse.foldlM Ledger.removeOutput coins

variable {lib}

theorem foldPuts {ps : List PointedOutput} {l : Ledger} :
    (ps.map LedgerOp.put).foldlM LedgerOp.apply l = .ok (ps.foldl Ledger.putOutput l) := by
  induction ps generalizing l with
  | nil => rfl
  | cons p ps ih =>
      rw [List.map_cons,List.foldlM_cons]
      exact ih

theorem connectLedgerOps {tx : Transaction} {l : Ledger} :
    connectLedger lib l tx = (tx.ops lib).foldlM LedgerOp.apply l := by
  rw [Transaction.ops,List.foldlM_append,Transaction.spends,List.foldlM_map,connectLedger]
  refine bind_congr (fun spent => ?_)
  exact foldPuts.symm

theorem connectCoinsOps {header : Header} {body : Body} {l : Ledger} :
    connectCoins lib header body l = (blockOps lib header body).foldlM LedgerOp.apply l := by
  rw [blockOps,List.foldlM_append,foldPuts,okBind,connectCoins]
  generalize (coinbaseOutputs header.merkleRoot body.coinbase).foldl Ledger.putOutput l = start
  induction body.transactions generalizing start with
  | nil => rfl
  | cons tx txs ih =>
      rw [List.foldlM_cons,List.flatMap_cons,List.foldlM_append,connectLedgerOps]
      exact bind_congr (fun next => ih next)

theorem disconnectLedgerOps {tx : Transaction} {l : Ledger} :
    disconnectLedger lib l tx = (tx.ops lib).reverse.foldlM LedgerOp.undo l := by
  rw [Transaction.ops,List.reverse_append,List.foldlM_append,← List.map_reverse,List.foldlM_map,disconnectLedger]
  refine bind_congr (fun removed => ?_)
  have keys : (tx.inputs.map (·.1)).reverse = tx.inputs.zipIdx.reverse.map (·.1.1) := by
    have firsts := congrArg (List.map Prod.fst) (List.zipIdx_map_fst 0 tx.inputs)
    rw [List.map_map] at firsts
    rw [List.map_reverse]
    exact congrArg List.reverse firsts.symm
  rw [keys,List.foldlM_map,Transaction.spends,← List.map_reverse,List.foldlM_map]
  rfl

theorem disconnectCoinsOps {header : Header} {body : Body} {l : Ledger} :
    disconnectCoins lib header body l = (blockOps lib header body).reverse.foldlM LedgerOp.undo l := by
  rw [blockOps,List.reverse_append,List.foldlM_append,← List.map_reverse,disconnectCoins]
  have transactions : body.transactions.reverse.foldlM (disconnectLedger lib) l =
      (body.transactions.flatMap (Transaction.ops lib)).reverse.foldlM LedgerOp.undo l := by
    rw [List.reverse_flatMap]
    generalize body.transactions.reverse = txs
    induction txs generalizing l with
    | nil => rfl
    | cons tx txs ih =>
        rw [List.foldlM_cons,List.flatMap_cons,List.foldlM_append,disconnectLedgerOps]
        exact bind_congr (fun next => ih)
  rw [transactions]
  refine bind_congr (fun coins => ?_)
  rw [List.foldlM_map]
  rfl

end Blocks

section Spends

def spendKeys (ops : List LedgerOp) : List OutPoint := (ops.filter (! ·.isPut)).map LedgerOp.key

variable {F : Type} {lib : Externals F}

theorem spendKeysAppend {xs ys : List LedgerOp} : spendKeys (xs ++ ys) = spendKeys xs ++ spendKeys ys := by
  simp [spendKeys]

theorem spendKeysPuts {ps : List PointedOutput} : spendKeys (ps.map .put) = [] := by
  simp [spendKeys,List.filter_eq_nil_iff,LedgerOp.isPut]

theorem spendKeysTransaction {tx : Transaction} : spendKeys (tx.ops lib) = tx.inputs.map (·.1) := by
  rw [Transaction.ops,spendKeysAppend,spendKeysPuts,List.append_nil]
  have all : (tx.spends lib).filter (! ·.isPut) = tx.spends lib := by
    rw [List.filter_eq_self]
    intro op mem
    obtain ⟨input,_,rfl⟩ := List.mem_map.mp mem
    rfl
  have firsts := congrArg (List.map Prod.fst) (List.zipIdx_map_fst 0 tx.inputs)
  rw [List.map_map] at firsts
  rw [spendKeys,all,Transaction.spends,List.map_map]
  exact firsts

theorem spendKeysBlock {header : Header} {body : Body} : spendKeys (blockOps lib header body) = body.inputKeys := by
  rw [blockOps,spendKeysAppend,spendKeysPuts,List.nil_append,Body.inputKeys]
  induction body.transactions with
  | nil => rfl
  | cons tx txs ih => rw [List.flatMap_cons,spendKeysAppend,spendKeysTransaction,ih,List.flatMap_cons]

theorem spendKeysAt {ops : List LedgerOp} {o : OutPoint} :
    spendKeys (at_ LedgerOp.key o ops) = (spendKeys ops).filter (· = o) := by
  rw [spendKeys,spendKeys,at_,List.filter_map,List.filter_filter,List.filter_filter]
  congr 2
  funext op
  exact Bool.and_comm _ _

theorem cellTotal {ops : List LedgerOp} {c : Cell} (once : (spendKeys ops).length ≤ 1)
    (present : spendKeys ops ≠ [] → c.unspent.isSome) : ∃ c', ops.foldlM Cell.apply c = some c' := by
  induction ops generalizing c with
  | nil => exact ⟨c,rfl⟩
  | cons op ops ih =>
      rw [List.foldlM_cons]
      cases op with
      | put p => exact ih once (fun _ => rfl)
      | spend o inpoint =>
          have keys : spendKeys (.spend o inpoint :: ops) = o :: spendKeys ops := rfl
          rw [keys] at once present
          obtain ⟨output,found⟩ := Option.isSome_iff_exists.mp (present (by simp))
          have last : spendKeys ops = [] := by simpa using once
          have step : c.apply (.spend o inpoint) = some ⟨none,some ⟨output,inpoint⟩⟩ := by
            simp [Cell.apply,found]
          rw [step]
          exact ih (by simp [last]) (fun more => absurd last more)

theorem spendsOnceAt {header : Header} {body : Body} (distinct : body.inputKeys.Nodup) (o : OutPoint) :
    (spendKeys (at_ LedgerOp.key o (blockOps lib header body))).length ≤ 1 := by
  rw [spendKeysAt,spendKeysBlock]
  have count := List.nodup_iff_count_le_one.mp distinct o
  rwa [List.count_eq_length_filter] at count

theorem spendAt {header : Header} {body : Body} {o : OutPoint}
    (spent : spendKeys (at_ LedgerOp.key o (blockOps lib header body)) ≠ []) : o ∈ body.inputKeys := by
  rw [spendKeysAt,spendKeysBlock] at spent
  obtain ⟨key,mem⟩ := List.exists_mem_of_ne_nil _ spent
  obtain ⟨inside,same⟩ := List.mem_filter.mp mem
  obtain rfl : key = o := by simpa using same
  exact inside

theorem connectCoinsTotal {header : Header} {body : Body} {l : Ledger} (distinct : body.inputKeys.Nodup)
    (present : ∀ o ∈ body.inputKeys, (l.utxos.tryGet o).isSome) :
    ∃ coins, connectCoins lib header body l = .ok coins := by
  rw [connectCoinsOps]
  refine applyLocal.foldTotal (fun o => cellTotal (spendsOnceAt distinct o) ?_)
  intro spent
  exact present o (spendAt spent)

end Spends

end Coinshift
