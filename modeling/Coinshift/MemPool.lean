import Coinshift.Accumulator
import Coinshift.Worklist

/-! The pool of transactions that wait for a block.
`prove` stands for the accumulator's proof of a list of leaves; it fails when one of them is not in the forest. -/
namespace Coinshift
open Checked Worklist

structure MemPool where
  transactions : Table Txid AuthorizedTransaction
  spentUtxos : Table OutPoint Txid

inductive MemPoolError where
  | utxoDoubleSpent
  -- a queue that does not become empty
  | endless
  deriving DecidableEq, Repr

namespace MemPool

variable {F : Type} (lib : Externals F) (prove : F → List Hash → Except Text UtreexoProof)

def new : MemPool := ⟨∅,∅⟩

def spendInput (txid : Txid) (spentUtxos : Table OutPoint Txid) (input : OutPoint × Hash) :
    Except MemPoolError (Table OutPoint Txid) := do
  ensure ((spentUtxos.tryGet input.1).isNone) .utxoDoubleSpent
  pure (spentUtxos.put input.1 txid)

def put (pool : MemPool) (tx : AuthorizedTransaction) : Except MemPoolError MemPool := do
  let txid := tx.transaction.txid lib
  let spentUtxos ← tx.transaction.inputs.foldlM (spendInput txid) pool.spentUtxos
  pure ⟨pool.transactions.put txid tx,spentUtxos⟩

def remove (pool : MemPool) (txid : Txid) (tx : AuthorizedTransaction) : MemPool :=
  ⟨pool.transactions.delete txid,(tx.transaction.inputs.map (·.1)).foldl Table.delete pool.spentUtxos⟩

/- The transactions that spend an output of this one, as often as they do. -/
def children (pool : MemPool) (txid : Txid) (tx : AuthorizedTransaction) : List Txid :=
  (List.range tx.transaction.outputs.length).filterMap (fun vout =>
    pool.spentUtxos.tryGet (.regular txid (UInt32.ofNat vout)))

def deleteRound (pool : MemPool) (txid : Txid) : Except MemPoolError (MemPool × List Txid) :=
  match pool.transactions.tryGet txid with
  | none => .ok (pool,[])
  | some tx =>
      let pool := pool.remove txid tx
      .ok (pool,pool.children txid tx)

def outputCount (pool : MemPool) : Nat := pool.transactions.weigh (fun _ tx => tx.transaction.outputs.length)

/- Every output in the pool adds at most one transaction to the queue. -/
def delete (pool : MemPool) (txid : Txid) : Except MemPoolError MemPool :=
  drain deleteRound .endless (pool.outputCount + 1) pool [txid]

def regenerateProof (accumulator : F) (pool : MemPool) (txid : Txid) : Except MemPoolError MemPool :=
  match pool.transactions.tryGet txid with
  | none => .ok pool
  | some tx =>
      match prove accumulator (tx.transaction.inputs.map (·.2)) with
      | .ok proof =>
          .ok { pool with transactions :=
            pool.transactions.put txid { tx with transaction := { tx.transaction with proof } } }
      | .error _ => pool.delete txid

def regenerateProofs (pool : MemPool) (accumulator : F) : Except MemPoolError MemPool :=
  (pool.transactions.entries.map (·.1)).foldlM (regenerateProof prove accumulator) pool

variable {lib prove} {pool : MemPool} {txid : Txid}

theorem deleteRoundPaid (pool : MemPool) (txid : Txid) :
    ∃ pool' more, deleteRound pool txid = .ok (pool',more) ∧ pool'.outputCount + more.length ≤ pool.outputCount := by
  unfold deleteRound
  split
  · exact ⟨pool,[],rfl,Nat.le_refl _⟩
  · next tx found =>
      refine ⟨_,_,rfl,?_⟩
      have few : ((pool.remove txid tx).children txid tx).length ≤ tx.transaction.outputs.length :=
        (List.length_filterMap_le _ _).trans_eq List.length_range
      have gone : (pool.remove txid tx).outputCount + pool.transactions.weightAt _ txid = pool.outputCount :=
        Table.weighDelete
      rw [Table.weightAt,found,Option.elim_some] at gone
      omega

theorem deleteTotal : ∃ pool', pool.delete txid = .ok pool' :=
  drainPaid deleteRoundPaid (Nat.le_refl _)

theorem regenerateTotal {accumulator : F} : ∃ pool', pool.regenerateProofs prove accumulator = .ok pool' := by
  refine foldTotal (fun pool txid _ => ?_)
  unfold regenerateProof
  split
  · exact ⟨pool,rfl⟩
  · split
    · exact ⟨_,rfl⟩
    · exact deleteTotal

end MemPool

end Coinshift
