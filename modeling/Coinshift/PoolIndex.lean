import Coinshift.MemPool
import Coinshift.Reference
import Mathlib.Logic.Relation

/-! The index of the pool by spent output.
It lists the inputs of the transactions in the pool and nothing else, after any calls; so deleting a
transaction finds through it every transaction that depends on it, while it is being taken apart. -/
namespace Coinshift
open Checked Worklist

namespace MemPool

section Index

variable {F : Type} {lib : Externals F} {prove : F → List Hash → Except Text UtreexoProof} {pool pool' : MemPool}
  {txid : Txid} {tx : AuthorizedTransaction}

def spends (tx : AuthorizedTransaction) : List OutPoint := tx.transaction.inputs.map (·.1)

def Indexed (pool : MemPool) : Prop :=
  ∀ o txid, pool.spentUtxos.tryGet o = some txid ↔ ∃ tx, pool.transactions.tryGet txid = some tx ∧ o ∈ spends tx

theorem newIndexed : new.Indexed := by
  intro o txid
  simp [new]

theorem Indexed.one (indexed : pool.Indexed) {a b : Txid} {tx tx' : AuthorizedTransaction} {o : OutPoint}
    (foundA : pool.transactions.tryGet a = some tx) (foundB : pool.transactions.tryGet b = some tx')
    (spent : o ∈ spends tx) (spent' : o ∈ spends tx') : a = b := by
  have listed := (indexed o a).mpr ⟨tx,foundA,spent⟩
  rw [(indexed o b).mpr ⟨tx',foundB,spent'⟩] at listed
  exact (Option.some.inj listed).symm

theorem spendInputsOk {inputs : List (OutPoint × Hash)} {spent spent' : Table OutPoint Txid}
    (ok : inputs.foldlM (spendInput txid) spent = .ok spent') :
    (∀ o ∈ inputs.map (·.1), spent.tryGet o = none) ∧
      ∀ o, spent'.tryGet o = if o ∈ inputs.map (·.1) then some txid else spent.tryGet o := by
  induction inputs generalizing spent with
  | nil =>
      cases foldNilOk.mp ok
      simp
  | cons input rest ih =>
      obtain ⟨middle,first,more⟩ := foldConsOk.mp ok
      simp only [spendInput,bindOk,ensureOk,pureOk,Option.isNone_iff_eq_none] at first
      obtain ⟨_,free,rfl⟩ := first
      obtain ⟨later,after⟩ := ih more
      simp only [Table.tryGetPut] at later after
      refine ⟨fun o mem => ?_,fun o => ?_⟩
      · rw [List.map_cons,List.mem_cons] at mem
        rcases mem with rfl | inside
        · exact free
        · have := later o inside
          split at this
          · cases this
          · exact this
      · rw [after o,List.map_cons]
        by_cases inside : o ∈ rest.map (·.1)
        · rw [if_pos inside,if_pos (List.mem_cons_of_mem _ inside)]
        · rw [if_neg inside]
          simp [inside]

structure PutSource (lib : Externals F) (pool : MemPool) (tx : AuthorizedTransaction) (pool' : MemPool) : Prop where
  free : ∀ o ∈ spends tx, pool.spentUtxos.tryGet o = none
  spent : ∀ o, pool'.spentUtxos.tryGet o = if o ∈ spends tx then some (tx.transaction.txid lib) else pool.spentUtxos.tryGet o
  transactions : pool'.transactions = pool.transactions.put (tx.transaction.txid lib) tx

theorem putSource (ok : pool.put lib tx = .ok pool') : PutSource lib pool tx pool' := by
  simp only [put,bindOk,pureOk] at ok
  obtain ⟨spent,spends,rfl⟩ := ok
  obtain ⟨free,after⟩ := spendInputsOk spends
  exact ⟨free,after,rfl⟩

theorem Indexed.put (indexed : pool.Indexed) (ok : pool.put lib tx = .ok pool')
    (same : ∀ old, pool.transactions.tryGet (tx.transaction.txid lib) = some old → spends old = spends tx) :
    pool'.Indexed := by
  have source := putSource ok
  -- an older transaction of this id would have its outputs listed
  have replaced : ∀ old, pool.transactions.tryGet (tx.transaction.txid lib) = some old → spends old = [] := by
    intro old found
    refine List.eq_nil_iff_forall_not_mem.mpr (fun o spent => ?_)
    have listed := (indexed o _).mpr ⟨old,found,spent⟩
    rw [source.free o (same old found ▸ spent)] at listed
    cases listed
  intro o txid
  rw [source.spent,source.transactions]
  simp only [Table.tryGetPut]
  by_cases own : txid = tx.transaction.txid lib
  · subst own
    simp only [if_true,Option.some_inj,exists_eq_left']
    by_cases spent : o ∈ spends tx
    · simp [spent]
    · simp only [spent,iff_false]
      intro listed
      obtain ⟨old,found,inside⟩ := (indexed o _).mp listed
      rw [replaced old found] at inside
      cases inside
  · simp only [if_neg own]
    by_cases spent : o ∈ spends tx
    · rw [if_pos spent]
      refine iff_of_false (fun equal => own (Option.some.inj equal).symm) ?_
      rintro ⟨other,found,inside⟩
      have listed := (indexed o txid).mpr ⟨other,found,inside⟩
      rw [source.free o spent] at listed
      cases listed
    · rw [if_neg spent]
      exact indexed o txid

theorem Indexed.remove (indexed : pool.Indexed) (found : pool.transactions.tryGet txid = some tx) :
    (pool.remove txid tx).Indexed := by
  intro o other
  simp only [MemPool.remove,Table.tryGetDeletes,Table.tryGetDelete]
  by_cases own : other = txid
  · subst own
    simp only [if_true,reduceCtorEq,false_and,exists_false,iff_false]
    split
    · simp
    · next apart =>
        intro listed
        obtain ⟨tx',found',inside⟩ := (indexed o other).mp listed
        cases found.symm.trans found'
        exact apart inside
  · simp only [if_neg own]
    split
    · next spent =>
        refine iff_of_false (fun equal => nomatch equal) ?_
        rintro ⟨tx',found',inside⟩
        exact own (indexed.one found' found inside spent)
    · exact indexed o other

theorem Indexed.reprove {proof : UtreexoProof} (indexed : pool.Indexed) (found : pool.transactions.tryGet txid = some tx) :
    Indexed { pool with transactions :=
      pool.transactions.put txid { tx with transaction := { tx.transaction with proof } } } := by
  intro o other
  simp only [Table.tryGetPut]
  by_cases own : other = txid
  · subst own
    rw [if_pos rfl]
    refine (indexed o other).trans ⟨?_,?_⟩
    · rintro ⟨tx',found',inside⟩
      cases found.symm.trans found'
      exact ⟨_,rfl,inside⟩
    · rintro ⟨tx',same,inside⟩
      cases same
      exact ⟨tx,found,inside⟩
  · rw [if_neg own]
    exact indexed o other

end Index

section Descendants

variable {pool pool' : MemPool} {txid : Txid} {tx : AuthorizedTransaction}

def Child (pool : MemPool) (parent child : Txid) : Prop :=
  ∃ (tx : AuthorizedTransaction) (vout : UInt32) (spender : AuthorizedTransaction),
    pool.transactions.tryGet parent = some tx ∧ vout.toNat < tx.transaction.outputs.length ∧
    pool.transactions.tryGet child = some spender ∧ .regular parent vout ∈ spends spender

def Descends (pool : MemPool) : Txid → Txid → Prop := Relation.ReflTransGen (Child pool)

theorem memChildren {child : Txid} : child ∈ pool.children txid tx ↔
    ∃ vout : UInt32, vout.toNat < tx.transaction.outputs.length ∧ pool.spentUtxos.tryGet (.regular txid vout) = some child := by
  simp only [children,List.mem_filterMap,List.mem_range]
  constructor
  · rintro ⟨n,small,listed⟩
    refine ⟨UInt32.ofNat n,?_,listed⟩
    rw [UInt32.toNat_ofNat']
    exact Nat.lt_of_le_of_lt (Nat.mod_le _ _) small
  · rintro ⟨vout,small,listed⟩
    exact ⟨vout.toNat,small,by rwa [UInt32.ofNat_toNat]⟩

/- The walk so far: what is gone descends from the transaction deleted, and what a gone transaction has for
children is gone or waits in the queue. -/
structure Deleting (start : MemPool) (txid : Txid) (pool : MemPool) (queue : List Txid) : Prop where
  indexed : pool.Indexed
  fate : ∀ t, pool.transactions.tryGet t = start.transactions.tryGet t ∨
    pool.transactions.tryGet t = none ∧ start.Descends txid t
  queued : ∀ t ∈ queue, start.Descends txid t
  closed : ∀ parent child, start.Child parent child → pool.transactions.tryGet parent = none →
    child ∈ queue ∨ pool.transactions.tryGet child = none
  root : txid ∈ queue ∨ pool.transactions.tryGet txid = none

theorem Deleting.start (indexed : pool.Indexed) : Deleting pool txid pool [txid] where
  indexed := indexed
  fate _ := .inl rfl
  queued t mem := List.mem_singleton.mp mem ▸ .refl
  closed parent child isChild gone := by
    obtain ⟨_,_,_,found,_⟩ := isChild
    rw [gone] at found
    cases found
  root := .inl List.mem_cons_self

theorem Deleting.next {start : MemPool} {k : Txid} {queue more : List Txid}
    (walk : Deleting start txid pool (k :: queue)) (done : pool.deleteRound k = .ok (pool',more)) :
    Deleting start txid pool' (queue ++ more) := by
  have reached := walk.queued k List.mem_cons_self
  -- the transaction just taken is gone after the round, whether it was there or not
  have later {pool : MemPool} {t : Txid} {more : List Txid} (gone : pool.transactions.tryGet k = none)
      (waits : t ∈ k :: queue ∨ pool.transactions.tryGet t = none) :
      t ∈ queue ++ more ∨ pool.transactions.tryGet t = none := by
    rcases waits with mem | isGone
    · rcases List.mem_cons.mp mem with rfl | mem
      · exact .inr gone
      · exact .inl (List.mem_append_left more mem)
    · exact .inr isGone
  unfold deleteRound at done
  split at done
  · next gone =>
      cases done
      refine ⟨walk.indexed,walk.fate,fun t mem => ?_,fun parent child isChild isGone => ?_,later gone walk.root⟩
      · rw [List.append_nil] at mem
        exact walk.queued t (List.mem_cons_of_mem k mem)
      · exact later gone (walk.closed parent child isChild isGone)
  · next tx found =>
      cases done
      have here : start.transactions.tryGet k = some tx := by
        rcases walk.fate k with same | ⟨gone,_⟩
        · rw [← same,found]
        · rw [found] at gone
          cases gone
      have indexed := walk.indexed.remove found
      have removed : (pool.remove k tx).transactions.tryGet k = none := Table.tryGetDeleteSelf
      have kept {t : Txid} (other : t ≠ k) : (pool.remove k tx).transactions.tryGet t = pool.transactions.tryGet t :=
        Table.tryGetDeleteOther other
      have stays {t : Txid} (gone : pool.transactions.tryGet t = none) : (pool.remove k tx).transactions.tryGet t = none := by
        by_cases same : t = k
        · rw [same,removed]
        · rw [kept same,gone]
      have fate : ∀ t, (pool.remove k tx).transactions.tryGet t = start.transactions.tryGet t ∨
          (pool.remove k tx).transactions.tryGet t = none ∧ start.Descends txid t := by
        intro t
        by_cases same : t = k
        · exact .inr ⟨same ▸ removed,same ▸ reached⟩
        · rw [kept same]
          exact walk.fate t
      refine ⟨indexed,fate,fun t mem => ?_,fun parent child isChild isGone => ?_,?_⟩
      · rcases List.mem_append.mp mem with mem | mem
        · exact walk.queued t (List.mem_cons_of_mem k mem)
        · obtain ⟨vout,small,listed⟩ := memChildren.mp mem
          obtain ⟨spender,present,spent⟩ := (indexed _ _).mp listed
          have original : start.transactions.tryGet t = some spender := by
            rcases fate t with same | ⟨gone,_⟩
            · rw [← same,present]
            · rw [present] at gone
              cases gone
          exact reached.tail ⟨tx,vout,spender,here,small,original,spent⟩
      · by_cases same : parent = k
        · subst same
          obtain ⟨tx',vout,spender,found',small,original,spent⟩ := isChild
          cases here.symm.trans found'
          rcases fate child with same | ⟨gone,_⟩
          · refine .inl (List.mem_append_right queue (memChildren.mpr ⟨vout,small,?_⟩))
            exact (indexed _ _).mpr ⟨spender,same.trans original,spent⟩
          · exact .inr gone
        · rw [kept same] at isGone
          exact later removed ((walk.closed parent child isChild isGone).imp_right stays)
      · exact later removed (walk.root.imp_right stays)

structure Deleted (start : MemPool) (txid : Txid) (pool : MemPool) : Prop where
  indexed : pool.Indexed
  gone : ∀ t, start.Descends txid t → pool.transactions.tryGet t = none
  kept : ∀ t, ¬ start.Descends txid t → pool.transactions.tryGet t = start.transactions.tryGet t

theorem deleteExact (indexed : pool.Indexed) (ok : pool.delete txid = .ok pool') : Deleted pool txid pool' := by
  have walk : Deleting pool txid pool' [] :=
    drainInvariant (fun _ _ _ _ _ walk done => walk.next done) (.start indexed) ok
  refine ⟨walk.indexed,fun t descends => ?_,fun t apart => ?_⟩
  · induction descends with
    | refl => exact walk.root.resolve_left (List.not_mem_nil)
    | tail _ isChild ih => exact (walk.closed _ _ isChild ih).resolve_left (List.not_mem_nil)
  · exact (walk.fate t).resolve_right (fun gone => apart gone.2)

theorem Deleted.entries (deleted : Deleted pool txid pool') (indexed : pool.Indexed) (o : OutPoint) (t : Txid) :
    pool'.spentUtxos.tryGet o = some t ↔ pool.spentUtxos.tryGet o = some t ∧ ¬ pool.Descends txid t := by
  rw [deleted.indexed o t,indexed o t]
  constructor
  · rintro ⟨tx,found,spent⟩
    have apart : ¬ pool.Descends txid t := by
      intro descends
      rw [deleted.gone t descends] at found
      cases found
    exact ⟨⟨tx,deleted.kept t apart ▸ found,spent⟩,apart⟩
  · rintro ⟨⟨tx,found,spent⟩,apart⟩
    exact ⟨tx,(deleted.kept t apart).trans found,spent⟩

end Descendants

section Runs

inductive PoolOp (F : Type) where
  | put (tx : AuthorizedTransaction)
  | delete (txid : Txid)
  | regenerateProofs (accumulator : F)

variable {F : Type} (lib : Externals F) (prove : F → List Hash → Except Text UtreexoProof)

def PoolOp.apply (pool : MemPool) : PoolOp F → Except MemPoolError MemPool
  | .put tx => pool.put lib tx
  | .delete txid => pool.delete txid
  | .regenerateProofs accumulator => pool.regenerateProofs prove accumulator

def PoolOp.transaction : PoolOp F → Option Transaction
  | .put tx => some tx.transaction
  | _ => none

/- The hash has no collision among the transactions: one id, one list of inputs. -/
def TxidsApart (txs : List Transaction) : Prop :=
  ∀ a ∈ txs, ∀ b ∈ txs, a.txid lib = b.txid lib → a.inputs = b.inputs

structure Pooled (txs : List Transaction) (pool : MemPool) : Prop where
  indexed : pool.Indexed
  keyed : ∀ txid tx, pool.transactions.tryGet txid = some tx →
    ∃ original ∈ txs, original.txid lib = txid ∧ original.inputs = tx.transaction.inputs

variable {lib prove} {pool pool' : MemPool} {txid : Txid} {tx : AuthorizedTransaction} {txs : List Transaction}

theorem Pooled.put (pooled : Pooled lib txs pool) (apart : TxidsApart lib txs)
    (mem : ∃ original ∈ txs, original.txid lib = tx.transaction.txid lib ∧ original.inputs = tx.transaction.inputs)
    (ok : pool.put lib tx = .ok pool') : Pooled lib txs pool' := by
  obtain ⟨own,isOwn,ownId,ownInputs⟩ := mem
  refine ⟨pooled.indexed.put ok (fun old found => ?_),fun txid tx' found => ?_⟩
  · obtain ⟨original,isPut,sameId,sameInputs⟩ := pooled.keyed _ old found
    rw [spends,spends,← sameInputs,← ownInputs,apart original isPut own isOwn (sameId.trans ownId.symm)]
  · rw [(putSource ok).transactions,Table.tryGetPut] at found
    split at found
    · next here =>
        cases found
        exact ⟨own,isOwn,ownId.trans here.symm,ownInputs⟩
    · exact pooled.keyed txid tx' found

theorem Pooled.delete (pooled : Pooled lib txs pool) (ok : pool.delete txid = .ok pool') : Pooled lib txs pool' := by
  have deleted := deleteExact pooled.indexed ok
  refine ⟨deleted.indexed,fun t tx found => ?_⟩
  by_cases descends : pool.Descends txid t
  · rw [deleted.gone t descends] at found
    cases found
  · rw [deleted.kept t descends] at found
    exact pooled.keyed t tx found

theorem Pooled.regenerateProof {accumulator : F} (pooled : Pooled lib txs pool)
    (ok : pool.regenerateProof prove accumulator txid = .ok pool') : Pooled lib txs pool' := by
  unfold MemPool.regenerateProof at ok
  split at ok
  · cases ok
    exact pooled
  · next tx found =>
      split at ok
      · next proof proved =>
          cases ok
          refine ⟨pooled.indexed.reprove found,fun t tx' found' => ?_⟩
          rw [Table.tryGetPut] at found'
          split at found'
          · next own =>
              cases found'
              exact own ▸ pooled.keyed txid tx found
          · exact pooled.keyed t tx' found'
      · exact pooled.delete ok

theorem Pooled.run {ops : List (PoolOp F)} (apart : TxidsApart lib (ops.filterMap PoolOp.transaction))
    (ok : ops.foldlM (PoolOp.apply lib prove) new = .ok pool) : Pooled lib (ops.filterMap PoolOp.transaction) pool := by
  have start : Pooled lib (ops.filterMap PoolOp.transaction) new :=
    ⟨newIndexed,fun txid tx found => by simp [new] at found⟩
  refine foldInvariant (fun pool op pool' mem pooled applied => ?_) start ok
  cases op with
  | put tx => exact pooled.put apart ⟨tx.transaction,List.mem_filterMap.mpr ⟨_,mem,rfl⟩,rfl,rfl⟩ applied
  | delete txid => exact pooled.delete applied
  | regenerateProofs accumulator =>
      exact foldInvariant (fun _ _ _ _ before done => before.regenerateProof done) pooled applied

theorem poolIndexExact {ops : List (PoolOp F)} (apart : TxidsApart lib (ops.filterMap PoolOp.transaction))
    (ok : ops.foldlM (PoolOp.apply lib prove) new = .ok pool) :
    (∀ o txid, pool.spentUtxos.tryGet o = some txid ↔
      ∃ tx, pool.transactions.tryGet txid = some tx ∧ o ∈ spends tx) ∧
    (∀ a b tx tx', pool.transactions.tryGet a = some tx → pool.transactions.tryGet b = some tx' → a ≠ b →
      ∀ o ∈ spends tx, o ∉ spends tx') ∧
    ∀ txid, ∃ pool', pool.delete txid = .ok pool' ∧
      (∀ t, pool.Descends txid t → pool'.transactions.tryGet t = none) ∧
      (∀ t, ¬ pool.Descends txid t → pool'.transactions.tryGet t = pool.transactions.tryGet t) ∧
      ∀ o t, pool'.spentUtxos.tryGet o = some t ↔ pool.spentUtxos.tryGet o = some t ∧ ¬ pool.Descends txid t := by
  have indexed := (Pooled.run apart ok).indexed
  refine ⟨indexed,fun a b tx tx' foundA foundB differ o spent spent' => ?_,fun txid => ?_⟩
  · exact differ (indexed.one foundA foundB spent spent')
  · obtain ⟨pool',done⟩ := @deleteTotal pool txid
    have deleted := deleteExact indexed done
    exact ⟨pool',done,deleted.gone,deleted.kept,deleted.entries indexed⟩

end Runs

end MemPool

namespace Reference
open MemPool

def proveHeld (forest : Forest) (targets : List Hash) : Except Text UtreexoProof :=
  if targets.all (· ∈ forest) then .ok ⟨[],[]⟩ else .error []

def payFirst : Transaction := transaction [deposited 1 (coin alice 1000)] [coin bob 900] .regular

def payOn : Transaction := transaction [outputOf payFirst 0 (coin bob 900)] [coin alice 800] .regular

def payApart : Transaction := transaction [deposited 2 (coin bob 500)] [coin alice 400] .regular

def poolOps : List (PoolOp Forest) :=
  [.put ⟨payFirst,[]⟩,.put ⟨payOn,[]⟩,.put ⟨payApart,[]⟩,.delete (payApart.txid externals),.put ⟨payApart,[]⟩]

def pooled (ops : List (PoolOp Forest)) (check : MemPool → Bool) : Bool :=
  match ops.foldlM (PoolOp.apply externals proveHeld) MemPool.new with
  | .ok pool => check pool
  | .error _ => false

theorem pooledRun {ops : List (PoolOp Forest)} {check : MemPool → Bool} (ok : pooled ops check = true) :
    ∃ pool, ops.foldlM (PoolOp.apply externals proveHeld) MemPool.new = .ok pool ∧ check pool = true := by
  unfold pooled at ok
  split at ok
  · next pool ran => exact ⟨pool,ran,ok⟩
  · cases ok

theorem paymentDeletedWithChild : ∃ pool pool' : MemPool,
    poolOps.foldlM (PoolOp.apply externals proveHeld) MemPool.new = .ok pool ∧
    pool.delete (payFirst.txid externals) = .ok pool' ∧
    pool.transactions.tryGet (payOn.txid externals) = some ⟨payOn,[]⟩ ∧
    pool'.transactions.tryGet (payOn.txid externals) = none := by
  have ran : pooled poolOps (fun pool => pool.transactions.tryGet (payFirst.txid externals) = some ⟨payFirst,[]⟩ &&
      pool.transactions.tryGet (payOn.txid externals) = some ⟨payOn,[]⟩) = true := by decide +kernel
  have apart : TxidsApart externals (poolOps.filterMap PoolOp.transaction) := by
    unfold TxidsApart
    decide +kernel
  obtain ⟨pool,ok,found⟩ := pooledRun ran
  simp only [Bool.and_eq_true,decide_eq_true_eq] at found
  obtain ⟨_,_,deletes⟩ := poolIndexExact apart ok
  obtain ⟨pool',done,gone,_⟩ := deletes (payFirst.txid externals)
  have child : pool.Child (payFirst.txid externals) (payOn.txid externals) :=
    ⟨_,0,_,found.1,by decide,found.2,by decide +kernel⟩
  exact ⟨pool,pool',ok,done,found.2,gone _ (.single child)⟩

end Reference
end Coinshift
