import Coinshift.AccumulatorMirror
import Coinshift.Submission

/-! The pool across changes of tip.
A connected block takes its own transactions out of the pool, and conflicting ones only through their proofs; a
disconnected block puts its transactions back before the proofs are made again. -/
namespace Coinshift.MemPool
open Checked

variable {F : Type} {lib : Externals F} {prove : F → List Hash → Except Text UtreexoProof} {pool pool' : MemPool}
  {txid : Txid} {txs : List Transaction} {accumulator : F}

def Within (start pool : MemPool) : Prop :=
  ∀ txid tx, pool.transactions.tryGet txid = some tx →
    ∃ old, start.transactions.tryGet txid = some old ∧ old.transaction.inputs = tx.transaction.inputs

theorem Within.refl : Within pool pool := fun _ tx found => ⟨tx,found,rfl⟩

theorem Within.trans {pool'' : MemPool} (first : Within pool pool') (second : Within pool' pool'') : Within pool pool'' := by
  intro txid tx found
  obtain ⟨middle,isMiddle,same⟩ := second txid tx found
  obtain ⟨old,isOld,same'⟩ := first txid middle isMiddle
  exact ⟨old,isOld,same'.trans same⟩

theorem Deleted.within (deleted : Deleted pool txid pool') : Within pool pool' := by
  intro t tx found
  by_cases descends : pool.Descends txid t
  · rw [deleted.gone t descends] at found
    cases found
  · exact ⟨tx,deleted.kept t descends ▸ found,rfl⟩

theorem Pooled.deletes {txids : List Txid} (pooled : Pooled lib txs pool) (ok : txids.foldlM MemPool.delete pool = .ok pool') :
    Pooled lib txs pool' ∧ Within pool pool' := by
  refine foldInvariant (P := fun now => Pooled lib txs now ∧ Within pool now) ?_ ⟨pooled,.refl⟩ ok
  intro now txid next _ ⟨before,within⟩ deleted
  exact ⟨before.delete deleted,within.trans (deleteExact before.indexed deleted).within⟩

def Provable (prove : F → List Hash → Except Text UtreexoProof) (accumulator : F) (tx : Transaction) : Prop :=
  ∃ proof, prove accumulator (tx.inputs.map (·.2)) = .ok proof

theorem Pooled.regenerated (pooled : Pooled lib txs pool) (ok : pool.regenerateProof prove accumulator txid = .ok pool') :
    Within pool pool' ∧ ∀ tx, pool'.transactions.tryGet txid = some tx → Provable prove accumulator tx.transaction := by
  unfold MemPool.regenerateProof at ok
  split at ok
  · next missing =>
      cases ok
      refine ⟨.refl,fun tx found => ?_⟩
      rw [missing] at found
      cases found
  · next tx present =>
      split at ok
      · next proof proved =>
          cases ok
          refine ⟨fun t other found => ?_,fun other found => ?_⟩ <;> rw [Table.tryGetPut] at found
          · split at found
            · next own =>
                cases found
                exact ⟨tx,own ▸ present,rfl⟩
            · exact ⟨other,found,rfl⟩
          · rw [if_pos rfl] at found
            cases found
            exact ⟨proof,proved⟩
      · have deleted := deleteExact pooled.indexed ok
        refine ⟨deleted.within,fun other found => ?_⟩
        rw [deleted.gone txid .refl] at found
        cases found

theorem Pooled.allRegenerated (pooled : Pooled lib txs pool) (ok : pool.regenerateProofs prove accumulator = .ok pool') :
    Pooled lib txs pool' ∧ Within pool pool' ∧
      ∀ txid tx, pool'.transactions.tryGet txid = some tx → Provable prove accumulator tx.transaction := by
  have walk : Pooled lib txs pool' ∧ Within pool pool' ∧ ∀ txid ∈ pool.transactions.entries.map (·.1), ∀ tx,
      pool'.transactions.tryGet txid = some tx → Provable prove accumulator tx.transaction := by
    refine foldHistory (P := fun done now => Pooled lib txs now ∧ Within pool now ∧ ∀ txid ∈ done, ∀ tx,
      now.transactions.tryGet txid = some tx → Provable prove accumulator tx.transaction)
      ⟨pooled,.refl,fun _ mem => nomatch mem⟩ ?_ ok
    intro done txid rest now next _ _ regenerated ⟨before,within,proved⟩
    obtain ⟨less,own⟩ := before.regenerated regenerated
    refine ⟨before.regenerateProof regenerated,within.trans less,fun t mem tx found => ?_⟩
    rcases List.mem_append.mp mem with earlier | last
    · obtain ⟨old,isOld,same⟩ := less t tx found
      have was := proved t earlier old isOld
      rwa [Provable,same] at was
    · cases List.mem_singleton.mp last
      exact own tx found
  obtain ⟨after,within,proved⟩ := walk
  refine ⟨after,within,fun txid tx found => proved txid ?_ tx found⟩
  obtain ⟨old,isOld,_⟩ := within txid tx found
  exact List.mem_map.mpr ⟨(txid,old),Table.memEntries.mpr isOld,rfl⟩

theorem spendInputsTotal {inputs : List (OutPoint × Hash)} {spent : Table OutPoint Txid}
    (free : ∀ o ∈ inputs.map (·.1), spent.tryGet o = none) (distinct : (inputs.map (·.1)).Nodup) :
    ∃ spent', inputs.foldlM (spendInput txid) spent = .ok spent' := by
  induction inputs generalizing spent with
  | nil => exact ⟨spent,rfl⟩
  | cons input rest ih =>
      rw [List.map_cons,List.nodup_cons] at distinct
      have here : spendInput txid spent input = .ok (spent.put input.1 txid) := by
        have isFree := free input.1 List.mem_cons_self
        simp only [spendInput,isFree,ensure,Option.isNone_none,if_true,okBind]
        rfl
      have later : ∀ o ∈ rest.map (·.1), (spent.put input.1 txid).tryGet o = none := by
        intro o mem
        have other : o ≠ input.1 := fun same => distinct.1 (same ▸ mem)
        rw [Table.tryGetPutOther other]
        exact free o (List.mem_cons_of_mem _ mem)
      obtain ⟨spent',more⟩ := ih later distinct.2
      exact ⟨spent',foldConsOk.mpr ⟨_,here,more⟩⟩

theorem putsTotal {more : List AuthorizedTransaction} (free : ∀ o ∈ more.flatMap spends, pool.spentUtxos.tryGet o = none)
    (distinct : (more.flatMap spends).Nodup) : ∃ pool', more.foldlM (put lib) pool = .ok pool' := by
  induction more generalizing pool with
  | nil => exact ⟨pool,rfl⟩
  | cons tx rest ih =>
      rw [List.flatMap_cons] at free distinct
      obtain ⟨own,others,apart⟩ := List.nodup_append.mp distinct
      obtain ⟨spent,isSpent⟩ := @spendInputsTotal (tx.transaction.txid lib) tx.transaction.inputs pool.spentUtxos
        (fun o mem => free o (List.mem_append_left _ mem)) own
      have first : pool.put lib tx = .ok ⟨pool.transactions.put (tx.transaction.txid lib) tx,spent⟩ := by
        simp only [put,isSpent,okBind]
        rfl
      have source := putSource first
      have later : ∀ o ∈ rest.flatMap spends, spent.tryGet o = none := by
        intro o mem
        rw [source.spent o,if_neg (fun taken => apart o taken o mem rfl)]
        exact free o (List.mem_append_right _ mem)
      obtain ⟨pool',done⟩ := @ih ⟨pool.transactions.put (tx.transaction.txid lib) tx,spent⟩ later others
      exact ⟨pool',foldConsOk.mpr ⟨_,first,done⟩⟩

end Coinshift.MemPool

namespace Coinshift.NetTask
open Checked

section Runs

/- What a node does to its database: a call, a change of tip, or news for the archive. Bodies are stored with the
blocks that are connected. -/
inductive NodeStep (F : Type) where
  | submitTransaction (tx : AuthorizedTransaction)
  | connectTip_ (header : Header) (body : Body) (twoWayPegData : TwoWayPegData) (rpc : RpcReplies)
  | disconnectTip_
  | learn (archive : Archive F)

variable {F : Type} (lib : Externals F) (ctxt : BatchVerificationContext)
  (prove : F → List Hash → Except Text UtreexoProof)

def NodeStep.apply (db : Db F) : NodeStep F → Db F
  | .submitTransaction tx => (NetTask.submitTransaction lib ctxt prove db tx).1
  | .connectTip_ header body twoWayPegData rpc =>
      (NetTask.connectTip_ lib ctxt prove db header body twoWayPegData rpc).toOption.getD db
  | .disconnectTip_ => (NetTask.disconnectTip_ lib prove db).toOption.getD db
  | .learn archive => { db with archive := { archive with bodies := db.archive.bodies } }

def visits : List (NodeStep F) → Db F → List (Db F)
  | [], db => [db]
  | step :: steps, db => db :: visits steps (step.apply lib ctxt prove db)

def NodeStep.transactions : NodeStep F → List Transaction
  | .submitTransaction tx => [tx.transaction]
  | .connectTip_ _ body _ _ => body.transactions
  | _ => []

def unspentIn (dbs : List (Db F)) : List PointedOutput :=
  dbs.flatMap (fun db => db.state.utxos.entries.map (fun entry => ⟨entry.1,entry.2⟩))

end Runs

section Invariant

variable {F : Type} {lib : Externals F} {ctxt : BatchVerificationContext}
  {prove : F → List Hash → Except Text UtreexoProof} {holds : F → Hash → Prop} {made : List PointedOutput}
  {txs : List Transaction} {db db' : Db F} {s : State F} {tx : Transaction}

/- What `prove` promises: it proves exactly the lists of leaves. -/
def ProvesLeaves (prove : F → List Hash → Except Text UtreexoProof) (holds : F → Hash → Prop) : Prop :=
  ∀ forest targets, (∃ proof, prove forest targets = .ok proof) ↔ ∀ x ∈ targets, holds forest x

def Hashed (lib : Externals F) (made : List PointedOutput) (tx : Transaction) : Prop :=
  ∀ input ∈ tx.inputs, ∃ output, ⟨input.1,output⟩ ∈ made ∧ input.2 = utxoHash lib ⟨input.1,output⟩

def UnspentFrom (made : List PointedOutput) (s : State F) : Prop := ∀ o y, s.utxos.tryGet o = some y → ⟨o,y⟩ ∈ made

def SpendsCurrent (db : Db F) : Prop :=
  ∀ txid tx, db.mempool.transactions.tryGet txid = some tx → ∀ o ∈ MemPool.spends tx,
    (db.state.utxos.tryGet o).isSome = true

structure Tended (lib : Externals F) (made : List PointedOutput) (txs : List Transaction) (db : Db F) : Prop where
  pooled : MemPool.Pooled lib txs db.mempool
  hashed : ∀ txid tx, db.mempool.transactions.tryGet txid = some tx → Hashed lib made tx.transaction
  current : SpendsCurrent db
  bodies : ∀ blockHash body, db.archive.bodies.tryGet blockHash = some body →
    body.inputKeys.Nodup ∧ ∀ tx ∈ body.transactions, tx ∈ txs ∧ Hashed lib made tx

theorem provedCurrent (leaves : ProvesLeaves prove holds) (apart : LeavesApart lib made)
    (mirrors : AccumulatorMirrors lib holds s) (unspent : UnspentFrom made s) (hashed : Hashed lib made tx)
    (proved : MemPool.Provable prove (s.accumulator lib) tx) {o : OutPoint} (mem : o ∈ tx.inputs.map (·.1)) :
    (s.utxos.tryGet o).isSome = true := by
  obtain ⟨input,inside,rfl⟩ := List.mem_map.mp mem
  obtain ⟨output,isMade,named⟩ := hashed input inside
  have leaf := (leaves _ _).mp proved input.2 (List.mem_map_of_mem inside)
  obtain ⟨o,y,found,same⟩ := (mirrors input.2).mp leaf
  have here : o = input.1 := apart _ (unspent o y found) _ isMade (same.trans named)
  rw [← here,found]
  rfl

theorem Hashed.within {other : Transaction} (hashed : Hashed lib made tx) (same : tx.inputs = other.inputs) :
    Hashed lib made other := by
  unfold Hashed at hashed ⊢
  rwa [same] at hashed

theorem tendedPool (leaves : ProvesLeaves prove holds) (apart : LeavesApart lib made)
    (mirrors : AccumulatorMirrors lib holds db'.state) (unspent : UnspentFrom made db'.state) {pool : MemPool}
    (pooled : MemPool.Pooled lib txs pool)
    (hashed : ∀ txid tx, pool.transactions.tryGet txid = some tx → Hashed lib made tx.transaction)
    (regenerated : pool.regenerateProofs prove (db'.state.accumulator lib) = .ok db'.mempool)
    (bodies : ∀ blockHash body, db'.archive.bodies.tryGet blockHash = some body →
      body.inputKeys.Nodup ∧ ∀ tx ∈ body.transactions, tx ∈ txs ∧ Hashed lib made tx) : Tended lib made txs db' := by
  obtain ⟨after,within,proved⟩ := pooled.allRegenerated regenerated
  have kept : ∀ txid tx, db'.mempool.transactions.tryGet txid = some tx → Hashed lib made tx.transaction := by
    intro txid tx found
    obtain ⟨old,isOld,same⟩ := within txid tx found
    exact (hashed txid old isOld).within same
  exact ⟨after,kept,fun txid tx found o mem =>
    provedCurrent leaves apart mirrors unspent (kept txid tx found) (proved txid tx found) mem,bodies⟩

theorem validatedInputs {tx : AuthorizedTransaction} {fee : Amount} (ok : validateTransaction lib s ctxt tx = .ok fee)
    {input : OutPoint × Hash} (mem : input ∈ tx.transaction.inputs) :
    ∃ utxo, s.utxos.tryGet input.1 = some utxo ∧ input.2 = utxoHash lib ⟨input.1,utxo⟩ := by
  simp only [validateTransaction,bindOk,mapErrorOk] at ok
  obtain ⟨filled,fill,_,_,_,_,_,_,value⟩ := ok
  exact filledHash (fillSource fill) value mem

theorem Tended.submit {tx : AuthorizedTransaction} (tended : Tended lib made txs db) (ids : MemPool.TxidsApart lib txs)
    (mem : tx.transaction ∈ txs) (unspent : UnspentFrom made db.state) :
    Tended lib made txs (submitTransaction lib ctxt prove db tx).1 := by
  have source := @submissionSource _ lib ctxt prove db tx
  obtain ⟨swaps,sameState⟩ := source.state_
  have coins : (submitTransaction lib ctxt prove db tx).1.state.utxos = db.state.utxos := by rw [sameState]
  rcases source.pool with same | ⟨proof,admitted⟩
  · refine ⟨same ▸ tended.pooled,same ▸ tended.hashed,?_,source.archive ▸ tended.bodies⟩
    unfold SpendsCurrent
    rw [same,coins]
    exact tended.current
  · obtain ⟨fee,valid⟩ := admitted.validated
    have put := MemPool.putSource admitted.put
    have pooled := @MemPool.Pooled.put _ lib _ _ (reproved tx proof) txs tended.pooled ids ⟨tx.transaction,mem,rfl,rfl⟩ admitted.put
    refine ⟨pooled,fun txid other found => ?_,
      fun txid other found o spent => ?_,source.archive ▸ tended.bodies⟩ <;>
      rw [put.transactions,Table.tryGetPut] at found <;> split at found
    · cases found
      intro input inside
      obtain ⟨utxo,isUnspent,named⟩ := validatedInputs valid inside
      exact ⟨utxo,unspent _ _ (coins ▸ isUnspent),named⟩
    · exact tended.hashed txid other found
    · cases found
      obtain ⟨input,inside,rfl⟩ := List.mem_map.mp spent
      obtain ⟨utxo,isUnspent,_⟩ := validatedInputs valid inside
      rw [isUnspent]
      rfl
    · rw [coins]
      exact tended.current txid other found o spent

theorem connectTipPool {header : Header} {body : Body} {data : TwoWayPegData} {rpc : RpcReplies}
    (ok : connectTip_ lib ctxt prove db header body data rpc = .ok db') :
    ∃ cleared, (body.transactions.map (Transaction.txid lib)).foldlM MemPool.delete db.mempool = .ok cleared ∧
      cleared.regenerateProofs prove (db'.state.accumulator lib) = .ok db'.mempool := by
  simp only [connectTip_,bindOk,mapErrorOk,pureOk] at ok
  obtain ⟨_,_,state,_,_,_,_,_,cleared,deleted,_,regenerated,rfl⟩ := ok
  exact ⟨cleared,deleted,regenerated⟩

theorem Tended.connect {header : Header} {body : Body} {data : TwoWayPegData} {rpc : RpcReplies}
    (tended : Tended lib made txs db) (leaves : ProvesLeaves prove holds) (apart : LeavesApart lib made)
    (mem : body.transactions ⊆ txs) (unspent : UnspentFrom made db.state) (unspent' : UnspentFrom made db'.state)
    (mirrors : AccumulatorMirrors lib holds db'.state)
    (ok : connectTip_ lib ctxt prove db header body data rpc = .ok db') : Tended lib made txs db' := by
  obtain ⟨cleared,deleted,regenerated⟩ := connectTipPool ok
  have source := connectTipSource ok
  obtain ⟨pooled,within⟩ := tended.pooled.deletes deleted
  refine tendedPool leaves apart mirrors unspent' pooled (fun txid tx found => ?_) regenerated (fun blockHash stored found => ?_)
  · obtain ⟨old,isOld,same⟩ := within txid tx found
    exact (tended.hashed txid old isOld).within same
  · rw [source.bodies,Table.tryGetPut] at found
    split at found
    · cases found
      obtain ⟨middle,connected,_⟩ := source.state
      obtain ⟨pre,block⟩ := connectBlockSource connected
      refine ⟨block.validated.distinct,fun tx inside => ⟨mem inside,fun input isInput => ?_⟩⟩
      obtain ⟨filled,_,txSource⟩ := relatedLeft block.validated.transactions inside
      obtain ⟨utxo,isUnspent,named⟩ := inputHash txSource isInput
      exact ⟨utxo,unspent _ _ isUnspent,named⟩
    · exact tended.bodies blockHash stored found

theorem dealtTransactions {plain : List Transaction} {authorizations : List Authorization}
    {dealt : List AuthorizedTransaction} (ok : dealAuthorizations plain authorizations = some dealt) :
    dealt.map (·.transaction) = plain := by
  induction plain generalizing authorizations dealt with
  | nil =>
      cases ok
      rfl
  | cons tx rest ih =>
      rw [dealAuthorizations] at ok
      split at ok
      · cases ok
      · simp only [Option.bind_eq_bind,Option.bind_eq_some_iff,Option.pure_def,Option.some_inj] at ok
        obtain ⟨more,isMore,rfl⟩ := ok
        rw [List.map_cons,ih isMore]

structure DisconnectTipPool (lib : Externals F) (prove : F → List Hash → Except Text UtreexoProof) (db : Db F) (body : Body)
    (db' : Db F) : Prop where
  stored : ∃ tip, db.state.tip = some tip ∧ db.archive.bodies.tryGet tip = some body
  archive : db'.archive = db.archive
  pool : ∃ dealt filled, authorizedTransactions body = some dealt ∧
    dealt.reverse.foldlM (MemPool.put lib) db.mempool = .ok filled ∧
    filled.regenerateProofs prove (db'.state.accumulator lib) = .ok db'.mempool

theorem disconnectTipPool (ok : disconnectTip_ lib prove db = .ok db') :
    ∃ body, DisconnectTipPool lib prove db body db' := by
  simp only [disconnectTip_,Archive.getHeader,Archive.getBody,bindOk,mapErrorOk,okOrOk,pureOk] at ok
  obtain ⟨tip,isTip,_,_,body,isBody,_,_,_,_,_,_,_,_,_,_,dealt,isDealt,filled,isFilled,_,regenerated,rfl⟩ := ok
  exact ⟨body,⟨tip,isTip,isBody⟩,rfl,dealt,filled,isDealt,isFilled,regenerated⟩

theorem Tended.disconnect (tended : Tended lib made txs db) (leaves : ProvesLeaves prove holds)
    (apart : LeavesApart lib made) (ids : MemPool.TxidsApart lib txs) (unspent' : UnspentFrom made db'.state)
    (mirrors : AccumulatorMirrors lib holds db'.state) (ok : disconnectTip_ lib prove db = .ok db') :
    Tended lib made txs db' := by
  obtain ⟨body,source⟩ := disconnectTipPool ok
  obtain ⟨tip,_,isBody⟩ := source.stored
  obtain ⟨dealt,filled,isDealt,isFilled,regenerated⟩ := source.pool
  obtain ⟨_,stored⟩ := tended.bodies tip body isBody
  have returned : MemPool.Pooled lib txs filled ∧
      ∀ txid tx, filled.transactions.tryGet txid = some tx → Hashed lib made tx.transaction := by
    refine foldInvariant (P := fun pool => MemPool.Pooled lib txs pool ∧
      ∀ txid tx, pool.transactions.tryGet txid = some tx → Hashed lib made tx.transaction) ?_
      ⟨tended.pooled,tended.hashed⟩ isFilled
    intro pool tx pool' mem ⟨pooled,hashed⟩ put
    have inBody : tx.transaction ∈ body.transactions :=
      dealtTransactions isDealt ▸ List.mem_map_of_mem (List.mem_reverse.mp mem)
    obtain ⟨known,own⟩ := stored tx.transaction inBody
    refine ⟨pooled.put ids ⟨tx.transaction,known,rfl,rfl⟩ put,fun txid other found => ?_⟩
    rw [(MemPool.putSource put).transactions,Table.tryGetPut] at found
    split at found
    · cases found
      exact own
    · exact hashed txid other found
  exact tendedPool leaves apart mirrors unspent' returned.1 returned.2 regenerated (source.archive ▸ tended.bodies)

/- No output that the tip's block spends is unspent again. -/
def TipSpent (db : Db F) : Prop :=
  ∀ tip body, db.state.tip = some tip → db.archive.bodies.tryGet tip = some body →
    ∀ o ∈ body.inputKeys, db.state.utxos.tryGet o = none

theorem Tended.returns (tended : Tended lib made txs db) (spent : TipSpent db) {tip : BlockHash} {body : Body}
    (isTip : db.state.tip = some tip) (isBody : db.archive.bodies.tryGet tip = some body)
    {dealt : List AuthorizedTransaction} (isDealt : authorizedTransactions body = some dealt) :
    ∃ pool, dealt.reverse.foldlM (MemPool.put lib) db.mempool = .ok pool := by
  have keys : dealt.flatMap MemPool.spends = body.inputKeys := by
    rw [Body.inputKeys,← dealtTransactions isDealt,List.flatMap_map]
    rfl
  have same : (dealt.reverse.flatMap MemPool.spends).Perm body.inputKeys := keys ▸ (List.reverse_perm dealt).flatMap_right _
  refine MemPool.putsTotal (fun o mem => ?_) (same.nodup_iff.mpr (tended.bodies tip body isBody).1)
  cases listed : db.mempool.spentUtxos.tryGet o with
  | none => rfl
  | some txid =>
      obtain ⟨tx,found,inside⟩ := (tended.pooled.indexed o txid).mp listed
      have unspent := tended.current txid tx found o inside
      rw [spent tip body isTip isBody o (same.mem_iff.mp mem)] at unspent
      cases unspent

theorem startNotMempool {archive : Archive F} {deposit event : Option (Hash × Nat)} {err : MemPoolError} :
    startBlockHash archive deposit event ≠ .error (.mempool err) := by
  intro failed
  unfold startBlockHash at failed
  split at failed
  · cases failed
  · cases failed
  · cases failed
  · split at failed
    · cases failed
    · split at failed
      · cases failed
      · simp only [bindError,mapErrorError,reduceCtorEq,and_false,exists_false,false_or] at failed
        obtain ⟨_,_,failed⟩ := failed
        split at failed
        · cases failed
        · simp only [bindError,mapErrorError,ensureError,pureError,reduceCtorEq,and_false,exists_false,or_self] at failed

theorem dataNotMempool {header : Header} {height : Nat} {err : MemPoolError} :
    tipTwoWayPegData db header height ≠ .error (.mempool err) := by
  intro failed
  simp only [tipTwoWayPegData,bindError,mapErrorError,pureError,startNotMempool,reduceCtorEq,and_false,exists_false,
    or_self] at failed

theorem Tended.notDoubleSpent (tended : Tended lib made txs db) (spent : TipSpent db) :
    disconnectTip_ lib prove db ≠ .error (.mempool .utxoDoubleSpent) := by
  intro failed
  simp only [disconnectTip_,Archive.getHeader,Archive.getBody,bindError,mapErrorError,mapErrorOk,okOrOk,okOrError,pureError,
    dataNotMempool,reduceCtorEq,and_false,exists_false,false_or,or_false] at failed
  obtain ⟨tip,isTip,header,_,body,isBody,_,_,_,_,_,_,_,_,_,_,dealt,isDealt,failed⟩ := failed
  rcases failed with ⟨_,notPut,_⟩ | ⟨filled,_,_,notRegenerated,_⟩
  · obtain ⟨pool,put⟩ := tended.returns spent isTip isBody isDealt
    rw [put] at notPut
    cases notPut
  · obtain ⟨pool,regenerated⟩ := MemPool.regenerateTotal
    rw [regenerated] at notRegenerated
    cases notRegenerated

theorem newTended : Tended lib made txs (Db.new F) := by
  have empty (txid : Txid) : (Db.new F).mempool.transactions.tryGet txid = none := Table.tryGetEmpty
  refine ⟨⟨MemPool.newIndexed,?_⟩,?_,?_,fun blockHash body found => ?_⟩
  · intro txid tx found
    rw [empty] at found
    cases found
  · intro txid tx found
    rw [empty] at found
    cases found
  · intro txid tx found
    rw [empty] at found
    cases found
  · have none : (Db.new F).archive.bodies.tryGet blockHash = none := Table.tryGetEmpty
    rw [none] at found
    cases found

theorem Tended.step {step : NodeStep F} (tended : Tended lib made txs db) (leaves : ProvesLeaves prove holds)
    (apart : LeavesApart lib made) (ids : MemPool.TxidsApart lib txs) (mem : step.transactions ⊆ txs)
    (unspent : UnspentFrom made db.state) (unspent' : UnspentFrom made (step.apply lib ctxt prove db).state)
    (mirrors : AccumulatorMirrors lib holds (step.apply lib ctxt prove db).state) :
    Tended lib made txs (step.apply lib ctxt prove db) := by
  cases step with
  | submitTransaction tx => exact tended.submit ids (mem List.mem_cons_self) unspent
  | connectTip_ header body data rpc =>
      cases done : connectTip_ lib ctxt prove db header body data rpc with
      | error err =>
          simp only [NodeStep.apply,done]
          exact tended
      | ok db' =>
          simp only [NodeStep.apply,done] at unspent' mirrors ⊢
          exact tended.connect leaves apart mem unspent unspent' mirrors done
  | disconnectTip_ =>
      cases done : disconnectTip_ lib prove db with
      | error err =>
          simp only [NodeStep.apply,done]
          exact tended
      | ok db' =>
          simp only [NodeStep.apply,done] at unspent' mirrors ⊢
          exact tended.disconnect leaves apart ids unspent' mirrors done
  | learn archive => exact ⟨tended.pooled,tended.hashed,tended.current,tended.bodies⟩

theorem visitsStart {steps : List (NodeStep F)} : db ∈ visits lib ctxt prove steps db := by
  cases steps with
  | nil => exact List.mem_cons_self
  | cons step steps => exact List.mem_cons_self

theorem visitsTended {steps : List (NodeStep F)} (tended : Tended lib made txs db) (leaves : ProvesLeaves prove holds)
    (apart : LeavesApart lib made) (ids : MemPool.TxidsApart lib txs) (mem : steps.flatMap NodeStep.transactions ⊆ txs)
    (unspent : ∀ reached ∈ visits lib ctxt prove steps db, UnspentFrom made reached.state)
    (mirrors : ∀ reached ∈ visits lib ctxt prove steps db, AccumulatorMirrors lib holds reached.state) :
    ∀ reached ∈ visits lib ctxt prove steps db, Tended lib made txs reached := by
  induction steps generalizing db with
  | nil =>
      intro reached here
      cases List.mem_singleton.mp here
      exact tended
  | cons step steps ih =>
      rw [List.flatMap_cons,List.append_subset] at mem
      have next : step.apply lib ctxt prove db ∈ visits lib ctxt prove (step :: steps) db :=
        List.mem_cons_of_mem db visitsStart
      have stepped := tended.step leaves apart ids mem.1 (unspent db List.mem_cons_self) (unspent _ next) (mirrors _ next)
      intro reached here
      rcases List.mem_cons.mp here with rfl | later
      · exact tended
      · exact ih stepped mem.2 (fun r isLater => unspent r (List.mem_cons_of_mem db isLater))
          (fun r isLater => mirrors r (List.mem_cons_of_mem db isLater)) reached later

/- No pool transaction spends what is not there; the transactions of the tip's block come back without a conflict
unless an output it spends is there again. -/
theorem poolReturnClear {steps : List (NodeStep F)} (leaves : ProvesLeaves prove holds)
    (mirrors : ∀ db ∈ visits lib ctxt prove steps (Db.new F), AccumulatorMirrors lib holds db.state)
    (apart : LeavesApart lib (unspentIn (visits lib ctxt prove steps (Db.new F))))
    (ids : MemPool.TxidsApart lib (steps.flatMap NodeStep.transactions)) :
    ∀ db ∈ visits lib ctxt prove steps (Db.new F), SpendsCurrent db ∧
      (TipSpent db → disconnectTip_ lib prove db ≠ .error (.mempool .utxoDoubleSpent)) := by
  have unspent : ∀ db ∈ visits lib ctxt prove steps (Db.new F),
      UnspentFrom (unspentIn (visits lib ctxt prove steps (Db.new F))) db.state := by
    intro db reached o y found
    exact List.mem_flatMap.mpr ⟨db,reached,List.mem_map.mpr ⟨(o,y),Table.memEntries.mpr found,rfl⟩⟩
  intro db reached
  have tended := visitsTended newTended leaves apart ids (fun _ mem => mem) unspent mirrors db reached
  exact ⟨tended.current,tended.notDoubleSpent⟩

end Invariant

end Coinshift.NetTask

namespace Coinshift.Reference
open Checked NetTask

theorem heldProves : ProvesLeaves proveHeld held := by
  intro forest targets
  unfold proveHeld held
  split
  · next all => exact ⟨fun _ x mem => of_decide_eq_true (List.all_eq_true.mp all x mem),fun _ => ⟨_,rfl⟩⟩
  · next missing =>
      refine ⟨fun ⟨_,proved⟩ => (nomatch proved),fun each => absurd ?_ missing⟩
      exact List.all_eq_true.mpr (fun x mem => decide_eq_true (each x mem))

def mirrorCheck (s : State Forest) : Bool :=
  (s.accumulator externals).all (fun x => s.utxos.entries.any (fun entry => utxoHash externals ⟨entry.1,entry.2⟩ = x)) &&
    s.utxos.entries.all (fun entry => utxoHash externals ⟨entry.1,entry.2⟩ ∈ s.accumulator externals)

theorem mirrorChecked {s : State Forest} (passes : mirrorCheck s = true) : AccumulatorMirrors externals held s := by
  obtain ⟨leaves,outputs⟩ := Bool.and_eq_true_iff.mp passes
  intro x
  refine ⟨fun isLeaf => ?_,fun ⟨o,y,found,same⟩ => ?_⟩
  · obtain ⟨entry,inside,same⟩ := List.any_eq_true.mp (List.all_eq_true.mp leaves x isLeaf)
    exact ⟨entry.1,entry.2,Table.memEntries.mp inside,of_decide_eq_true same⟩
  · have inside := List.all_eq_true.mp outputs (o,y) (Table.memEntries.mpr found)
    rw [← same]
    exact List.contains_iff_mem.mp (by simpa using inside)

def works : List (Db Forest → NodeStep Forest) → Db Forest → List (NodeStep Forest)
  | [], _ => []
  | next :: rest, db => next db :: works rest ((next db).apply externals context proveHeld db)

def learnMain (_ : Db Forest) : NodeStep Forest :=
  .learn (((Archive.new Forest).putMainHeaderInfo ⟨5,0,0,1⟩).toOption.getD (Archive.new Forest))

def mineNext (txs : List (Transaction × List VerifyingKey)) (db : Db Forest) : NodeStep Forest :=
  .connectTip_ { mine db.state (Reference.body txs []) with prevMainHash := 5 } (Reference.body txs []) ⟨[]⟩ noRpc

def submitSigned (tx : Transaction) (keys : List VerifyingKey) (_ : Db Forest) : NodeStep Forest :=
  .submitTransaction (signed tx keys)

def mintAgain : Transaction := transaction [] [coin alice 0] .regular

def spendMinted (recipient : VerifyingKey) : Transaction :=
  transaction [outputOf mintAgain 0 (coin alice 0)] [coin recipient 0] .regular

def minted : List (NodeStep Forest) :=
  works [learnMain,mineNext [(mintAgain,[])],submitSigned (spendMinted bob) [alice],
    mineNext [(spendMinted bob,[alice])]] (Db.new Forest)

def mintedTwice : List (NodeStep Forest) :=
  works [learnMain,mineNext [(mintAgain,[])],submitSigned (spendMinted alice) [alice],
    mineNext [(spendMinted bob,[alice]),(mintAgain,[])]] (Db.new Forest)

def visited (steps : List (NodeStep Forest)) : List (Db Forest) := visits externals context proveHeld steps (Db.new Forest)

theorem visitedMirrors {steps : List (NodeStep Forest)} (passes : (visited steps).all (fun db => mirrorCheck db.state) = true) :
    ∀ db ∈ visits externals context proveHeld steps (Db.new Forest), AccumulatorMirrors externals held db.state :=
  fun db reached => mirrorChecked (List.all_eq_true.mp passes db reached)

def tipSpentCheck (db : Db Forest) : Bool :=
  db.state.tip.all (fun tip => (db.archive.bodies.tryGet tip).all (fun body =>
    body.inputKeys.all (fun o => (db.state.utxos.tryGet o).isNone)))

theorem tipSpentChecked {db : Db Forest} (passes : tipSpentCheck db = true) : TipSpent db := by
  intro tip body isTip isBody o mem
  simp only [tipSpentCheck,isTip,isBody,Option.all_some] at passes
  exact Option.isNone_iff_eq_none.mp (List.all_eq_true.mp passes o mem)

def bringsBack (db : Db Forest) : Bool :=
  tipSpentCheck db && (disconnectTip_ externals proveHeld db).toOption.any (fun db' =>
    (db'.mempool.transactions.tryGet ((spendMinted bob).txid externals)).isSome)

theorem paymentBroughtBack : ∃ db ∈ visits externals context proveHeld minted (Db.new Forest), TipSpent db ∧ SpendsCurrent db ∧
    disconnectTip_ externals proveHeld db ≠ .error (.mempool .utxoDoubleSpent) ∧
    ∃ db', disconnectTip_ externals proveHeld db = .ok db' ∧
      (db'.mempool.transactions.tryGet ((spendMinted bob).txid externals)).isSome = true := by
  have mirrors := @visitedMirrors minted (by decide +kernel)
  have apart : LeavesApart externals (unspentIn (visits externals context proveHeld minted (Db.new Forest))) := by
    unfold LeavesApart
    decide +kernel
  have ids : MemPool.TxidsApart externals (minted.flatMap NodeStep.transactions) := by
    unfold MemPool.TxidsApart
    decide +kernel
  have played : (visited minted).any bringsBack = true := by decide +kernel
  obtain ⟨db,reached,checked⟩ := List.any_eq_true.mp played
  obtain ⟨isSpent,brought⟩ := Bool.and_eq_true_iff.mp checked
  obtain ⟨db',isDone,present⟩ := (Option.any_eq_true _ _).mp brought
  obtain ⟨current,clear⟩ := poolReturnClear heldProves mirrors apart ids db reached
  have spent := tipSpentChecked isSpent
  exact ⟨db,reached,spent,current,clear spent,db',toOptionOk isDone,present⟩

def conflicts (done : Except NodeError (Db Forest)) : Bool :=
  match done with
  | .ok _ => false
  | .error err => err = .mempool .utxoDoubleSpent

theorem mintedCoinConflicts : ∃ steps : List (NodeStep Forest), ProvesLeaves proveHeld held ∧
    (∀ db ∈ visits externals context proveHeld steps (Db.new Forest), AccumulatorMirrors externals held db.state) ∧
    LeavesApart externals (unspentIn (visits externals context proveHeld steps (Db.new Forest))) ∧
    MemPool.TxidsApart externals (steps.flatMap NodeStep.transactions) ∧
    ∃ db ∈ visits externals context proveHeld steps (Db.new Forest),
      disconnectTip_ externals proveHeld db = .error (.mempool .utxoDoubleSpent) := by
  refine ⟨mintedTwice,heldProves,visitedMirrors (by decide +kernel),?_,?_,?_⟩
  · unfold LeavesApart
    decide +kernel
  · unfold MemPool.TxidsApart
    decide +kernel
  · have played : (visited mintedTwice).any (fun db => conflicts (disconnectTip_ externals proveHeld db)) = true := by
      decide +kernel
    obtain ⟨db,reached,conflict⟩ := List.any_eq_true.mp played
    refine ⟨db,reached,?_⟩
    cases done : disconnectTip_ externals proveHeld db with
    | ok last =>
        rw [done] at conflict
        cases conflict
    | error err =>
        rw [done] at conflict
        exact congrArg Except.error (of_decide_eq_true conflict)

end Coinshift.Reference
