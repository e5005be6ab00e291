import Coinshift.MempoolRules

/-! Submission of a transaction to a node.
The proof is made anew, the transaction is validated against the state and put in the pool. Locks that no swap
stands behind are cleaned up on the way: the cleanup is committed before the transaction is tried again, and stays
when it fails again. -/
namespace Coinshift.NetTask
open Checked

variable {F : Type} (lib : Externals F) (ctxt : BatchVerificationContext)
  (prove : F → List Hash → Except Text UtreexoProof)

section Submit

def mentionsOrphanedLock : Error → Bool
  | .invalidTransaction (.orphanedLock ..) => true
  | _ => false

def cleanedLocks (s : State F) : State F := { s with toSwapTables := s.toSwapTables.cleanupOrphanedLocks.1 }

def putSubmitted (db : Db F) (tx : AuthorizedTransaction) : Db F × Except NodeError Unit :=
  match db.mempool.put lib tx with
  | .ok mempool => ({ db with mempool },.ok ())
  | .error err => (db,.error (.mempool err))

def submitTransaction (db : Db F) (tx : AuthorizedTransaction) : Db F × Except NodeError Unit :=
  match db.state.regenerateProof lib prove tx.transaction with
  | .error message => (db,.error (.state (.utreexo message)))
  | .ok transaction =>
      let tx := { tx with transaction }
      match validateTransaction lib db.state ctxt tx with
      | .ok _ => putSubmitted lib db tx
      | .error err =>
          if mentionsOrphanedLock err = true ∧ 0 < db.state.toSwapTables.cleanupOrphanedLocks.2 then
            let cleaned := { db with state := cleanedLocks db.state }
            match validateTransaction lib cleaned.state ctxt tx with
            | .ok _ => putSubmitted lib cleaned tx
            | .error err => (cleaned,.error (.state err))
          else (db,.error (.state err))

def submitAll (txs : List AuthorizedTransaction) (db : Db F) : Db F :=
  txs.foldl (fun db tx => (submitTransaction lib ctxt prove db tx).1) db

end Submit

section Source

variable {lib ctxt prove} {db db' : Db F} {tx : AuthorizedTransaction}

def reproved (tx : AuthorizedTransaction) (proof : UtreexoProof) : AuthorizedTransaction :=
  { tx with transaction := { tx.transaction with proof } }

structure Admitted (lib : Externals F) (ctxt : BatchVerificationContext)
    (prove : F → List Hash → Except Text UtreexoProof) (s : State F) (pool : MemPool) (tx : AuthorizedTransaction)
    (pool' : MemPool) : Prop where
  proved : prove (s.accumulator lib) (tx.transaction.inputs.map (·.2)) = .ok tx.transaction.proof
  validated : ∃ fee, validateTransaction lib s ctxt tx = .ok fee
  put : pool.put lib tx = .ok pool'

structure SubmissionSource (lib : Externals F) (ctxt : BatchVerificationContext)
    (prove : F → List Hash → Except Text UtreexoProof) (db : Db F) (tx : AuthorizedTransaction) (db' : Db F) : Prop where
  archive : db'.archive = db.archive
  connected : db'.connected = db.connected
  state : db'.state = db.state ∨ db'.state = cleanedLocks db.state
  pool : db'.mempool = db.mempool ∨
    ∃ proof, Admitted lib ctxt prove db'.state db.mempool (reproved tx proof) db'.mempool

theorem putSubmittedSource {proof : UtreexoProof} {fee : Amount} {cleaned : State F}
    (isState : cleaned = db.state ∨ cleaned = cleanedLocks db.state)
    (proved : prove (cleaned.accumulator lib) (tx.transaction.inputs.map (·.2)) = .ok proof)
    (valid : validateTransaction lib cleaned ctxt (reproved tx proof) = .ok fee) :
    SubmissionSource lib ctxt prove db tx
      (putSubmitted lib { db with state := cleaned } (reproved tx proof)).1 := by
  unfold putSubmitted
  cases put : MemPool.put lib db.mempool (reproved tx proof) with
  | ok mempool => exact ⟨rfl,rfl,isState,.inr ⟨proof,proved,⟨fee,valid⟩,put⟩⟩
  | error err => exact ⟨rfl,rfl,isState,.inl rfl⟩

theorem submissionSource : SubmissionSource lib ctxt prove db tx (submitTransaction lib ctxt prove db tx).1 := by
  unfold submitTransaction
  cases made : db.state.regenerateProof lib prove tx.transaction with
  | error message => exact ⟨rfl,rfl,.inl rfl,.inl rfl⟩
  | ok transaction =>
      simp only [State.regenerateProof,bindOk,pureOk] at made
      obtain ⟨proof,proved,rfl⟩ := made
      dsimp only
      cases first : validateTransaction lib db.state ctxt (reproved tx proof) with
      | ok fee =>
          simp only [reproved] at first
          simp only [first]
          exact putSubmittedSource (.inl rfl) proved first
      | error err =>
          simp only [reproved] at first
          simp only [first]
          split
          · cases second : validateTransaction lib (cleanedLocks db.state) ctxt (reproved tx proof) with
            | ok fee =>
                simp only [reproved] at second
                simp only [second]
                exact putSubmittedSource (.inr rfl) proved second
            | error err =>
                simp only [reproved] at second
                simp only [second]
                exact ⟨rfl,rfl,.inr rfl,.inl rfl⟩
          · exact ⟨rfl,rfl,.inl rfl,.inl rfl⟩

theorem SubmissionSource.state_ (source : SubmissionSource lib ctxt prove db tx db') :
    ∃ swaps, db'.state = { db.state with toSwapTables := swaps } := by
  rcases source.state with same | cleaned
  · exact ⟨db.state.toSwapTables,same⟩
  · exact ⟨_,cleaned⟩

theorem SubmissionSource.accumulator (source : SubmissionSource lib ctxt prove db tx db') :
    db'.state.accumulator lib = db.state.accumulator lib := by
  obtain ⟨swaps,same⟩ := source.state_
  rw [same]
  rfl

end Source

section Waiting

variable {lib ctxt prove} {pool pool' : MemPool} {tx : AuthorizedTransaction} {accumulator : F} {db : Db F}

structure Waiting (lib : Externals F) (accumulator : F) (pool : MemPool) : Prop where
  keyed : ∀ txid tx, pool.transactions.tryGet txid = some tx → tx.transaction.txid lib = txid
  listed : ∀ txid tx, pool.transactions.tryGet txid = some tx → ∀ o ∈ MemPool.spends tx, pool.spentUtxos.tryGet o = some txid
  distinct : ∀ txid tx, pool.transactions.tryGet txid = some tx → (MemPool.spends tx).Nodup
  proved : ∀ txid tx, pool.transactions.tryGet txid = some tx →
    lib.verify accumulator tx.transaction.proof (tx.transaction.inputs.map (·.2)) = .ok true

theorem newWaiting : Waiting lib accumulator MemPool.new := by
  have none (txid : Txid) : MemPool.new.transactions.tryGet txid = none := Table.tryGetEmpty
  refine ⟨?_,?_,?_,?_⟩ <;> intro txid tx found <;> rw [none] at found <;> cases found

theorem spendInputsDistinct {txid : Txid} {inputs : List (OutPoint × Hash)} {spent spent' : Table OutPoint Txid}
    (ok : inputs.foldlM (MemPool.spendInput txid) spent = .ok spent') : (inputs.map (·.1)).Nodup := by
  induction inputs generalizing spent with
  | nil => exact List.nodup_nil
  | cons input rest ih =>
      obtain ⟨middle,first,more⟩ := foldConsOk.mp ok
      simp only [MemPool.spendInput,bindOk,ensureOk,pureOk] at first
      obtain ⟨_,_,rfl⟩ := first
      rw [List.map_cons,List.nodup_cons]
      refine ⟨fun again => ?_,ih more⟩
      have free := (MemPool.spendInputsOk more).1 input.1 again
      rw [Table.tryGetPutSelf] at free
      cases free

theorem Waiting.put (waiting : Waiting lib accumulator pool) (ok : pool.put lib tx = .ok pool')
    (verified : lib.verify accumulator tx.transaction.proof (tx.transaction.inputs.map (·.2)) = .ok true) :
    Waiting lib accumulator pool' := by
  have source := MemPool.putSource ok
  have distinct : (MemPool.spends tx).Nodup := by
    simp only [MemPool.put,bindOk,pureOk] at ok
    obtain ⟨_,spends,_⟩ := ok
    exact spendInputsDistinct spends
  refine ⟨fun txid other found => ?_,fun txid other found o spent => ?_,fun txid other found => ?_,
    fun txid other found => ?_⟩ <;> rw [source.transactions,Table.tryGetPut] at found <;> split at found
  · next own =>
      cases found
      exact own.symm
  · exact waiting.keyed txid other found
  · next own =>
      cases found
      rw [source.spent,if_pos spent,own]
  · have listed := waiting.listed txid other found o spent
    rw [source.spent,if_neg,listed]
    intro taken
    rw [source.free o taken] at listed
    cases listed
  · cases found
    exact distinct
  · exact waiting.distinct txid other found
  · cases found
    exact verified
  · exact waiting.proved txid other found

/- What `prove` promises: a proof it makes is accepted by the same forest. -/
def ProofsVerify (lib : Externals F) (prove : F → List Hash → Except Text UtreexoProof) : Prop :=
  ∀ forest targets proof, prove forest targets = .ok proof → lib.verify forest proof targets = .ok true

theorem Waiting.submit (proves : ProofsVerify lib prove) (waiting : Waiting lib (db.state.accumulator lib) db.mempool) :
    Waiting lib ((submitTransaction lib ctxt prove db tx).1.state.accumulator lib)
      (submitTransaction lib ctxt prove db tx).1.mempool := by
  have source := @submissionSource _ lib ctxt prove db tx
  rw [source.accumulator]
  rcases source.pool with same | ⟨proof,admitted⟩
  · rw [same]
    exact waiting
  · have proved := admitted.proved
    rw [source.accumulator] at proved
    exact waiting.put admitted.put (proves _ _ _ proved)

theorem Waiting.submitAll (proves : ProofsVerify lib prove) {txs : List AuthorizedTransaction}
    (waiting : Waiting lib (db.state.accumulator lib) db.mempool) :
    Waiting lib ((submitAll lib ctxt prove txs db).state.accumulator lib) (submitAll lib ctxt prove txs db).mempool := by
  induction txs generalizing db with
  | nil => exact waiting
  | cons tx txs ih => exact ih (waiting.submit proves)

end Waiting

end Coinshift.NetTask
