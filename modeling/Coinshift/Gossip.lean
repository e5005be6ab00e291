import Coinshift.BlockService
import Coinshift.Flooding
import Coinshift.PoolReturn
import Coinshift.Submission

/-! Transactions that nodes push to each other.
A node pushes a transaction when it has put it in its pool: one that was submitted to all peers, one that a peer pushed to
all but that peer. -/
namespace Coinshift.NetTask
open Checked Flooding

variable {F N : Type} {lib : Externals F} {ctxt : BatchVerificationContext}
  {prove : F → List Hash → Except Text UtreexoProof}

section Nodes

structure Push (N : Type) where
  sender : N
  receiver : N
  tx : AuthorizedTransaction
  deriving DecidableEq, Repr

/- The pushes that are under way, and those that a connection has handed to its node's net task. -/
structure Network (F N : Type) where
  node : N → Db F
  pushes : List (Push N)
  news : List (Push N)
  -- what nodes have pushed to their peers, oldest first
  sent : List (N × AuthorizedTransaction)

def Network.new (F N : Type) : Network F N := ⟨fun _ => .new F,[],[],[]⟩

variable (lib ctxt prove) in
/- What a peer has pushed, and what goes to the other peers. An error drops the peer, another spend of a coin does not. -/
def handleNewTransaction (db : Db F) (newTx : AuthorizedTransaction) :
    Db F × Except NodeError (Option AuthorizedTransaction) :=
  match db.state.regenerateProof lib prove newTx.transaction with
  | .error message => (db,.error (.state (.utreexo message)))
  | .ok transaction =>
      let newTx := { newTx with transaction }
      match validateTransaction lib db.state ctxt newTx with
      | .error err => (db,.error (.state err))
      | .ok _ =>
          match db.mempool.put lib newTx with
          | .ok mempool => ({ db with mempool },.ok (some newTx))
          | .error .utxoDoubleSpent => (db,.ok none)
          | .error err => (db,.error (.mempool err))

variable (lib ctxt prove) in
def submitted (db : Db F) (transaction : AuthorizedTransaction) : Db F × Except NodeError (Option AuthorizedTransaction) :=
  match submitTransaction lib ctxt prove db transaction,db.state.regenerateProof lib prove transaction.transaction with
  | (db,.error err), _ => (db,.error err)
  | (db,.ok _), .error message => (db,.error (.state (.utreexo message)))
  | (db,.ok _), .ok proved => (db,.ok (some { transaction with transaction := proved }))

variable [DecidableEq N]

def Network.pushTx (net : Network F N) (n : N) (exclude peers : List N) (tx : AuthorizedTransaction) : Network F N :=
  { net with
    pushes := net.pushes ++ (peers.filter (fun peer => !exclude.contains peer)).map (fun peer => ⟨n,peer,tx⟩)
    sent := net.sent ++ [(n,tx)] }

def Network.tell (net : Network F N) (n : N) (exclude peers : List N)
    (result : Db F × Except NodeError (Option AuthorizedTransaction)) : Network F N :=
  let net := { net with node := Function.update net.node n result.1 }
  match result.2 with
  | .ok (some tx) => net.pushTx n exclude peers tx
  | _ => net

/- Pushes are received in any order and may be lost; those from outside are whatever they are. -/
inductive NetworkStep (N : Type) where
  | submit (n : N) (tx : AuthorizedTransaction) (peers : List N)
  | receive (i : Nat)
  | take (i : Nat) (peers : List N)
  | lose (i : Nat)
  | outside (push : Push N)
  | chain (n : N) (step : ChainStep)
  | removeFromMempool (n : N) (txid : Txid)

variable (lib ctxt prove) in
def NetworkStep.apply (net : Network F N) : NetworkStep N → Network F N
  | .submit n tx peers => net.tell n [] peers (submitted lib ctxt prove (net.node n) tx)
  | .receive i =>
      match net.pushes[i]? with
      | none => net
      | some push =>
          let net := { net with pushes := net.pushes.eraseIdx i }
          match validateTransaction lib (net.node push.receiver).state ctxt push.tx with
          | .ok _ => { net with news := net.news ++ [push] }
          | .error _ => net
  | .take i peers =>
      match net.news[i]? with
      | none => net
      | some push =>
          let net := { net with news := net.news.eraseIdx i }
          net.tell push.receiver [push.sender] peers (handleNewTransaction lib ctxt prove (net.node push.receiver) push.tx)
  | .lose i => { net with pushes := net.pushes.eraseIdx i }
  | .outside push => { net with pushes := net.pushes ++ [push] }
  | .chain n step => { net with node := Function.update net.node n (step.apply lib ctxt prove (net.node n)) }
  | .removeFromMempool n txid =>
      match (net.node n).mempool.delete txid with
      | .ok mempool => { net with node := Function.update net.node n { net.node n with mempool } }
      | .error _ => net

variable (lib ctxt prove) in
def runNetwork (steps : List (NetworkStep N)) : Network F N := steps.foldl (NetworkStep.apply lib ctxt prove) (.new F N)

end Nodes

section Handled

variable {db : Db F} {tx : AuthorizedTransaction}

def Handled (lib : Externals F) (db : Db F) (tx : AuthorizedTransaction)
    (result : Db F × Except NodeError (Option AuthorizedTransaction)) : Prop :=
  (∃ proof, result.2 = .ok (some (reproved tx proof)) ∧ db.mempool.put lib (reproved tx proof) = .ok result.1.mempool) ∨
    result.1.mempool = db.mempool ∧ ∀ told, result.2 ≠ .ok (some told)

theorem newHandled : Handled lib db tx (handleNewTransaction lib ctxt prove db tx) := by
  unfold handleNewTransaction
  cases made : db.state.regenerateProof lib prove tx.transaction with
  | error message => exact .inr ⟨rfl,nofun⟩
  | ok transaction =>
      simp only [State.regenerateProof,bindOk,pureOk] at made
      obtain ⟨proof,_,rfl⟩ := made
      dsimp only
      split
      · exact .inr ⟨rfl,nofun⟩
      · split
        · next mempool put => exact .inl ⟨proof,rfl,put⟩
        · exact .inr ⟨rfl,nofun⟩
        · exact .inr ⟨rfl,nofun⟩

theorem putHandled {proof : UtreexoProof} {cleaned : Db F} (same : cleaned.mempool = db.mempool)
    (made : db.state.regenerateProof lib prove tx.transaction = .ok { tx.transaction with proof })
    (isPut : submitTransaction lib ctxt prove db tx = putSubmitted lib cleaned (reproved tx proof)) :
    Handled lib db tx (submitted lib ctxt prove db tx) := by
  unfold submitted
  rw [isPut,putSubmitted,made]
  cases put : MemPool.put lib cleaned.mempool (reproved tx proof) with
  | error err => exact .inr ⟨same,nofun⟩
  | ok mempool =>
      rw [same] at put
      exact .inl ⟨proof,rfl,put⟩

theorem submittedHandled : Handled lib db tx (submitted lib ctxt prove db tx) := by
  have fails {cleaned : Db F} {err : NodeError} (same : cleaned.mempool = db.mempool)
      (failed : submitTransaction lib ctxt prove db tx = (cleaned,.error err)) :
      Handled lib db tx (submitted lib ctxt prove db tx) := by
    unfold submitted
    rw [failed]
    exact .inr ⟨same,nofun⟩
  cases made : db.state.regenerateProof lib prove tx.transaction with
  | error message =>
      have failed : submitTransaction lib ctxt prove db tx = (db,.error (.state (.utreexo message))) := by
        rw [submitTransaction,made]
      exact fails rfl failed
  | ok transaction =>
      have proved := made
      simp only [State.regenerateProof,bindOk,pureOk] at made
      obtain ⟨proof,_,rfl⟩ := made
      cases first : validateTransaction lib db.state ctxt (reproved tx proof) with
      | ok fee =>
          refine putHandled rfl proved ?_
          simp only [reproved] at first
          simp only [submitTransaction,proved,first,reproved]
      | error err =>
          simp only [reproved] at first
          by_cases cleans : mentionsOrphanedLock err = true ∧ 0 < db.state.toSwapTables.cleanupOrphanedLocks.2
          · let cleaned := { db with state := cleanedLocks db.state }
            have same : cleaned.mempool = db.mempool := rfl
            cases second : validateTransaction lib (cleanedLocks db.state) ctxt (reproved tx proof) with
            | ok fee =>
                simp only [reproved] at second
                have isPut : submitTransaction lib ctxt prove db tx = putSubmitted lib cleaned (reproved tx proof) := by
                  simp only [submitTransaction,proved,first,if_pos cleans,second,reproved,cleaned]
                exact putHandled same proved isPut
            | error again =>
                simp only [reproved] at second
                have failed : submitTransaction lib ctxt prove db tx = (cleaned,.error (.state again)) := by
                  simp only [submitTransaction,proved,first,if_pos cleans,second,cleaned]
                exact fails same failed
          · have failed : submitTransaction lib ctxt prove db tx = (db,.error (.state err)) := by
              simp only [submitTransaction,proved,first,if_neg cleans]
            exact fails rfl failed

end Handled

section Pushed

variable {net net' : Network F N} {n m : N} {tx tx' : AuthorizedTransaction} {o : OutPoint} {t : Txid}
  {step : NetworkStep N} {before middle : List (NetworkStep N)}

structure Accepts (lib : Externals F) (net : Network F N) (n : N) (tx : AuthorizedTransaction) (net' : Network F N) :
    Prop where
  put : (net.node n).mempool.put lib tx = .ok (net'.node n).mempool
  others : ∀ m, m ≠ n → (net'.node m).mempool = (net.node m).mempool
  sent : net'.sent = net.sent ++ [(n,tx)]

structure Idle (net net' : Network F N) : Prop where
  pools : ∀ m, (net'.node m).mempool = (net.node m).mempool
  sent : net'.sent = net.sent

def NetworkStep.TakesFrom (n : N) : NetworkStep N → Prop
  | .chain m _ | .removeFromMempool m _ => m = n
  | _ => False

theorem Accepts.listed (accepts : Accepts lib net n tx net') (spent : o ∈ MemPool.spends tx) :
    (net'.node n).mempool.spentUtxos.tryGet o = some (tx.transaction.txid lib) := by
  rw [(MemPool.putSource accepts.put).spent,if_pos spent]

variable [DecidableEq N]

theorem tellNode {exclude peers : List N} {result : Db F × Except NodeError (Option AuthorizedTransaction)} :
    (net.tell n exclude peers result).node = Function.update net.node n result.1 := by
  unfold Network.tell
  dsimp only
  split
  · rfl
  · rfl

theorem tellAccepts {exclude peers : List N} {result : Db F × Except NodeError (Option AuthorizedTransaction)}
    (told : result.2 = .ok (some tx)) (put : (net.node n).mempool.put lib tx = .ok result.1.mempool) :
    Accepts lib net n tx (net.tell n exclude peers result) ∧ (net.tell n exclude peers result).pushes =
      net.pushes ++ (peers.filter (fun peer => !exclude.contains peer)).map (fun peer => ⟨n,peer,tx⟩) := by
  have isTell : net.tell n exclude peers result =
      { net with node := Function.update net.node n result.1 }.pushTx n exclude peers tx := by
    unfold Network.tell
    rw [told]
  refine ⟨⟨?_,fun m other => ?_,?_⟩,?_⟩
  · rw [put,tellNode,Function.update_self]
  · rw [tellNode,Function.update_of_ne other]
  · rw [isTell]
    rfl
  · rw [isTell]
    rfl

theorem tellIdle {exclude peers : List N} {result : Db F × Except NodeError (Option AuthorizedTransaction)}
    (same : result.1.mempool = (net.node n).mempool) (silent : ∀ told, result.2 ≠ .ok (some told)) :
    Idle net (net.tell n exclude peers result) ∧ (net.tell n exclude peers result).pushes = net.pushes := by
  have isTell : net.tell n exclude peers result = { net with node := Function.update net.node n result.1 } := by
    unfold Network.tell
    dsimp only
    split
    · next told isTold => exact absurd isTold (silent told)
    · rfl
  refine ⟨⟨fun m => ?_,?_⟩,?_⟩
  · rw [tellNode]
    by_cases own : m = n
    · subst own
      rw [Function.update_self,same]
    · rw [Function.update_of_ne own]
  · rw [isTell]
  · rw [isTell]

theorem tellOutcome {exclude peers : List N} {result : Db F × Except NodeError (Option AuthorizedTransaction)}
    (handled : Handled lib (net.node n) tx result) :
    (∃ proof, Accepts lib net n (reproved tx proof) (net.tell n exclude peers result)) ∨
      Idle net (net.tell n exclude peers result) := by
  rcases handled with ⟨proof,told,put⟩ | ⟨same,silent⟩
  · exact .inl ⟨proof,(tellAccepts told put).1⟩
  · exact .inr (tellIdle same silent).1

theorem stepOutcome (goesOn : ∀ n, ¬ step.TakesFrom n) :
    (∃ n tx, Accepts lib net n tx (step.apply lib ctxt prove net)) ∨ Idle net (step.apply lib ctxt prove net) := by
  have quiet : Idle net net := ⟨fun _ => rfl,rfl⟩
  cases step with
  | submit n tx peers =>
      have outcome : _ ∨ Idle net (net.tell n [] peers (submitted lib ctxt prove (net.node n) tx)) :=
        tellOutcome submittedHandled
      rcases outcome with ⟨proof,accepts⟩ | idle
      · exact .inl ⟨n,_,accepts⟩
      · exact .inr idle
  | receive i =>
      unfold NetworkStep.apply
      dsimp only
      split
      · exact .inr ⟨fun _ => rfl,rfl⟩
      · split
        · exact .inr ⟨fun _ => rfl,rfl⟩
        · exact .inr ⟨fun _ => rfl,rfl⟩
  | take i peers =>
      unfold NetworkStep.apply
      dsimp only
      split
      · exact .inr quiet
      · next push _ =>
          let rest := { net with news := net.news.eraseIdx i }
          have outcome : _ ∨ Idle rest (rest.tell push.receiver [push.sender] peers
              (handleNewTransaction lib ctxt prove (rest.node push.receiver) push.tx)) := tellOutcome newHandled
          rcases outcome with ⟨proof,accepts⟩ | idle
          · exact .inl ⟨push.receiver,_,accepts.put,accepts.others,accepts.sent⟩
          · exact .inr ⟨idle.pools,idle.sent⟩
  | lose i => exact .inr ⟨fun _ => rfl,rfl⟩
  | outside push => exact .inr ⟨fun _ => rfl,rfl⟩
  | chain n => exact absurd rfl (goesOn n)
  | removeFromMempool n => exact absurd rfl (goesOn n)

theorem takingOutcome (takes : step.TakesFrom n) : (step.apply lib ctxt prove net).sent = net.sent ∧
    ∀ m, m ≠ n → (step.apply lib ctxt prove net).node m = net.node m := by
  cases step with
  | chain n' step =>
      cases takes
      exact ⟨rfl,fun m other => Function.update_of_ne other ..⟩
  | removeFromMempool n' txid =>
      cases takes
      unfold NetworkStep.apply
      dsimp only
      split
      · exact ⟨rfl,fun m other => Function.update_of_ne other ..⟩
      · exact ⟨rfl,fun _ _ => rfl⟩
  | _ => cases takes

theorem pushedAccepts (pushed : (step.apply lib ctxt prove net).sent = net.sent ++ [(n,tx)]) :
    Accepts lib net n tx (step.apply lib ctxt prove net) := by
  have more (same : (step.apply lib ctxt prove net).sent = net.sent) : False := by
    rw [same,List.self_eq_append_right] at pushed
    cases pushed
  by_cases goesOn : ∀ n, ¬ step.TakesFrom n
  · have outcome : _ ∨ Idle net (step.apply lib ctxt prove net) := stepOutcome goesOn
    rcases outcome with ⟨n',tx',accepts⟩ | idle
    · have same := accepts.sent.symm.trans pushed
      rw [List.append_cancel_left_eq] at same
      cases same
      exact accepts
    · exact (more idle.sent).elim
  · obtain ⟨n',takes⟩ := not_forall_not.mp goesOn
    exact (more (takingOutcome takes).1).elim

theorem Accepts.keeps (accepts : Accepts lib net n tx net')
    (listed : (net.node m).mempool.spentUtxos.tryGet o = some t) :
    (net'.node m).mempool.spentUtxos.tryGet o = some t := by
  by_cases own : m = n
  · subst own
    have source := MemPool.putSource accepts.put
    rw [source.spent]
    split
    · next spent =>
        rw [source.free o spent] at listed
        cases listed
    · exact listed
  · rw [accepts.others m own]
    exact listed

theorem stepKeepsListed (goesOn : ¬ step.TakesFrom m) (listed : (net.node m).mempool.spentUtxos.tryGet o = some t) :
    ((step.apply lib ctxt prove net).node m).mempool.spentUtxos.tryGet o = some t := by
  by_cases quiet : ∀ n, ¬ step.TakesFrom n
  · have outcome : _ ∨ Idle net (step.apply lib ctxt prove net) := stepOutcome quiet
    rcases outcome with ⟨_,_,accepts⟩ | idle
    · exact accepts.keeps listed
    · rw [idle.pools m]
      exact listed
  · obtain ⟨n,takes⟩ := not_forall_not.mp quiet
    have other : m ≠ n := fun same => goesOn (same ▸ takes)
    rw [(takingOutcome takes).2 m other]
    exact listed

theorem runNetworkConcat : runNetwork lib ctxt prove (before ++ [step]) =
    step.apply lib ctxt prove (runNetwork lib ctxt prove before) := by
  rw [runNetwork,List.foldl_append]
  rfl

/- A coin stays listed until a step of its node takes it out. -/
theorem listedOrFreed
    (listed : ((runNetwork lib ctxt prove before).node n).mempool.spentUtxos.tryGet o = some t) :
    ((runNetwork lib ctxt prove (before ++ middle)).node n).mempool.spentUtxos.tryGet o = some t ∨
    ∃ taken step rest, middle = taken ++ step :: rest ∧ step.TakesFrom n ∧
      ((runNetwork lib ctxt prove (before ++ taken)).node n).mempool.spentUtxos.tryGet o = some t ∧
      ((runNetwork lib ctxt prove (before ++ (taken ++ [step]))).node n).mempool.spentUtxos.tryGet o ≠ some t := by
  induction middle using List.reverseRecOn with
  | nil =>
      rw [List.append_nil]
      exact .inl listed
  | append_singleton middle step ih =>
      have isRun : runNetwork lib ctxt prove (before ++ (middle ++ [step])) =
          step.apply lib ctxt prove (runNetwork lib ctxt prove (before ++ middle)) := by
        rw [← List.append_assoc,runNetworkConcat]
      rcases ih with still | ⟨taken,step',rest,split,takes,was,freed⟩
      · by_cases stays :
          ((runNetwork lib ctxt prove (before ++ (middle ++ [step]))).node n).mempool.spentUtxos.tryGet o = some t
        · exact .inl stays
        · by_cases takes : step.TakesFrom n
          · exact .inr ⟨middle,step,[],rfl,takes,still,stays⟩
          · rw [isRun] at stays
            exact absurd (stepKeepsListed takes still) stays
      · refine .inr ⟨taken,step',rest ++ [step],?_,takes,was,freed⟩
        rw [split,List.append_assoc,List.cons_append]

/- A node pushes another spend of a coin only if a block or a removal has taken the first one out of its pool in between.
So without blocks and removals a transaction that spends a coin goes round at most once. -/
theorem pushedAgainFreed {first second : NetworkStep N}
    (pushed : (runNetwork lib ctxt prove (before ++ [first])).sent = (runNetwork lib ctxt prove before).sent ++ [(n,tx)])
    (again : (runNetwork lib ctxt prove (before ++ [first] ++ middle ++ [second])).sent =
      (runNetwork lib ctxt prove (before ++ [first] ++ middle)).sent ++ [(n,tx')])
    (spent : o ∈ MemPool.spends tx) (spentAgain : o ∈ MemPool.spends tx') :
    ∃ taken step rest, middle = taken ++ step :: rest ∧ step.TakesFrom n ∧
      ((runNetwork lib ctxt prove (before ++ [first] ++ taken)).node n).mempool.spentUtxos.tryGet o =
        some (tx.transaction.txid lib) ∧
      ((runNetwork lib ctxt prove (before ++ [first] ++ (taken ++ [step]))).node n).mempool.spentUtxos.tryGet o ≠
        some (tx.transaction.txid lib) := by
  rw [runNetworkConcat] at pushed
  have listed := (pushedAccepts pushed).listed spent
  rw [← runNetworkConcat] at listed
  rw [runNetworkConcat] at again
  have free := (MemPool.putSource (pushedAccepts again).put).free o spentAgain
  rcases listedOrFreed listed with still | freed
  · rw [free] at still
    cases still
  · exact freed

namespace Reference

open Coinshift.Reference

def anyProof (_ : Forest) (_ : List Hash) : Except Text UtreexoProof := .ok ⟨[],[]⟩

def fundedNode (n : Nat) : List (NetworkStep Nat) :=
  let steps : List BodyStep := (submittedThen minedBody).take 2 ++
    [.other ⟨.putHeader minedHeader,rfl⟩,.connectTip_ minedHeader minedBody (pegData [deposit 1 (coin alice 1000)]) noRpc]
  steps.map (fun step => .chain n (.body step))

def payment : AuthorizedTransaction :=
  let tx := transaction [deposited 1 (coin alice 1000)] [coin bob 1000] .regular
  ⟨tx,[sign alice tx]⟩

/- The user takes the payment out of the pool and submits it again. -/
theorem paymentPushedAgain : ∃ taken step rest,
    [.removeFromMempool 0 (payment.transaction.txid externals)] = taken ++ step :: rest ∧ step.TakesFrom 0 ∧
    ((runNetwork externals context anyProof
      (fundedNode 0 ++ [.submit 0 payment [1]] ++ taken)).node 0).mempool.spentUtxos.tryGet (.deposit 1 0) =
        some (payment.transaction.txid externals) ∧
    ((runNetwork externals context anyProof
      (fundedNode 0 ++ [.submit 0 payment [1]] ++ (taken ++ [step]))).node 0).mempool.spentUtxos.tryGet (.deposit 1 0) ≠
        some (payment.transaction.txid externals) := by
  have pushed : (runNetwork externals context anyProof (fundedNode 0 ++ [.submit 0 payment [1]])).sent =
      (runNetwork externals context anyProof (fundedNode 0)).sent ++ [(0,payment)] := by decide +kernel
  have again : (runNetwork externals context anyProof (fundedNode 0 ++ [.submit 0 payment [1]] ++
      [.removeFromMempool 0 (payment.transaction.txid externals)] ++ [.submit 0 payment [1]])).sent =
      (runNetwork externals context anyProof (fundedNode 0 ++ [.submit 0 payment [1]] ++
        [.removeFromMempool 0 (payment.transaction.txid externals)])).sent ++ [(0,payment)] := by decide +kernel
  exact pushedAgainFreed pushed again List.mem_cons_self List.mem_cons_self

end Reference

end Pushed

section Spread

variable {net net' : Network F N} {n m : N} {tx : AuthorizedTransaction} {t : Txid} {linked : N → N → Prop} {db : Db F}
  {pool : MemPool}

def Network.Holds (net : Network F N) (t : Txid) (n : N) : Prop :=
  ((net.node n).mempool.transactions.tryGet t).isSome = true

def UnderWay (lib : Externals F) (net : Network F N) (t : Txid) (i j : N) : Prop :=
  ∃ push ∈ net.pushes ++ net.news, push.sender = i ∧ push.receiver = j ∧ push.tx.transaction.txid lib = t

def Welcome (lib : Externals F) (ctxt : BatchVerificationContext) (prove : F → List Hash → Except Text UtreexoProof)
    (db : Db F) (tx : AuthorizedTransaction) : Prop :=
  ∃ proof fee, prove (db.state.accumulator lib) (tx.transaction.inputs.map (·.2)) = .ok proof ∧
    validateTransaction lib db.state ctxt (reproved tx proof) = .ok fee ∧
    ∀ o ∈ MemPool.spends tx, db.mempool.spentUtxos.tryGet o = none

theorem welcomed (welcome : Welcome lib ctxt prove db tx) (distinct : (MemPool.spends tx).Nodup) :
    ∃ proof mempool, handleNewTransaction lib ctxt prove db tx = ({ db with mempool },.ok (some (reproved tx proof))) := by
  obtain ⟨proof,fee,proved,valid,free⟩ := welcome
  have made : db.state.regenerateProof lib prove tx.transaction = .ok (reproved tx proof).transaction := by
    simp only [State.regenerateProof,proved,okBind]
    rfl
  obtain ⟨spent,isSpent⟩ : ∃ spent, tx.transaction.inputs.foldlM (MemPool.spendInput (tx.transaction.txid lib))
      db.mempool.spentUtxos = .ok spent := MemPool.spendInputsTotal free distinct
  obtain ⟨mempool,put⟩ : ∃ mempool, db.mempool.put lib (reproved tx proof) = .ok mempool :=
    ⟨⟨db.mempool.transactions.put (tx.transaction.txid lib) (reproved tx proof),spent⟩,
      (congrArg (· >>= _) isSpent).trans rfl⟩
  refine ⟨proof,mempool,?_⟩
  unfold handleNewTransaction
  rw [made]
  dsimp only [reproved] at valid put ⊢
  rw [valid]
  dsimp only
  rw [put]

structure Going (lib : Externals F) (linked : N → N → Prop) (t : Txid) (net : Network F N) : Prop where
  covered : Covered linked (net.Holds t) (UnderWay lib net t)
  distinct : ∀ push ∈ net.pushes ++ net.news, push.tx.transaction.txid lib = t → (MemPool.spends push.tx).Nodup

theorem Going.step (going : Going lib linked t net) (keeps : ∀ m, net.Holds t m → net'.Holds t m)
    (old : ∀ push ∈ net'.pushes ++ net'.news, push.tx.transaction.txid lib = t →
      push ∈ net.pushes ++ net.news ∨ net'.Holds t push.sender ∧ (MemPool.spends push.tx).Nodup)
    (kept : ∀ push ∈ net.pushes ++ net.news, push.tx.transaction.txid lib = t →
      push ∈ net'.pushes ++ net'.news ∨ net'.Holds t push.receiver)
    (tells : ∀ i j, linked i j → net'.Holds t i → net.Holds t i ∨ net'.Holds t j ∨ UnderWay lib net' t i j) :
    Going lib linked t net' := by
  refine ⟨going.covered.step ⟨keeps,?_,tells,?_⟩,?_⟩
  · rintro i j ⟨push,mem,rfl,rfl,isTx⟩
    rcases old push mem isTx with before | ⟨holds,_⟩
    · exact keeps _ (going.covered.sender _ _ ⟨push,before,rfl,rfl,isTx⟩)
    · exact holds
  · rintro i j ⟨push,mem,rfl,rfl,isTx⟩
    rcases kept push mem isTx with after | holds
    · exact .inr ⟨push,after,rfl,rfl,isTx⟩
    · exact .inl holds
  · intro push mem isTx
    rcases old push mem isTx with before | ⟨_,distinct⟩
    · exact going.distinct push before isTx
    · exact distinct

theorem Going.moves (going : Going lib linked t net) (pools : net'.node = net.node)
    (old : ∀ push ∈ net'.pushes ++ net'.news, push.tx.transaction.txid lib = t → push ∈ net.pushes ++ net.news)
    (kept : ∀ push ∈ net.pushes ++ net.news, push.tx.transaction.txid lib = t →
      push ∈ net'.pushes ++ net'.news ∨ net.Holds t push.receiver) : Going lib linked t net' := by
  have holds (m : N) : net'.Holds t m ↔ net.Holds t m := by
    unfold Network.Holds
    rw [pools]
  refine going.step (fun m => (holds m).mpr) (fun push mem isTx => .inl (old push mem isTx)) (fun push mem isTx => ?_)
    (fun i _ _ isHeld => .inl ((holds i).mp isHeld))
  rcases kept push mem isTx with stays | isHeld
  · exact .inl stays
  · exact .inr ((holds _).mpr isHeld)

theorem Going.stays (going : Going lib linked t net) (pushes : net'.pushes = net.pushes) (news : net'.news = net.news)
    (own : net'.Holds t n ↔ net.Holds t n) (others : ∀ m, m ≠ n → net'.node m = net.node m) : Going lib linked t net' := by
  have holds (m : N) : net'.Holds t m ↔ net.Holds t m := by
    by_cases same : m = n
    · subst same
      exact own
    · unfold Network.Holds
      rw [others m same]
  have same (push : Push N) : push ∈ net'.pushes ++ net'.news ↔ push ∈ net.pushes ++ net.news := by
    rw [pushes,news]
  exact going.step (fun m => (holds m).mpr) (fun push mem _ => .inl ((same push).mp mem))
    (fun push mem _ => .inl ((same push).mpr mem)) (fun i _ _ isHeld => .inl ((holds i).mp isHeld))

theorem Accepts.holds (accepts : Accepts lib net n tx net') :
    net'.Holds t m ↔ net.Holds t m ∨ m = n ∧ tx.transaction.txid lib = t := by
  unfold Network.Holds
  by_cases own : m = n
  · subst own
    rw [(MemPool.putSource accepts.put).transactions,Table.tryGetPut]
    split
    · next same => simp [same]
    · next other => simp [Ne.symm other]
  · rw [accepts.others m own]
    simp [own]

variable [DecidableEq N]

theorem tellNews {exclude peers : List N} {result : Db F × Except NodeError (Option AuthorizedTransaction)} :
    (net.tell n exclude peers result).news = net.news := by
  unfold Network.tell
  dsimp only
  split
  · rfl
  · rfl

theorem Going.told (going : Going lib linked t net) {exclude peers : List N} {news : List (Push N)}
    {result : Db F × Except NodeError (Option AuthorizedTransaction)} (handled : Handled lib (net.node n) tx result)
    (fewer : ∀ push ∈ news, push ∈ net.news)
    (taken : ∀ push ∈ net.news, push ∈ news ∨ push.receiver = n ∧ push.tx = tx)
    (carries : tx.transaction.txid lib = t → (∀ m, linked n m → m ∈ peers) ∧ ∀ m ∈ exclude, net.Holds t m)
    (ends : tx.transaction.txid lib = t → news = net.news ∨ net.Holds t n ∨ ∃ told, result.2 = .ok (some told)) :
    Going lib linked t ({ net with news }.tell n exclude peers result) := by
  have isNews : ({ net with news }.tell n exclude peers result).news = news := tellNews
  rcases handled with ⟨proof,told,put⟩ | ⟨same,silent⟩
  · have outcome : Accepts lib { net with news } n (reproved tx proof) ({ net with news }.tell n exclude peers result) ∧
        ({ net with news }.tell n exclude peers result).pushes = _ := tellAccepts told put
    generalize { net with news }.tell n exclude peers result = net' at isNews outcome
    obtain ⟨accepts,pushes⟩ := outcome
    have accepted : Accepts lib net n (reproved tx proof) net' := ⟨accepts.put,accepts.others,accepts.sent⟩
    have distinct : (MemPool.spends tx).Nodup := by
      simp only [MemPool.put,bindOk] at put
      obtain ⟨_,spends,_⟩ := put
      exact spendInputsDistinct spends
    refine going.step (fun m holds => accepted.holds.mpr (.inl holds)) (fun push mem isTx => ?_) (fun push mem isTx => ?_)
      (fun i j isLinked holds => ?_)
    · rw [pushes,isNews,List.append_assoc] at mem
      rcases List.mem_append.mp mem with before | mem
      · exact .inl (List.mem_append_left _ before)
      · rcases List.mem_append.mp mem with new | inNews
        · obtain ⟨peer,_,rfl⟩ := List.mem_map.mp new
          exact .inr ⟨accepted.holds.mpr (.inr ⟨rfl,isTx⟩),distinct⟩
        · exact .inl (List.mem_append_right _ (fewer push inNews))
    · rw [pushes,isNews]
      rcases List.mem_append.mp mem with before | inNews
      · exact .inl (List.mem_append_left _ (List.mem_append_left _ before))
      · rcases taken push inNews with stays | ⟨own,isOwn⟩
        · exact .inl (List.mem_append_right _ stays)
        · exact .inr (accepted.holds.mpr (.inr ⟨own,isOwn ▸ isTx⟩))
    · rcases accepted.holds.mp holds with before | ⟨rfl,isTx⟩
      · exact .inl before
      · obtain ⟨full,sources⟩ := carries isTx
        by_cases isSource : j ∈ exclude
        · exact .inr (.inl (accepted.holds.mpr (.inl (sources j isSource))))
        · refine .inr (.inr ⟨⟨i,j,reproved tx proof⟩,?_,rfl,rfl,isTx⟩)
          rw [pushes]
          refine List.mem_append_left _ (List.mem_append_right _ (List.mem_map.mpr ⟨j,?_,rfl⟩))
          rw [List.mem_filter,List.contains_eq_mem,decide_eq_false isSource]
          exact ⟨full j isLinked,rfl⟩
  · have outcome : Idle { net with news } ({ net with news }.tell n exclude peers result) ∧
        ({ net with news }.tell n exclude peers result).pushes = _ := tellIdle same silent
    generalize { net with news }.tell n exclude peers result = net' at isNews outcome
    obtain ⟨idle,pushes⟩ := outcome
    have holds (m : N) : net'.Holds t m ↔ net.Holds t m := by
      unfold Network.Holds
      rw [idle.pools m]
    refine going.step (fun m => (holds m).mpr) (fun push mem isTx => ?_) (fun push mem isTx => ?_)
      (fun i j _ isHeld => .inl ((holds i).mp isHeld))
    · rw [pushes,isNews] at mem
      rcases List.mem_append.mp mem with before | inNews
      · exact .inl (List.mem_append_left _ before)
      · exact .inl (List.mem_append_right _ (fewer push inNews))
    · rw [pushes,isNews]
      rcases List.mem_append.mp mem with before | inNews
      · exact .inl (List.mem_append_left _ before)
      · rcases taken push inNews with stays | ⟨own,isOwn⟩
        · exact .inl (List.mem_append_right _ stays)
        · rcases ends (isOwn ▸ isTx) with all | held | ⟨told,isTold⟩
          · exact .inl (List.mem_append_right _ (all ▸ inNews))
          · exact .inr ((holds _).mpr (own ▸ held))
          · exact absurd isTold (silent told)

/- The transaction is pushed to all neighbours, its pushes come from nodes and are not lost, who gets it can put it in its
pool, and no block or removal brings it into a pool or takes it out. -/
def NetworkStep.Carries (lib : Externals F) (ctxt : BatchVerificationContext)
    (prove : F → List Hash → Except Text UtreexoProof) (linked : N → N → Prop) (t : Txid) (net : Network F N) :
    NetworkStep N → Prop
  | .submit n tx peers => tx.transaction.txid lib = t → ∀ m, linked n m → m ∈ peers
  | .receive i => ∀ push, net.pushes[i]? = some push → push.tx.transaction.txid lib = t →
      net.Holds t push.receiver ∨ ∃ fee, validateTransaction lib (net.node push.receiver).state ctxt push.tx = .ok fee
  | .take i peers => ∀ push, net.news[i]? = some push → push.tx.transaction.txid lib = t →
      (∀ m, linked push.receiver m → m ∈ peers) ∧
        (net.Holds t push.receiver ∨ Welcome lib ctxt prove (net.node push.receiver) push.tx)
  | .lose i => ∀ push, net.pushes[i]? = some push → push.tx.transaction.txid lib ≠ t
  | .outside push => push.tx.transaction.txid lib ≠ t
  | .chain n step => (NetworkStep.apply lib ctxt prove net (.chain n step)).Holds t n ↔ net.Holds t n
  | .removeFromMempool n txid =>
      (NetworkStep.apply lib ctxt prove net (.removeFromMempool n txid)).Holds t n ↔ net.Holds t n

theorem leftOrTaken {α : Type} {list : List α} {i : Nat} {x a : α} (mem : x ∈ list) (isAt : list[i]? = some a) :
    x ∈ list.eraseIdx i ∨ x = a := by
  obtain ⟨j,isX⟩ := List.mem_iff_getElem?.mp mem
  by_cases same : j = i
  · subst same
    exact .inr (Option.some.inj (isX.symm.trans isAt))
  · exact .inl (List.mem_eraseIdx_iff_getElem?.mpr ⟨j,same,isX⟩)

theorem Going.receive {i : Nat} (going : Going lib linked t net)
    (carries : (NetworkStep.receive i : NetworkStep N).Carries lib ctxt prove linked t net) :
    Going lib linked t (NetworkStep.apply lib ctxt prove net (.receive i)) := by
  unfold NetworkStep.apply
  dsimp only
  split
  · exact going
  · next push isAt =>
      have fewer {other : Push N} (mem : other ∈ net.pushes.eraseIdx i) : other ∈ net.pushes :=
        List.mem_of_mem_eraseIdx mem
      split
      · refine going.moves rfl (fun other mem _ => ?_) (fun other mem _ => .inl ?_)
        · rw [List.mem_append,List.mem_append,List.mem_singleton] at mem
          rcases mem with before | inNews | rfl
          · exact List.mem_append_left _ (fewer before)
          · exact List.mem_append_right _ inNews
          · exact List.mem_append_left _ (List.mem_of_getElem? isAt)
        · rcases List.mem_append.mp mem with before | inNews
          · rcases leftOrTaken before isAt with left | rfl
            · exact List.mem_append_left _ left
            · exact List.mem_append_right _ (List.mem_append_right _ (List.mem_singleton_self _))
          · exact List.mem_append_right _ (List.mem_append_left _ inNews)
      · next err invalid =>
          -- a push whose transaction is invalid is dropped: its receiver must hold the transaction already
          refine going.moves rfl (fun other mem _ => ?_) (fun other mem isTx => ?_)
          · rcases List.mem_append.mp mem with before | inNews
            · exact List.mem_append_left _ (fewer before)
            · exact List.mem_append_right _ inNews
          · rcases List.mem_append.mp mem with before | inNews
            · rcases leftOrTaken before isAt with left | rfl
              · exact .inl (List.mem_append_left _ left)
              · rcases carries other isAt isTx with holds | ⟨fee,valid⟩
                · exact .inr holds
                · cases invalid.symm.trans valid
            · exact .inl (List.mem_append_right _ inNews)

theorem Going.take {i : Nat} {peers : List N} (going : Going lib linked t net)
    (carries : (NetworkStep.take i peers).Carries lib ctxt prove linked t net) :
    Going lib linked t (NetworkStep.apply lib ctxt prove net (.take i peers)) := by
  unfold NetworkStep.apply
  dsimp only
  split
  · exact going
  · next push isAt =>
      have inNews := List.mem_append_right net.pushes (List.mem_of_getElem? isAt)
      refine going.told newHandled (fun _ mem => List.mem_of_mem_eraseIdx mem) (fun other mem => ?_) (fun isTx => ?_)
        (fun isTx => .inr ?_)
      · rcases leftOrTaken mem isAt with left | rfl
        · exact .inl left
        · exact .inr ⟨rfl,rfl⟩
      · refine ⟨(carries push isAt isTx).1,fun m isSource => ?_⟩
        rw [List.mem_singleton.mp isSource]
        exact going.covered.sender _ _ ⟨push,inNews,rfl,rfl,isTx⟩
      · rcases (carries push isAt isTx).2 with holds | welcome
        · exact .inl holds
        · obtain ⟨proof,mempool,accepted⟩ := welcomed welcome (going.distinct push inNews isTx)
          exact .inr ⟨reproved push.tx proof,congrArg Prod.snd accepted⟩

theorem Going.lose {i : Nat} (going : Going lib linked t net)
    (carries : (NetworkStep.lose i : NetworkStep N).Carries lib ctxt prove linked t net) :
    Going lib linked t (NetworkStep.apply lib ctxt prove net (.lose i)) := by
  refine going.moves rfl (fun other mem _ => ?_) (fun other mem isTx => .inl ?_)
  · rcases List.mem_append.mp mem with before | inNews
    · exact List.mem_append_left _ (List.mem_of_mem_eraseIdx before)
    · exact List.mem_append_right _ inNews
  · rcases List.mem_append.mp mem with before | inNews
    · refine List.mem_append_left _ ?_
      show other ∈ net.pushes.eraseIdx i
      cases isAt : net.pushes[i]? with
      | none =>
          rw [List.eraseIdx_of_length_le (List.getElem?_eq_none_iff.mp isAt)]
          exact before
      | some push =>
          rcases leftOrTaken before isAt with left | rfl
          · exact left
          · exact absurd isTx (carries other isAt)
    · exact List.mem_append_right _ inNews

theorem Going.outside {push : Push N} (going : Going lib linked t net) (other : push.tx.transaction.txid lib ≠ t) :
    Going lib linked t (NetworkStep.apply lib ctxt prove net (.outside push)) := by
  refine going.moves rfl (fun present mem isTx => ?_) (fun present mem _ => .inl ?_)
  · rcases List.mem_append.mp mem with pushed | inNews
    · rcases List.mem_append.mp pushed with before | new
      · exact List.mem_append_left _ before
      · rw [List.mem_singleton.mp new] at isTx
        exact absurd isTx other
    · exact List.mem_append_right _ inNews
  · rcases List.mem_append.mp mem with before | inNews
    · exact List.mem_append_left _ (List.mem_append_left _ before)
    · exact List.mem_append_right _ inNews

theorem Going.removed {txid : Txid} (going : Going lib linked t net)
    (own : (NetworkStep.apply lib ctxt prove net (.removeFromMempool n txid)).Holds t n ↔ net.Holds t n) :
    Going lib linked t (NetworkStep.apply lib ctxt prove net (.removeFromMempool n txid)) := by
  have takes : (NetworkStep.removeFromMempool n txid).TakesFrom n := rfl
  refine going.stays ?_ ?_ own (takingOutcome takes).2
  · unfold NetworkStep.apply
    dsimp only
    split
    · rfl
    · rfl
  · unfold NetworkStep.apply
    dsimp only
    split
    · rfl
    · rfl

variable {step : NetworkStep N} {steps : List (NetworkStep N)}

theorem Going.apply (going : Going lib linked t net) (carries : step.Carries lib ctxt prove linked t net) :
    Going lib linked t (step.apply lib ctxt prove net) := by
  cases step with
  | submit n tx peers =>
      exact going.told submittedHandled (fun _ mem => mem) (fun _ mem => .inl mem)
        (fun isTx => ⟨carries isTx,fun _ mem => absurd mem List.not_mem_nil⟩) (fun _ => .inl rfl)
  | receive i => exact going.receive carries
  | take i peers => exact going.take carries
  | lose i => exact going.lose carries
  | outside push => exact going.outside carries
  | chain n step =>
      have takes : (NetworkStep.chain n step).TakesFrom n := rfl
      exact going.stays rfl rfl carries (takingOutcome takes).2
  | removeFromMempool n txid => exact going.removed carries

/- When no push of a transaction is under way any more, every node that a path of connections joins to a holder has it. -/
theorem spreadsEverywhere {i j : N} (carries : ∀ before step after, steps = before ++ step :: after →
      step.Carries lib ctxt prove linked t (runNetwork lib ctxt prove before))
    (quiet : ∀ push ∈ (runNetwork lib ctxt prove steps).pushes ++ (runNetwork lib ctxt prove steps).news,
      push.tx.transaction.txid lib ≠ t)
    (path : Relation.ReflTransGen linked i j) (holds : (runNetwork lib ctxt prove steps).Holds t i) :
    (runNetwork lib ctxt prove steps).Holds t j := by
  have going : Going lib linked t (runNetwork lib ctxt prove steps) := by
    refine foldlPrefix (P := fun net : Network F N => Going lib linked t net) ?_
      (fun before step after split going => going.apply (carries before step after split))
    refine ⟨⟨?_,fun i _ _ holds => ?_⟩,fun _ mem => absurd mem List.not_mem_nil⟩
    · rintro i j ⟨push,mem,_⟩
      exact absurd mem List.not_mem_nil
    · cases holds
  refine going.covered.reached (fun _ _ => ?_) path holds
  rintro ⟨push,mem,_,_,isTx⟩
  exact quiet push mem isTx

namespace Reference

open Coinshift.Reference

def row : List (Nat × Nat) := [(0,1),(1,0),(1,2),(2,1)]

def rowSteps : List (NetworkStep Nat) := fundedNode 0 ++ fundedNode 1 ++ fundedNode 2 ++
  [.submit 0 payment [1],.receive 0,.take 0 [0,2],.receive 0,.take 0 [1]]

def tellsRow (n : Nat) (peers : List Nat) : Bool := row.all (fun link => link.1 ≠ n || peers.contains link.2)

def carriesCheck (net : Network Forest Nat) : NetworkStep Nat → Bool
  | .submit n _ peers => tellsRow n peers
  | .receive i => net.pushes[i]?.all (fun push =>
      (validateTransaction externals (net.node push.receiver).state context push.tx).isOk)
  | .take i peers => net.news[i]?.all (fun push => tellsRow push.receiver peers &&
      (validateTransaction externals (net.node push.receiver).state context (reproved push.tx ⟨[],[]⟩)).isOk &&
      (MemPool.spends push.tx).all (fun o => ((net.node push.receiver).mempool.spentUtxos.tryGet o).isNone))
  | .chain n step =>
      (((NetworkStep.chain n step).apply externals context anyProof net).node n).mempool.transactions.tryGet
        (payment.transaction.txid externals) = none &&
      (net.node n).mempool.transactions.tryGet (payment.transaction.txid externals) = none
  | _ => false

theorem tellsRowAll {n : Nat} {peers : List Nat} (tells : tellsRow n peers = true) (m : Nat) (isLinked : (n,m) ∈ row) :
    m ∈ peers := by
  have told := List.all_eq_true.mp tells (n,m) isLinked
  rw [Bool.or_eq_true,decide_eq_true_eq,List.contains_iff_mem] at told
  rcases told with other | told
  · exact absurd rfl other
  · exact told

theorem rowCarries : ∀ before step after, rowSteps = before ++ step :: after →
    step.Carries externals context anyProof (fun i j => (i,j) ∈ row) (payment.transaction.txid externals)
      (runNetwork externals context anyProof before) := by
  have checked : foldlEvery (NetworkStep.apply externals context anyProof) carriesCheck rowSteps (.new Forest Nat) =
      true := by decide +kernel
  intro before step after split
  rw [split] at checked
  have here : carriesCheck (runNetwork externals context anyProof before) step = true := foldlEveryTaken checked
  cases step with
  | submit n tx peers => exact fun _ => tellsRowAll here
  | receive i =>
      intro push isAt _
      unfold carriesCheck at here
      dsimp only at here
      rw [isAt] at here
      exact .inr (isOkExists here)
  | take i peers =>
      intro push isAt _
      unfold carriesCheck at here
      dsimp only at here
      rw [isAt,Option.all_some,Bool.and_eq_true,Bool.and_eq_true] at here
      obtain ⟨⟨tells,valid⟩,free⟩ := here
      obtain ⟨fee,valid⟩ := isOkExists valid
      refine ⟨tellsRowAll tells,.inr ⟨⟨[],[]⟩,fee,rfl,valid,fun o spent => ?_⟩⟩
      exact Option.isNone_iff_eq_none.mp (List.all_eq_true.mp free o spent)
  | chain n step =>
      unfold carriesCheck at here
      dsimp only at here
      rw [Bool.and_eq_true,decide_eq_true_eq,decide_eq_true_eq] at here
      unfold NetworkStep.Carries Network.Holds
      dsimp only
      rw [here.1,here.2]
  | lose => cases here
  | outside => cases here
  | removeFromMempool => cases here

theorem rowReached :
    (runNetwork externals context anyProof rowSteps).Holds (payment.transaction.txid externals) 2 := by
  have quiet : (runNetwork externals context anyProof rowSteps).pushes = [] ∧
      (runNetwork externals context anyProof rowSteps).news = [] := by decide +kernel
  have holds : (runNetwork externals context anyProof rowSteps).Holds (payment.transaction.txid externals) 0 := by
    unfold Network.Holds
    decide +kernel
  have path : Relation.ReflTransGen (fun i j => (i,j) ∈ row) 0 2 :=
    .head (show (0,1) ∈ row by decide) (.single (show (1,2) ∈ row by decide))
  refine spreadsEverywhere rowCarries (fun push mem => ?_) path holds
  rw [quiet.1,quiet.2] at mem
  cases mem

end Reference

end Spread

end Coinshift.NetTask
