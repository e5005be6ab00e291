import Coinshift.BestTip
import Coinshift.HeaderStore

/-! The loop of the net task, as far as its items reach the blocks.
Both a tip that is ready and a main-chain block event lead to a reorganisation. The first of them looks at what it
returns; the other passes an error on, and the loop ends with it. -/
namespace Coinshift.NetTask
open Checked

variable {F : Type}

section Loop

variable (lib : Externals F) (ctxt : BatchVerificationContext) (prove : F → List Hash → Except Text UtreexoProof)

/- A body is stored under the hash of the header that comes with it. A peer that sends another header is dropped. -/
def handleBlockResponse (db : Db F) (blockHash : BlockHash) (header : Header) (body : Body) : Db F :=
  if header.hash lib ≠ blockHash then db
  else
    match db.archive.putBody blockHash body with
    | .ok archive => { db with archive }
    | .error _ => db

/- The blocks are disconnected down to a listed one, without the two-way-peg data that was connected with them. -/
def disconnectToListed : Nat → Db F → Except NodeError (Db F)
  | fuel, db =>
      match db.state.tip with
      | none => .ok db
      | some stateTip =>
          if (db.archive.sideTips.sidechainTips.tryGet stateTip).isSome then .ok db
          else
            match fuel with
            | 0 => .error (.archive .endless)
            | fuel + 1 => do
                let header ← (db.archive.getHeader stateTip).mapError .archive
                let body ← (db.archive.getBody stateTip).mapError .archive
                let state ← (disconnectTip lib db.state header body).mapError .state
                disconnectToListed fuel { db with state, connected := db.connected.tail }

def disconnectedToListed (db : Db F) : Except NodeError (Db F) := disconnectToListed lib (db.state.height.getD 0 + 2) db

def bestTip (archive : Archive F) : Option Tip :=
  archive.sideTips.bestSideTip.map (fun best => ⟨best.1,best.2.mainBlockHash⟩)

def handleMainchainBlockEvent (db : Db F) (rpc : BlockHash → RpcReplies) : Db F × Except NodeError Unit :=
  match disconnectedToListed lib db with
  | .error err => (db,.error err)
  | .ok db =>
      match bestTip db.archive with
      | none => (db,.ok ())
      | some bestSideTip =>
          let (db,result) := reorgToTip lib ctxt prove db bestSideTip rpc
          (db,result.map (fun _ => ()))

/- Only a listed tip of the current main chain is taken. -/
def takesTip (archive : Archive F) (newTip : Tip) : Except ArchiveError Bool :=
  if (archive.sideTips.sidechainTips.tryGet newTip.blockHash).isNone then pure false
  else archive.isMainDescendant newTip.mainBlockHash archive.sideTips.mainchainTip.blockHash

def handleNewTipReady (db : Db F) (newTip : Tip) (rpc : BlockHash → RpcReplies) : Db F × Except NodeError Bool :=
  match takesTip db.archive newTip with
  | .error err => (db,.error (.archive err))
  | .ok false => (db,.ok false)
  | .ok true => reorgToTip lib ctxt prove db newTip rpc

/- Items of the mailbox, and what other tasks do to the archive between them. -/
inductive NetItem where
  | mainchainBlockEvent (rpc : BlockHash → RpcReplies)
  | newTipReady (newTip : Tip) (rpc : BlockHash → RpcReplies)
  | blockResponse (blockHash : BlockHash) (header : Header) (body : Body)
  | other (op : ArchiveOp)

def NetItem.handle (db : Db F) : NetItem → Db F × Except NodeError Unit
  | .mainchainBlockEvent rpc => handleMainchainBlockEvent lib ctxt prove db rpc
  | .newTipReady newTip rpc =>
      match handleNewTipReady lib ctxt prove db newTip rpc with
      | (db,.ok _) => (db,.ok ())
      -- the peer that the tip came from is dropped
      | (db,.error err) => if isFatalReorgError err then (db,.error err) else (db,.ok ())
  | .blockResponse blockHash header body => (handleBlockResponse lib db blockHash header body,.ok ())
  | .other op =>
      match op.apply lib db.archive with
      | .ok archive => ({ db with archive },.ok ())
      | .error _ => (db,.ok ())

/- The loop stops at the first error. -/
def runNet (db : Db F) : List NetItem → Db F × Except NodeError Unit
  | [] => (db,.ok ())
  | item :: items =>
      match item.handle lib ctxt prove db with
      | (db,.ok _) => runNet db items
      | (db,.error err) => (db,.error err)

def reorgOf (db : Db F) : NetItem → Option (Db F × Tip × (BlockHash → RpcReplies))
  | .mainchainBlockEvent rpc =>
      match disconnectedToListed lib db with
      | .ok db => (bestTip db.archive).map (fun bestSideTip => (db,bestSideTip,rpc))
      | .error _ => none
  | .newTipReady newTip rpc =>
      match takesTip db.archive newTip with
      | .ok true => some (db,newTip,rpc)
      | _ => none
  | _ => none

def NetItem.isNewTipReady : NetItem → Bool
  | .newTipReady _ _ => true
  | _ => false

end Loop

variable {lib : Externals F} {ctxt : BatchVerificationContext} {prove : F → List Hash → Except Text UtreexoProof}
  {db db' committed working : Db F} {rpc : BlockHash → RpcReplies} {item : NetItem} {items : List NetItem} {newTip : Tip}
  {err : Error}

theorem runNetGoes (handled : item.handle lib ctxt prove db = (db',.ok ())) :
    runNet lib ctxt prove db (item :: items) = runNet lib ctxt prove db' items := by
  rw [runNet,handled]

theorem runNetStops {err : NodeError} (handled : item.handle lib ctxt prove db = (db',.error err)) :
    runNet lib ctxt prove db (item :: items) = (db',.error err) := by
  rw [runNet,handled]

theorem runNetAppend {before after : List NetItem} (ran : runNet lib ctxt prove db before = (db',.ok ())) :
    runNet lib ctxt prove db (before ++ after) = runNet lib ctxt prove db' after := by
  induction before generalizing db with
  | nil =>
      cases ran
      rfl
  | cons item before ih =>
      rw [runNet] at ran
      rw [List.cons_append,runNet]
      split at ran
      · exact ih ran
      · cases ran

theorem handleReorg {start : Db F} (leads : reorgOf lib db item = some (start,newTip,rpc))
    (failed : reorgToTip lib ctxt prove start newTip rpc = (db',.error (.state err))) :
    item.handle lib ctxt prove db = (db',if item.isNewTipReady then .ok () else .error (.state err)) := by
  cases item with
  | mainchainBlockEvent rpc' =>
      simp only [reorgOf] at leads
      split at leads
      · next middle disconnected =>
          obtain ⟨best,isBest,same⟩ := Option.map_eq_some_iff.mp leads
          cases same
          simp only [NetItem.handle,handleMainchainBlockEvent,disconnected,isBest,failed]
          rfl
      · cases leads
  | newTipReady newTip' rpc' =>
      simp only [reorgOf] at leads
      split at leads
      · next takes =>
          cases leads
          simp only [NetItem.handle,handleNewTipReady,takes,failed]
          rfl
      · cases leads
  | blockResponse blockHash header body => cases leads
  | other op => cases leads

theorem deletedBody {archive archive' : Archive F} {b : BlockHash} (ok : archive.deleteBody b = .ok archive') :
    archive'.bodies.tryGet b = none := by
  obtain ⟨tips,rfl⟩ := Archive.disconnectQueueFrame ok
  exact Table.tryGetDeleteSelf

theorem reachedNoState {tip : Option Tip} : reachedBetter working tip ≠ .error (.state err) := by
  intro failed
  simp only [reachedBetter,bindError,mapErrorError,okOrError,reduceCtorEq,and_false,exists_false,or_self] at failed

theorem applyBlocksRejects {tip : Option Tip} {batch : List (Hash × List BlockEvent)} {blocks : List Block}
    (failed : applyBlocks lib ctxt prove tip rpc committed working batch blocks = (db',.error (.state err))) :
    ∃ block ∈ blocks, db'.archive.bodies.tryGet (block.1.hash lib) = none := by
  induction blocks generalizing committed working batch with
  | nil => cases failed
  | cons block blocks ih =>
      rw [applyBlocks] at failed
      dsimp only at failed
      split at failed
      · next err' rejected =>
          unfold discardBody at failed
          split at failed
          · next fatal =>
              cases failed
              cases fatal
          · split at failed
            · next archive deleted =>
                cases failed
                exact ⟨block,List.mem_cons_self,deletedBody deleted⟩
            · cases failed
      · have later {start : Db F} {left : List (Hash × List BlockEvent)} {next : Db F}
            (failed : applyBlocks lib ctxt prove tip rpc start next left blocks = (db',.error (.state err))) :
            ∃ other ∈ block :: blocks, db'.archive.bodies.tryGet (other.1.hash lib) = none := by
          obtain ⟨other,mem,gone⟩ := ih failed
          exact ⟨other,List.mem_cons_of_mem _ mem,gone⟩
        split at failed
        · next err' unknown =>
            cases failed
            exact absurd unknown reachedNoState
        · exact later failed
        · exact later failed

theorem reorgRejects {reorg : Reorg F} (started : startReorg lib prove db newTip = .ok (some reorg))
    (failed : reorgToTip lib ctxt prove db newTip rpc = (db',.error (.state err))) :
    ∃ block ∈ reorg.blocks, db'.archive.bodies.tryGet (block.1.hash lib) = none := by
  rw [reorgToTip,started] at failed
  dsimp only at failed
  split at failed
  · next committed err' applied =>
      cases failed
      exact applyBlocksRejects applied
  · split at failed
    · cases failed
    · cases failed

/- The loop goes on to the next item, and a block that was to be applied has lost its body, exactly if it was a tip
that was ready. -/
theorem goesOnIff {before : List NetItem} {start : Db F} (ran : runNet lib ctxt prove db before = (working,.ok ()))
    (leads : reorgOf lib working item = some (start,newTip,rpc))
    (failed : reorgToTip lib ctxt prove start newTip rpc = (db',.error (.state err))) :
    ((∀ after, runNet lib ctxt prove db (before ++ item :: after) = runNet lib ctxt prove db' after) ∧
      ∀ reorg, startReorg lib prove start newTip = .ok (some reorg) →
        ∃ block ∈ reorg.blocks, db'.archive.bodies.tryGet (block.1.hash lib) = none) ↔ item.isNewTipReady = true := by
  have handled := handleReorg leads failed
  cases ready : item.isNewTipReady with
  | false =>
      rw [ready] at handled
      refine iff_of_false ?_ Bool.false_ne_true
      rintro ⟨goesOn,_⟩
      have stops := goesOn []
      rw [runNetAppend ran,runNetStops handled] at stops
      cases stops
  | true =>
      rw [ready] at handled
      refine iff_of_true ⟨fun after => ?_,fun reorg started => reorgRejects started failed⟩ rfl
      rw [runNetAppend ran,runNetGoes handled]

theorem disconnectToListedEnds {fuel : Nat} (enough : tipsLeft db ≤ fuel + 1) :
    disconnectToListed lib fuel db ≠ .error (.archive .endless) := by
  induction fuel generalizing db with
  | zero =>
      unfold disconnectToListed
      cases isTip : db.state.tip with
      | none => rintro ⟨⟩
      | some tip =>
          simp only [tipsLeft,isTip] at enough
          omega
  | succ fuel ih =>
      unfold disconnectToListed
      split
      · rintro ⟨⟩
      · split
        · rintro ⟨⟩
        · intro failed
          simp only [Archive.getHeader,Archive.getBody,bindError,mapErrorError,mapErrorOk,okOrOk,okOrError,reduceCtorEq,
            and_false,exists_false,false_or] at failed
          rcases failed with ⟨_,⟨_,rfl⟩,same⟩ | ⟨header,_,⟨_,⟨_,rfl⟩,same⟩ | ⟨body,_,state,disconnected,failed⟩⟩
          · cases same
          · cases same
          · have left : tipsLeft { db with state, connected := db.connected.tail } ≤ fuel + 1 :=
              Nat.le_of_succ_le_succ (Nat.le_trans (disconnectLeft disconnected) enough)
            exact ih left failed

theorem disconnectedToListedEnds : disconnectedToListed lib db ≠ .error (.archive .endless) := by
  refine disconnectToListedEnds ?_
  unfold tipsLeft
  split
  · exact Nat.le_succ _
  · exact Nat.succ_le_succ (Nat.zero_le _)

section Stopped

open Archive Reference

def invalidItems : List NetItem :=
  (forkMain.take 2).map (fun entry => .other (.handleBlockEvent (.connectBlock entry.1 (forkInfo entry.2)))) ++
    [.other (.putHeader forkGenesis),.blockResponse (forkGenesis.hash externals) forkGenesis ⟨[],[],[]⟩]

def invalidDb : Db Forest := (runNet externals context noProof (Db.new Forest) invalidItems).1

def invalidTip : Tip := ⟨forkGenesis.hash externals,2⟩

theorem pairOf {α β : Type} {pair : α × β} {second : β} (same : pair.2 = second) : pair = (pair.1,second) := by
  rw [← same]

theorem invalidRan : runNet externals context noProof (Db.new Forest) invalidItems = (invalidDb,.ok ()) := by
  have ran : (runNet externals context noProof (Db.new Forest) invalidItems).2.isOk = true := by decide +kernel
  obtain ⟨_,isOk⟩ := isOkExists ran
  exact pairOf isOk

def stateErrorOf : Except NodeError Bool → Option Error
  | .error (.state err) => some err
  | _ => none

theorem stateErrorOk {r : Except NodeError Bool} (isSome : (stateErrorOf r).isSome = true) : ∃ err, r = .error (.state err) := by
  unfold stateErrorOf at isSome
  split at isSome
  · exact ⟨_,rfl⟩
  · cases isSome

theorem invalidRejected : ∃ db err, reorgToTip externals context noProof invalidDb invalidTip (fun _ => noRpc) =
    (db,.error (.state err)) := by
  have fails : (stateErrorOf (reorgToTip externals context noProof invalidDb invalidTip (fun _ => noRpc)).2).isSome = true := by
    decide +kernel
  obtain ⟨err,isError⟩ := stateErrorOk fails
  exact ⟨_,err,pairOf isError⟩

theorem invalidReady : reorgOf externals invalidDb (.newTipReady invalidTip (fun _ => noRpc)) =
    some (invalidDb,invalidTip,fun _ => noRpc) := by
  have takes : takesTip invalidDb.archive invalidTip = .ok true := by decide +kernel
  simp only [reorgOf,takes]

theorem invalidBest : reorgOf externals invalidDb (.mainchainBlockEvent (fun _ => noRpc)) =
    some (invalidDb,invalidTip,fun _ => noRpc) := by
  have noTip : invalidDb.state.tip = none := by decide +kernel
  have best : invalidDb.archive.sideTips.bestSideTip = some (forkGenesis.hash externals,⟨0,2,2⟩) :=
    bestByEntries (by decide +kernel)
  have stays : disconnectedToListed externals invalidDb = .ok invalidDb := by
    rw [disconnectedToListed,disconnectToListed]
    simp only [noTip]
  simp only [reorgOf,stays,bestTip,best]
  rfl

/- As a tip that is ready the block is discarded and the loop goes on. -/
theorem invalidTipPassed : ∃ db, (∀ after, runNet externals context noProof (Db.new Forest)
      (invalidItems ++ .newTipReady invalidTip (fun _ => noRpc) :: after) = runNet externals context noProof db after) ∧
    db.archive.bodies.tryGet invalidTip.blockHash = none := by
  obtain ⟨db,err,rejected⟩ := invalidRejected
  have goesOn := (goesOnIff invalidRan invalidReady rejected).mpr rfl
  have only : (startReorg externals noProof invalidDb invalidTip).toOption.join.map
      (fun reorg => reorg.blocks.map (fun block => block.1.hash externals)) = some [invalidTip.blockHash] := by decide +kernel
  obtain ⟨reorg,joined,named⟩ := Option.map_eq_some_iff.mp only
  obtain ⟨block,mem,gone⟩ := goesOn.2 reorg (toOptionOk (Option.join_eq_some_iff.mp joined))
  have name := List.mem_map_of_mem (f := fun block : Block => block.1.hash externals) mem
  rw [named,List.mem_singleton] at name
  exact ⟨db,goesOn.1,name ▸ gone⟩

/- The same block ends the loop when the next item is a main-chain block event. -/
theorem mainchainEventStops : ∃ (items : List NetItem) (db db' : Db Forest) (newTip : Tip) (err : Error),
    runNet externals context noProof (Db.new Forest) items = (db,.ok ()) ∧
    reorgOf externals db (.mainchainBlockEvent (fun _ => noRpc)) = some (db,newTip,fun _ => noRpc) ∧
    reorgToTip externals context noProof db newTip (fun _ => noRpc) = (db',.error (.state err)) ∧
    ∀ after, runNet externals context noProof (Db.new Forest)
      (items ++ .mainchainBlockEvent (fun _ => noRpc) :: after) = (db',.error (.state err)) := by
  obtain ⟨db,err,rejected⟩ := invalidRejected
  refine ⟨invalidItems,invalidDb,db,invalidTip,err,invalidRan,invalidBest,rejected,fun after => ?_⟩
  rw [runNetAppend invalidRan]
  exact runNetStops (handleReorg invalidBest rejected)

end Stopped

end Coinshift.NetTask
