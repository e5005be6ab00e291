import Coinshift.ArchiveRuns
import Coinshift.MemPool
import Coinshift.StepEffects

/-! The changes of tip: one block connected or disconnected, and the reorganisation made of them.
The database holds the archive, the state and the mempool; an open transaction is a copy of it that is committed or
dropped. `connected` is not stored: it follows which blocks are connected and with what, and nothing reads it.
Heights are 32 bits wide and their sums and differences wrap around, as in a release build. A walk back along the
main chain comes to no block twice. -/
namespace Coinshift.NetTask
open Checked

structure Connected where
  header : Header
  body : Body
  twoWayPegData : TwoWayPegData
  -- whether the peg data left anything to take back
  effects : Bool
  deriving DecidableEq, Repr

structure Db (F : Type) where
  archive : Archive F
  state : State F
  mempool : MemPool
  -- latest first
  connected : List Connected

def Db.new (F : Type) : Db F := ⟨Archive.new F,State.new F,MemPool.new,[]⟩

inductive NodeError where
  | archive (source : ArchiveError)
  | mempool (source : MemPoolError)
  | state (source : Error)
  | panic
  deriving DecidableEq, Repr

def isFatalReorgError : NodeError → Bool
  | .state _ => false
  | _ => true

variable {F : Type} (lib : Externals F) (ctxt : BatchVerificationContext)
  (prove : F → List Hash → Except Text UtreexoProof)

section Connect

def collectsBundle (t : PegTables) (utxos : Table OutPoint Output) (height : Nat) : Bool :=
  t.pendingWithdrawalBundle.isNone && utxos.entries.any (fun utxo => utxo.2.content.isWithdrawal) &&
    t.getLatestFailedWithdrawalBundle.toOption.any (fun failed =>
      withdrawalBundleFailureGap ≤ height - (failed.map (·.1)).getD 0)

/- Events, a swap that is due, or a bundle to collect. -/
def leavesEffects (s : State F) (data : TwoWayPegData) : Bool :=
  let height := s.height.getD 0
  !data.events.isEmpty || s.loadAllSwaps.any (fun swap => swap.expiresAt height) ||
    collectsBundle s.toPegTables s.utxos height

def effectsLeft (db : Db F) (header : Header) (body : Body) (twoWayPegData : TwoWayPegData) : Bool :=
  match connectBlock lib ctxt db.state header body with
  | .ok state => leavesEffects state twoWayPegData
  | .error _ => false

def connectTip_ (db : Db F) (header : Header) (body : Body) (twoWayPegData : TwoWayPegData) (rpc : RpcReplies) :
    Except NodeError (Db F) := do
  let blockHash := header.hash lib
  let state ← (connectBlock lib ctxt db.state header body).mapError .state
  let state ← (connectTwoWayPegData lib state twoWayPegData rpc).mapError .state
  let accumulator := state.accumulator lib
  let archive ← (db.archive.putHeader lib header).mapError .archive
  let archive ← (archive.putBody blockHash body).mapError .archive
  let archive := archive.putAccumulator blockHash accumulator
  let txids := body.transactions.map (Transaction.txid lib)
  let mempool ← (txids.foldlM MemPool.delete db.mempool).mapError .mempool
  let mempool ← (mempool.regenerateProofs prove accumulator).mapError .mempool
  let effects := effectsLeft lib ctxt db header body twoWayPegData
  pure ⟨archive,state,mempool,⟨header,body,twoWayPegData,effects⟩ :: db.connected⟩

end Connect

section Disconnect

def dealAuthorizations : List Transaction → List Authorization → Option (List AuthorizedTransaction)
  | [], _ => some []
  | tx :: txs, authorizations =>
      if authorizations.length < tx.inputs.length then none
      else do
        let rest ← dealAuthorizations txs (authorizations.drop tx.inputs.length)
        pure (⟨tx,authorizations.take tx.inputs.length⟩ :: rest)

def authorizedTransactions (body : Body) : Option (List AuthorizedTransaction) :=
  dealAuthorizations body.transactions body.authorizations

def heightSpace : Nat := 4294967296

def heightMinus (height less : Nat) : Nat := (height + heightSpace - less) % heightSpace

def lastAppliedBelow (blocks : Table UInt32 (Hash × Nat)) (height : Nat) : Option (Hash × Nat) :=
  (blocks.entries.reverse.map (·.2)).find? (fun applied => applied.2 < height)

def startBlockHash (archive : Archive F) (deposit event : Option (Hash × Nat)) : Except NodeError (Option MainHash) :=
  match deposit,event with
  | none,none => pure none
  | some applied,none | none,some applied => pure (some applied.1)
  | some deposit,some event =>
      if deposit.2 < event.2 then pure (some event.1)
      else if event.2 < deposit.2 then pure (some deposit.1)
      else do
        let isEvent ← (archive.isMainDescendant event.1 deposit.1).mapError .archive
        if isEvent then pure (some event.1)
        else do
          let isDeposit ← (archive.isMainDescendant deposit.1 event.1).mapError .archive
          ensure isDeposit .panic
          pure (some deposit.1)

def blockEvents (archive : Archive F) (mainHash : MainHash) : Option (Hash × List BlockEvent) :=
  (archive.mainBlockInfos.tryGet mainHash).map (fun info => (mainHash,info.events))

def someEvents (archive : Archive F) (mainHash : MainHash) : Option (Hash × List BlockEvent) :=
  (blockEvents archive mainHash).filter (fun block => block.2 ≠ [])

/- The data to disconnect with the tip, put together from the tables and the archive. -/
def tipTwoWayPegData (db : Db F) (tipHeader : Header) (height : Nat) : Except NodeError TwoWayPegData := do
  let below := heightMinus height 1
  let deposit := lastAppliedBelow db.state.depositBlocks below
  let event := lastAppliedBelow db.state.withdrawalBundleEventBlocks below
  let start ← startBlockHash db.archive deposit event
  let blocks ← (db.archive.mainAncestorsUntil (fun ancestor => some ancestor = start)
    (fun ancestor => .ok (someEvents db.archive ancestor)) tipHeader.prevMainHash).mapError .archive
  pure ⟨blocks.reverse⟩

def archivedAccumulator (archive : Archive F) : Option BlockHash → Except ArchiveError (Option F)
  | some newTip => (archive.getAccumulator newTip).map some
  | none => pure none

def disconnectTip_ (db : Db F) : Except NodeError (Db F) := do
  let tipBlockHash ← okOr db.state.tip (.state .noTip)
  let tipHeader ← (db.archive.getHeader tipBlockHash).mapError .archive
  let tipBody ← (db.archive.getBody tipBlockHash).mapError .archive
  let height ← okOr db.state.height (.state .noTip)
  let twoWayPegData ← tipTwoWayPegData db tipHeader height
  let state ← (disconnectTwoWayPegData lib db.state twoWayPegData).mapError .state
  let state ← (disconnectTip lib state tipHeader tipBody).mapError .state
  let accumulator ← (archivedAccumulator db.archive state.tip).mapError .archive
  let state := { state with utreexoAccumulator := accumulator }
  let transactions ← okOr (authorizedTransactions tipBody) .panic
  let mempool ← (transactions.reverse.foldlM (MemPool.put lib) db.mempool).mapError .mempool
  let mempool ← (mempool.regenerateProofs prove (state.accumulator lib)).mapError .mempool
  pure ⟨db.archive,state,mempool,db.connected.tail⟩

def disconnectTips (db : Db F) : Nat → Except NodeError (Db F)
  | 0 => .ok db
  | n + 1 => do
      let db ← disconnectTip_ lib prove db
      disconnectTips db n

end Disconnect

section Reorg

def stateTip (db : Db F) : Except ArchiveError (Option Tip) :=
  match db.state.tip with
  | none => pure none
  | some tipHash => do
      let mainBlockHash ← db.archive.getBestMainVerification tipHash
      pure (some ⟨tipHash,mainBlockHash⟩)

def isBetter (archive : Archive F) (tip : Option Tip) (newTip : Tip) : Except ArchiveError Bool :=
  match tip with
  | none => pure true
  | some tip => do
      let better ← archive.betterTip tip newTip
      pure (better = some newTip)

def commonAncestor (archive : Archive F) (tip : Option Tip) (newTip : Tip) : Except ArchiveError (Option BlockHash) :=
  match tip with
  | none => pure none
  | some tip => archive.lastCommonAncestor tip.blockHash newTip.blockHash

def getBlock (archive : Archive F) (blockHash : BlockHash) : Except ArchiveError Block := do
  let header ← archive.getHeader blockHash
  let body ← archive.getBody blockHash
  pure (header,body)

def blocksToApply (archive : Archive F) (ancestor : Option BlockHash) (newTip : Tip) : Except ArchiveError (List Block) := do
  let head ← getBlock archive newTip.blockHash
  match head.1.prevSideHash with
  | none => pure [head]
  | some prevSideHash => do
      let tail ← archive.ancestorsUntil (fun blockHash => some blockHash = ancestor)
        (fun blockHash => (getBlock archive blockHash).map some) prevSideHash
      pure (head :: tail)

def disconnects (archive : Archive F) (tipHeight : Option Nat) (ancestor : Option BlockHash) : Except ArchiveError Nat :=
  match tipHeight,ancestor with
  | none,_ => pure 0
  | some tipHeight,some ancestor => do
      let ancestorHeight ← archive.getHeight ancestor
      pure (heightMinus tipHeight ancestorHeight)
  | some tipHeight,none => pure ((tipHeight + 1) % heightSpace)

def ancestorPrevMainHash (archive : Archive F) : Option BlockHash → Except ArchiveError (Option MainHash)
  | none => pure none
  | some ancestor => (archive.getHeader ancestor).map (fun header => some header.prevMainHash)

/- The main-chain blocks after the one the common ancestor names, oldest first; those without info are skipped. -/
def twoWayPegDataBatch (archive : Archive F) (ancestor : Option BlockHash) (prevMainHash : MainHash) :
    Except ArchiveError (List (Hash × List BlockEvent)) := do
  let stop ← ancestorPrevMainHash archive ancestor
  let batch ← archive.mainAncestorsUntil (fun main => some main = stop) (fun main => .ok (blockEvents archive main))
    prevMainHash
  pure batch.reverse

/- The blocks up to the one a header names, and the blocks left; all of them when it is not there. -/
def fillTwoWayPegData (prevMainHash : MainHash) :
    List (Hash × List BlockEvent) → List (Hash × List BlockEvent) × List (Hash × List BlockEvent)
  | [] => ([],[])
  | block :: batch =>
      if block.1 = prevMainHash then ([block],batch)
      else
        let (filled,left) := fillTwoWayPegData prevMainHash batch
        (block :: filled,left)

/- A reorganisation with the common ancestor as the tip of the open transaction. -/
structure Reorg (F : Type) where
  tip : Option Tip
  working : Db F
  batch : List (Hash × List BlockEvent)
  -- oldest first
  blocks : List Block

def disconnected (db : Db F) (tip : Option Tip) (newTip : Tip) : Except NodeError (Reorg F) := do
  let ancestor ← (commonAncestor db.archive tip newTip).mapError .archive
  let blocks ← (blocksToApply db.archive ancestor newTip).mapError .archive
  let count ← (disconnects db.archive db.state.height ancestor).mapError .archive
  let working ← disconnectTips lib prove db count
  ensure (working.state.tip = ancestor) .panic
  let head ← (db.archive.getHeader newTip.blockHash).mapError .archive
  let batch ← (twoWayPegDataBatch working.archive ancestor head.prevMainHash).mapError .archive
  pure ⟨tip,working,batch,blocks.reverse⟩

def startReorg (db : Db F) (newTip : Tip) : Except NodeError (Option (Reorg F)) := do
  let tip ← (stateTip db).mapError .archive
  let better ← (isBetter db.archive tip newTip).mapError .archive
  if better = false then pure none
  else do
    let reorg ← disconnected lib prove db tip newTip
    pure (some reorg)

def reachedBetter (working : Db F) (tip : Option Tip) : Except NodeError Bool := do
  let newTipHash ← okOr working.state.tip .panic
  let mainBlockHash ← (working.archive.getBestMainVerification newTipHash).mapError .archive
  (isBetter working.archive tip ⟨newTipHash,mainBlockHash⟩).mapError .archive

def discardBody (committed : Db F) (blockHash : BlockHash) (err : NodeError) : Db F × NodeError :=
  if isFatalReorgError err then (committed,err)
  else
    match committed.archive.deleteBody blockHash with
    | .ok archive => ({ committed with archive },err)
    | .error source => (committed,.archive source)

/- What is committed, and the open transaction at the end or the error. -/
def applyBlocks (tip : Option Tip) (rpc : BlockHash → RpcReplies) :
    Db F → Db F → List (Hash × List BlockEvent) → List Block → Db F × Except NodeError (Db F)
  | committed, working, _, [] => (committed,.ok working)
  | committed, working, batch, block :: blocks =>
      let (filled,left) := fillTwoWayPegData block.1.prevMainHash batch
      let blockHash := block.1.hash lib
      match connectTip_ lib ctxt prove working block.1 block.2 ⟨filled⟩ (rpc blockHash) with
      | .error err =>
          let (committed,err) := discardBody committed blockHash err
          (committed,.error err)
      | .ok working =>
          match reachedBetter working tip with
          | .error err => (committed,.error err)
          | .ok true => applyBlocks tip rpc working working left blocks
          | .ok false => applyBlocks tip rpc committed working left blocks

def reorgToTip (db : Db F) (newTip : Tip) (rpc : BlockHash → RpcReplies) : Db F × Except NodeError Bool :=
  match startReorg lib prove db newTip with
  | .error err => (db,.error err)
  | .ok none => (db,.ok false)
  | .ok (some reorg) =>
      match applyBlocks lib ctxt prove reorg.tip rpc db reorg.working reorg.batch reorg.blocks with
      | (committed,.error err) => (committed,.error err)
      | (committed,.ok working) =>
          if working.state.tip = some newTip.blockHash then (working,.ok true) else (committed,.error .panic)

end Reorg

variable {lib ctxt prove} {db db' : Db F} {header : Header} {body : Body}

structure ConnectTipSource (lib : Externals F) (ctxt : BatchVerificationContext) (db : Db F) (header : Header) (body : Body)
    (data : TwoWayPegData) (rpc : RpcReplies) (db' : Db F) : Prop where
  state : ∃ middle, connectBlock lib ctxt db.state header body = .ok middle ∧
    connectTwoWayPegData lib middle data rpc = .ok db'.state
  archive : ∃ stored kept, db.archive.putHeader lib header = .ok stored ∧
    stored.putBody (header.hash lib) body = .ok kept ∧
    db'.archive = kept.putAccumulator (header.hash lib) (db'.state.accumulator lib)
  connected : db'.connected = ⟨header,body,data,effectsLeft lib ctxt db header body data⟩ :: db.connected

theorem connectTipSource {data : TwoWayPegData} {rpc : RpcReplies}
    (ok : connectTip_ lib ctxt prove db header body data rpc = .ok db') :
    ConnectTipSource lib ctxt db header body data rpc db' := by
  simp only [connectTip_,bindOk,mapErrorOk,pureOk] at ok
  obtain ⟨middle,connected,state,pegs,stored,header,kept,body,_,_,_,_,rfl⟩ := ok
  exact ⟨⟨middle,connected,pegs⟩,⟨stored,kept,header,body,rfl⟩,rfl⟩

theorem ConnectTipSource.tip {data : TwoWayPegData} {rpc : RpcReplies}
    (source : ConnectTipSource lib ctxt db header body data rpc db') : db'.state.tip = some (header.hash lib) := by
  obtain ⟨middle,connected,pegs⟩ := source.state
  obtain ⟨pre,block⟩ := connectBlockSource connected
  rw [(connectPegSource pegs).tip,block.connected.tip]

theorem putHeaderBodies {archive archive' : Archive F} {header : Header} (ok : archive.putHeader lib header = .ok archive') :
    archive'.bodies = archive.bodies := by
  obtain ⟨_,_,_,_,_,_,_,_,_,_,rfl⟩ := (Archive.putHeaderSource ok).result
  rfl

theorem ConnectTipSource.bodies {header : Header} {body : Body} {data : TwoWayPegData} {rpc : RpcReplies}
    (source : ConnectTipSource lib ctxt db header body data rpc db') :
    db'.archive.bodies = db.archive.bodies.put (header.hash lib) body := by
  obtain ⟨stored,kept,isHeader,isBody,isArchive⟩ := source.archive
  obtain ⟨_,tips,rfl⟩ := Archive.putBodyFrame isBody
  rw [isArchive]
  exact congrArg (fun bodies => bodies.put (header.hash lib) body) (putHeaderBodies isHeader)

structure DisconnectTipSource (lib : Externals F) (db : Db F) (header : Header) (body : Body) (db' : Db F) : Prop where
  stored : ∃ tip, db.state.tip = some tip ∧ db.archive.headers.tryGet tip = some header ∧
    db.archive.bodies.tryGet tip = some body
  state : ∃ height data middle last accumulator, db.state.height = some height ∧
    tipTwoWayPegData db header height = .ok data ∧ disconnectTwoWayPegData lib db.state data = .ok middle ∧
    disconnectTip lib middle header body = .ok last ∧ archivedAccumulator db.archive last.tip = .ok accumulator ∧
    db'.state = { last with utreexoAccumulator := accumulator }
  archive : db'.archive = db.archive
  connected : db'.connected = db.connected.tail

theorem disconnectTipSource (ok : disconnectTip_ lib prove db = .ok db') :
    ∃ header body, DisconnectTipSource lib db header body db' := by
  simp only [disconnectTip_,Archive.getHeader,Archive.getBody,bindOk,mapErrorOk,okOrOk,pureOk] at ok
  obtain ⟨tip,isTip,header,isHeader,body,isBody,height,isHeight,data,isData,middle,pegs,last,block,accumulator,isKept,
    _,_,_,_,_,_,rfl⟩ := ok
  exact ⟨header,body,⟨tip,isTip,isHeader,isBody⟩,
    ⟨height,data,middle,last,accumulator,isHeight,isData,pegs,block,isKept,rfl⟩,rfl,rfl⟩

structure ReorgStart (lib : Externals F) (prove : F → List Hash → Except Text UtreexoProof) (db : Db F) (newTip : Tip)
    (reorg : Reorg F) (ancestor : Option BlockHash) (head : Header) (count : Nat) : Prop where
  tip : stateTip db = .ok reorg.tip
  better : isBetter db.archive reorg.tip newTip = .ok true
  common : commonAncestor db.archive reorg.tip newTip = .ok ancestor
  blocks : blocksToApply db.archive ancestor newTip = .ok reorg.blocks.reverse
  counted : disconnects db.archive db.state.height ancestor = .ok count
  disconnected : disconnectTips lib prove db count = .ok reorg.working
  reached : reorg.working.state.tip = ancestor
  isHead : db.archive.headers.tryGet newTip.blockHash = some head
  batch : twoWayPegDataBatch reorg.working.archive ancestor head.prevMainHash = .ok reorg.batch

theorem startReorgOk {newTip : Tip} {reorg : Reorg F} (started : startReorg lib prove db newTip = .ok (some reorg)) :
    ∃ ancestor head count, ReorgStart lib prove db newTip reorg ancestor head count := by
  simp only [startReorg,bindOk,mapErrorOk] at started
  obtain ⟨tip,isTip,better,isBetter,started⟩ := started
  split at started
  · cases started
  · next goesOn =>
      rw [Bool.not_eq_false] at goesOn
      subst goesOn
      simp only [disconnected,Archive.getHeader,bindOk,mapErrorOk,okOrOk,ensureOk,pureOk] at started
      obtain ⟨_,⟨ancestor,isAncestor,blocks,isBlocks,count,isCount,last,disconnected,_,reached,head,isHead,batch,isBatch,rfl⟩,
        same⟩ := started
      cases same
      rw [← List.reverse_reverse blocks] at isBlocks
      exact ⟨ancestor,head,count,isTip,isBetter,isAncestor,isBlocks,isCount,disconnected,reached,isHead,isBatch⟩

end Coinshift.NetTask
