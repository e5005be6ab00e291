import Coinshift.MissingBodies
import Coinshift.TxidForms

/-! The requests that a peer connection sends.
Its queue remembers the hash of every request and forgets none, so a body that was asked for once is not asked for
again: not after the peer had no block to send, and not after the body it sent was deleted. -/
namespace Coinshift.Peer
open Checked Lineage NetTask

variable {F : Type}

section Requests

structure GetBlockRequest where
  blockHash : BlockHash
  descendantTip : Option Tip
  ancestor : Option BlockHash
  peerStateId : Option Hash
  deriving DecidableEq, Repr

inductive Request where
  | getBlock (request : GetBlockRequest)
  | getHeaders (request : GetHeadersRequest)
  | pushTransaction (transaction : AuthorizedTransaction)

def encodeRequest (lib : Externals F) : Request → List Byte
  | .getBlock request => 0 :: hashBytes request.blockHash
  | .getHeaders request => 1 :: encodeSeq hashBytes request.start.items ++ hashBytes request.end_
  | .pushTransaction tx => 2 :: encodeTransaction lib tx.transaction ++ encodeSeq encodeAuthorization tx.authorizations

def Request.hash (lib : Externals F) (request : Request) : Hash := lib.blake3 (encodeRequest lib request)

inductive BanReason where
  | bmmVerificationFailed (tip : Tip)
  | incorrectTotalWork (tip : Tip) (totalWork : Nat)
  deriving DecidableEq, Repr

inductive TaskError where
  | archive (source : ArchiveError)
  | peerBan (reason : BanReason)
  | sendRequest
  | panic
  deriving DecidableEq, Repr

/- The channel that requests are sent on is closed when the connection ends. -/
structure RequestQueue where
  requestHashes : HashSet
  -- latest first
  sent : List Request
  -- on their way, or waiting for a response
  unanswered : List Request
  closed : Bool

def RequestQueue.new : RequestQueue := ⟨∅,[],[],false⟩

def sendRequest (lib : Externals F) (queue : RequestQueue) (request : Request) : RequestQueue × Except TaskError Bool :=
  let requestHash := request.hash lib
  if (queue.requestHashes.tryGet requestHash).isSome then (queue,.ok false)
  else
    let queue := { queue with requestHashes := queue.requestHashes.insert requestHash }
    if queue.closed then (queue,.error .sendRequest)
    else ({ queue with sent := request :: queue.sent, unanswered := request :: queue.unanswered },.ok true)

def sendRequests (lib : Externals F) : RequestQueue → List Request → RequestQueue × Except TaskError Unit
  | queue, [] => (queue,.ok ())
  | queue, request :: requests =>
      match sendRequest lib queue request with
      | (queue,.ok _) => sendRequests lib queue requests
      | (queue,.error err) => (queue,.error err)

def RequestQueue.answer (lib : Externals F) (queue : RequestQueue) (request : Request) : RequestQueue :=
  { queue with unanswered := queue.unanswered.filter (fun other => encodeRequest lib other ≠ encodeRequest lib request) }

end Requests

section PeerState

structure PeerState where
  tipInfo : Option TipInfo
  id : Hash
  deriving DecidableEq, Repr

inductive Info where
  | needMainchainAncestors (mainHash : MainHash) (peerStateId : Hash)
  | newTipReady (tip : Tip)
  deriving DecidableEq, Repr

def maxBlockRequests : Nat := 100

/- The first missing bodies, found one by one; no block after them is looked at. -/
def firstMissing (archive : Archive F) : Nat → Nat → Position BlockHash (BlockHash × Header) →
    Except ArchiveError (List BlockHash)
  | 0, _, _ => pure []
  | _ + 1, 0, _ => pure []
  | fuel + 1, count + 1, at_ => do
      let (at_,ancestor) ← archive.ancestorsRev.next at_
      match ancestor with
      | none => pure []
      | some ancestor =>
          if archive.containsBody ancestor.1 then firstMissing archive fuel (count + 1) at_
          else do
            let rest ← firstMissing archive fuel count at_
            pure (ancestor.1 :: rest)

def ownTipInfo (db : Db F) : Except TaskError (Option TipInfo) :=
  match db.state.tip with
  | none => pure none
  | some tip => do
      let tipHeight ← okOr db.state.height .panic
      let bmmVerification ← (db.archive.getBestMainVerification tip).mapError .archive
      let totalWork ← (db.archive.getTotalWork bmmVerification).mapError .archive
      pure (some ⟨tipHeight,⟨tip,bmmVerification⟩,totalWork⟩)

def checkClaims (archive : Archive F) (peer : TipInfo) : Except TaskError Unit := do
  let computedTotalWork ← (archive.getTotalWork peer.tip.mainBlockHash).mapError .archive
  ensure (peer.totalWork = computedTotalWork) (.peerBan (.incorrectTotalWork peer.tip peer.totalWork))
  let info ← (archive.getMainBlockInfo peer.tip.mainBlockHash).mapError .archive
  ensure (info.bmmCommitment = some peer.tip.blockHash) (.peerBan (.bmmVerificationFailed peer.tip))

def startHeight (archive : Archive F) : Option BlockHash → Except ArchiveError Nat
  | none => pure 0
  | some ancestor => archive.getHeight ancestor

def missingBodies (archive : Archive F) (tip : Option TipInfo) (peer : TipInfo) :
    Except ArchiveError (Option BlockHash × List BlockHash) := do
  let ancestor ← commonAncestor archive (tip.map (·.tip)) peer.tip
  let start ← startHeight archive ancestor
  let missing ← firstMissing archive (archive.headers.entries.length + 1) maxBlockRequests
    (Position.new peer.tip.blockHash start)
  pure (ancestor,missing)

/- What a peer state leads to. A peer tip that is not better leads to nothing. -/
inductive Outcome where
  | nothing
  | inform (info : Info)
  | requestHeaders (request : GetHeadersRequest)
  | requestBodies (requests : List GetBlockRequest)

def peerStateOutcome (db : Db F) (peerState : PeerState) : Except TaskError Outcome :=
  match peerState.tipInfo with
  | none => pure .nothing
  | some peer => do
      let tip ← ownTipInfo db
      if (db.archive.mainHeaderInfos.tryGet peer.tip.mainBlockHash).isNone then
        pure (.inform (.needMainchainAncestors peer.tip.mainBlockHash peerState.id))
      else do
        checkClaims db.archive peer
        let checked ← (db.archive.checkPeerTipAndRequestHeaders tip peer peerState.id).mapError .archive
        match checked.request,checked.answer with
        | some request,_ => pure (.requestHeaders request)
        | none,none | none,some false => pure .nothing
        | none,some true => do
            ensure ((db.archive.getBmmResults peer.tip.blockHash).tryGet peer.tip.mainBlockHash = some .verified)
              (.peerBan (.bmmVerificationFailed peer.tip))
            let (ancestor,missing) ← (missingBodies db.archive tip peer).mapError .archive
            if missing = [] then pure (.inform (.newTipReady peer.tip))
            else pure (.requestBodies (missing.map (fun blockHash => ⟨blockHash,some peer.tip,ancestor,some peerState.id⟩)))

end PeerState

section Connection

structure Connection (F : Type) where
  db : Db F
  queue : RequestQueue
  -- latest first
  infos : List Info

variable (lib : Externals F) (ctxt : BatchVerificationContext) (prove : F → List Hash → Except Text UtreexoProof)

namespace Connection

def new (db : Db F) : Connection F := ⟨db,.new,[]⟩

def close (connection : Connection F) : Connection F :=
  { connection with queue := { connection.queue with closed := true } }

def send (connection : Connection F) (requests : List Request) : Connection F :=
  match sendRequests lib connection.queue requests with
  | (queue,.ok _) => { connection with queue }
  | (queue,.error _) => { connection with queue }.close

def handlePeerState (connection : Connection F) (peerState : PeerState) : Connection F :=
  match peerStateOutcome connection.db peerState with
  | .error _ => connection.close
  | .ok .nothing => connection
  | .ok (.inform info) => { connection with infos := info :: connection.infos }
  | .ok (.requestHeaders request) => connection.send lib [.getHeaders request]
  | .ok (.requestBodies requests) => connection.send lib (requests.map .getBlock)

/- A body is stored under the hash of its header, whatever it holds. -/
def handleBlock (connection : Connection F) (request : GetBlockRequest) (header : Header) (body : Body) : Connection F :=
  let connection := { connection with queue := connection.queue.answer lib (.getBlock request) }
  if header.hash lib ≠ request.blockHash then connection.close
  else
    match connection.db.archive.putBody request.blockHash body with
    | .ok archive => { connection with db := { connection.db with archive } }
    | .error _ => connection.close

def handleNoBlock (connection : Connection F) (request : GetBlockRequest) (blockHash : BlockHash) : Connection F :=
  let connection := { connection with queue := connection.queue.answer lib (.getBlock request) }
  if request.blockHash = blockHash then connection else connection.close

end Connection

inductive ConnectionStep (F : Type) where
  | handlePeerState (peerState : PeerState)
  | block (request : GetBlockRequest) (header : Header) (body : Body)
  | noBlock (request : GetBlockRequest) (blockHash : BlockHash)
  -- a response to a request of another kind
  | response (request : Request)
  | forwardRequest (request : Request)
  | reorgToTip (newTip : Tip) (rpc : BlockHash → RpcReplies)
  -- whatever else the node does to its database
  | node (db : Db F)
  | close

def ConnectionStep.apply (connection : Connection F) : ConnectionStep F → Connection F
  | .handlePeerState peerState => connection.handlePeerState lib peerState
  | .block request header body => connection.handleBlock lib request header body
  | .noBlock request blockHash => connection.handleNoBlock lib request blockHash
  | .response request => { connection with queue := connection.queue.answer lib request }
  | .forwardRequest request => connection.send lib [request]
  | .reorgToTip newTip rpc => { connection with db := (NetTask.reorgToTip lib ctxt prove connection.db newTip rpc).1 }
  | .node db => { connection with db }
  | .close => connection.close

def runConnection (steps : List (ConnectionStep F)) (db : Db F) : Connection F :=
  steps.foldl (ConnectionStep.apply lib ctxt prove) (.new db)

end Connection

variable {lib : Externals F} {ctxt : BatchVerificationContext} {prove : F → List Hash → Except Text UtreexoProof}
  {queue queue' : RequestQueue} {connection : Connection F} {request : Request} {requests : List Request}

section Queue

def Remembers (lib : Externals F) (queue : RequestQueue) (request : Request) : Prop :=
  (queue.requestHashes.tryGet (request.hash lib)).isSome = true

/- The hashes are those of the requests sent, as long as there is a channel to send on. -/
def Deduplicates (lib : Externals F) (queue : RequestQueue) : Prop :=
  queue.closed = false → ∀ request, Remembers lib queue request ↔ ∃ sent ∈ queue.sent, sent.hash lib = request.hash lib

theorem remembersInsert {request other : Request} {hashes : HashSet} {sent unanswered : List Request} {closed : Bool} :
    Remembers lib ⟨hashes.insert (request.hash lib),sent,unanswered,closed⟩ other ↔
      request.hash lib = other.hash lib ∨ (hashes.tryGet (other.hash lib)).isSome = true := by
  rw [Remembers,HashSet.insert,Table.tryGetPut]
  split
  · next same => exact iff_of_true rfl (.inl same.symm)
  · next apart => exact (or_iff_right (fun same => apart same.symm)).symm

theorem sendKnown (known : Remembers lib queue request) : sendRequest lib queue request = (queue,.ok false) := if_pos known

theorem sendNew (isOpen : queue.closed = false) (new : ¬ Remembers lib queue request) : sendRequest lib queue request =
    ({ queue with
      requestHashes := queue.requestHashes.insert (request.hash lib)
      sent := request :: queue.sent
      unanswered := request :: queue.unanswered },.ok true) :=
  (if_neg new).trans (if_neg (by simp [isOpen]))

theorem sendUnsent (isClosed : queue.closed = true) (new : ¬ Remembers lib queue request) : sendRequest lib queue request =
    ({ queue with requestHashes := queue.requestHashes.insert (request.hash lib) },.error .sendRequest) :=
  (if_neg new).trans (if_pos isClosed)

structure Sends (lib : Externals F) (queue : RequestQueue) (requests : List Request) (queue' : RequestQueue)
    (more : List Request) : Prop where
  isOpen : queue'.closed = false
  sent : queue'.sent = more ++ queue.sent
  own : ∀ request ∈ more, request ∈ requests ∧ ¬ Remembers lib queue request
  all : ∀ request ∈ requests, Remembers lib queue request ∨ ∃ sent ∈ more, sent.hash lib = request.hash lib
  remembers : ∀ request, Remembers lib queue' request ↔
    Remembers lib queue request ∨ ∃ sent ∈ more, sent.hash lib = request.hash lib

theorem sendRequestsOpen (isOpen : queue.closed = false) :
    ∃ queue' more, sendRequests lib queue requests = (queue',.ok ()) ∧ Sends lib queue requests queue' more := by
  induction requests generalizing queue with
  | nil => exact ⟨queue,[],rfl,isOpen,rfl,by simp,by simp,by simp⟩
  | cons request requests ih =>
      rw [sendRequests]
      by_cases known : Remembers lib queue request
      · obtain ⟨queue',more,sending,sends⟩ := ih isOpen
        refine ⟨queue',more,by rw [sendKnown known]; exact sending,sends.isOpen,sends.sent,?_,?_,sends.remembers⟩
        · intro other mem
          exact ⟨List.mem_cons_of_mem _ (sends.own other mem).1,(sends.own other mem).2⟩
        · intro other mem
          rcases List.mem_cons.mp mem with rfl | later
          · exact .inl known
          · exact sends.all other later
      · have added := sendNew isOpen known
        generalize isAfter : ({ queue with
          requestHashes := queue.requestHashes.insert (request.hash lib)
          sent := request :: queue.sent
          unanswered := request :: queue.unanswered } : RequestQueue) = after at added
        have remembered (other : Request) : Remembers lib after other ↔
            Remembers lib queue other ∨ request.hash lib = other.hash lib := by
          rw [← isAfter,remembersInsert]
          exact or_comm
        obtain ⟨queue',more,sending,sends⟩ := ih (isAfter ▸ isOpen : after.closed = false)
        refine ⟨queue',more ++ [request],by rw [added]; exact sending,sends.isOpen,?_,?_,?_,?_⟩
        · rw [sends.sent,List.append_assoc,← isAfter]
          rfl
        · intro other mem
          rcases List.mem_append.mp mem with later | here
          · obtain ⟨mem,fresh⟩ := sends.own other later
            exact ⟨List.mem_cons_of_mem _ mem,fun was => fresh ((remembered other).mpr (.inl was))⟩
          · cases List.mem_singleton.mp here
            exact ⟨List.mem_cons_self,known⟩
        · intro other mem
          rcases List.mem_cons.mp mem with rfl | later
          · exact .inr ⟨other,by simp,rfl⟩
          · rcases sends.all other later with was | ⟨sent,mem,same⟩
            · rcases (remembered other).mp was with before | same
              · exact .inl before
              · exact .inr ⟨request,by simp,same⟩
            · exact .inr ⟨sent,List.mem_append_left _ mem,same⟩
        · intro other
          rw [sends.remembers,remembered]
          constructor
          · rintro ((was | same) | ⟨sent,mem,same⟩)
            · exact .inl was
            · exact .inr ⟨request,by simp,same⟩
            · exact .inr ⟨sent,List.mem_append_left _ mem,same⟩
          · rintro (was | ⟨sent,mem,same⟩)
            · exact .inl (.inl was)
            · rcases List.mem_append.mp mem with later | here
              · exact .inr ⟨sent,later,same⟩
              · cases List.mem_singleton.mp here
                exact .inl (.inr same)

theorem sendRequestsClosed (isClosed : queue.closed = true) :
    (sendRequests lib queue requests).1.closed = true ∧ (sendRequests lib queue requests).1.sent = queue.sent := by
  induction requests with
  | nil => exact ⟨isClosed,rfl⟩
  | cons request requests ih =>
      rw [sendRequests]
      by_cases known : Remembers lib queue request
      · rw [sendKnown known]
        exact ih
      · rw [sendUnsent isClosed known]
        exact ⟨isClosed,rfl⟩

end Queue

section Run

theorem sendKeeps (kept : Deduplicates lib connection.queue) : Deduplicates lib (connection.send lib requests).queue := by
  intro isOpen other
  cases isClosed : connection.queue.closed with
  | true =>
      have still := (@sendRequestsClosed _ lib _ requests isClosed).1
      unfold Connection.send at isOpen
      split at isOpen
      · next queue' result sending =>
          rw [sending] at still
          cases still.symm.trans isOpen
      · cases isOpen
  | false =>
      obtain ⟨queue',more,sending,sends⟩ := @sendRequestsOpen _ lib _ requests isClosed
      have queueAfter : (connection.send lib requests).queue = queue' := by
        rw [Connection.send,sending]
      rw [queueAfter,sends.remembers,sends.sent,kept isClosed]
      simp only [List.mem_append,or_and_right,exists_or]
      exact or_comm

theorem closedKeeps : Deduplicates lib connection.close.queue := fun isOpen => nomatch isOpen

theorem answerKeeps (kept : Deduplicates lib queue) : Deduplicates lib (queue.answer lib request) := kept

theorem stepKeeps {step : ConnectionStep F} (kept : Deduplicates lib connection.queue) :
    Deduplicates lib (step.apply lib ctxt prove connection).queue := by
  cases step with
  | handlePeerState peerState =>
      unfold ConnectionStep.apply Connection.handlePeerState
      dsimp only
      split
      · exact closedKeeps
      · exact kept
      · exact kept
      · exact sendKeeps kept
      · exact sendKeeps kept
  | block request header body =>
      unfold ConnectionStep.apply Connection.handleBlock
      dsimp only
      split
      · exact closedKeeps
      · split
        · exact answerKeeps kept
        · exact closedKeeps
  | noBlock request blockHash =>
      unfold ConnectionStep.apply Connection.handleNoBlock
      dsimp only
      split
      · exact answerKeeps kept
      · exact closedKeeps
  | response request => exact answerKeeps kept
  | forwardRequest request => exact sendKeeps kept
  | reorgToTip newTip rpc => exact kept
  | node db => exact kept
  | close => exact closedKeeps

theorem runKeeps {steps : List (ConnectionStep F)} {db : Db F} :
    Deduplicates lib (runConnection lib ctxt prove steps db).queue := by
  have start : Deduplicates lib (Connection.new db).queue := by
    intro _ request
    simp [Connection.new,RequestQueue.new,Remembers]
  unfold runConnection
  generalize Connection.new db = connection at start
  induction steps generalizing connection with
  | nil => exact start
  | cons step steps ih => exact ih _ (stepKeeps start)

end Run

section Missing

variable {b : BlockHash} {peerState : PeerState} {db : Db F}

theorem firstMissingTake {archive : Archive F} {fuel count : Nat} {at_ : Position BlockHash (BlockHash × Header)}
    {ancestors : List (BlockHash × Header)} (taken : archive.ancestorsRev.take fuel at_ = .ok ancestors) :
    firstMissing archive fuel count at_ =
      .ok ((ancestors.filterMap (fun a => if archive.containsBody a.1 then none else some a.1)).take count) := by
  induction fuel generalizing count at_ ancestors with
  | zero =>
      cases taken
      rw [List.filterMap_nil,List.take_nil]
      rfl
  | succ fuel ih =>
      cases count with
      | zero => rfl
      | succ count =>
          simp only [Forward.take,bindOk] at taken
          obtain ⟨⟨next,given⟩,isNext,taken⟩ := taken
          rw [firstMissing,isNext,okBind]
          cases given with
          | none =>
              cases taken
              rfl
          | some ancestor =>
              simp only [bindOk,pureOk] at taken
              obtain ⟨rest,further,rfl⟩ := taken
              dsimp only
              split
              · next stored =>
                  rw [ih further,List.filterMap_cons,if_pos stored]
              · next missing =>
                  rw [ih further,List.filterMap_cons,if_neg missing]
                  rfl

def Awaits (queue : RequestQueue) (b : BlockHash) : Prop := ∃ request, .getBlock request ∈ queue.unanswered ∧ request.blockHash = b

def Asked (queue : RequestQueue) (b : BlockHash) : Prop := ∃ request, .getBlock request ∈ queue.sent ∧ request.blockHash = b

def AsksFor (lib : Externals F) (connection : Connection F) (peerState : PeerState) (b : BlockHash) : Prop :=
  ∃ more request, (connection.handlePeerState lib peerState).queue.sent = more ++ connection.queue.sent ∧
    .getBlock request ∈ more ∧ request.blockHash = b

def NoCollision (lib : Externals F) (requests : List Request) : Prop :=
  ∀ a ∈ requests, ∀ b ∈ requests, a.hash lib = b.hash lib → encodeRequest lib a = encodeRequest lib b

theorem sameBlock {request : GetBlockRequest} {other : Request}
    (same : encodeRequest lib other = encodeRequest lib (.getBlock request)) :
    ∃ own, other = .getBlock own ∧ own.blockHash = request.blockHash := by
  cases other with
  | getBlock own =>
      have bytes : hashBytes own.blockHash = hashBytes request.blockHash := (List.cons.inj same).2
      exact ⟨own,rfl,by rw [← hashOfHashBytes (h := own.blockHash),bytes,hashOfHashBytes]⟩
  | getHeaders _ => exact absurd (List.cons.inj same).1 (by decide)
  | pushTransaction _ => exact absurd (List.cons.inj same).1 (by decide)

/- A block that was asked for is not asked for again, one that was not is. -/
theorem missingRequestedIff {steps : List (ConnectionStep F)} {requests : List GetBlockRequest}
    (ran : runConnection lib ctxt prove steps db = connection)
    (missing : peerStateOutcome connection.db peerState = .ok (.requestBodies requests))
    (apart : NoCollision lib (connection.queue.sent ++ requests.map .getBlock)) :
    (∀ request ∈ requests, ¬ Awaits connection.queue request.blockHash → AsksFor lib connection peerState request.blockHash) ↔
    ∀ request ∈ requests, ¬ Awaits connection.queue request.blockHash →
      connection.queue.closed = false ∧ ¬ Asked connection.queue request.blockHash := by
  have kept : Deduplicates lib connection.queue := ran ▸ runKeeps
  have sending : connection.handlePeerState lib peerState = connection.send lib (requests.map .getBlock) := by
    rw [Connection.handlePeerState,missing]
  refine forall_congr' fun request => forall_congr' fun mem => forall_congr' fun _ => ?_
  have named : Request.getBlock request ∈ requests.map .getBlock := List.mem_map.mpr ⟨request,mem,rfl⟩
  rw [AsksFor,sending]
  cases isClosed : connection.queue.closed with
  | true =>
      have unsent := (@sendRequestsClosed _ lib _ (requests.map .getBlock) isClosed).2
      have sentAfter : (connection.send lib (requests.map .getBlock)).queue.sent = connection.queue.sent := by
        unfold Connection.send
        split
        · next sends => rwa [sends] at unsent
        · next sends => rwa [sends] at unsent
      refine iff_of_false ?_ (fun isOpen => nomatch isOpen.1)
      rintro ⟨more,own,sent,mem,_⟩
      rw [sentAfter] at sent
      obtain rfl : [] = more := List.append_cancel_right (sent : [] ++ connection.queue.sent = _)
      exact absurd mem List.not_mem_nil
  | false =>
      obtain ⟨queue',more,sends,source⟩ := @sendRequestsOpen _ lib _ (requests.map .getBlock) isClosed
      have queueAfter : (connection.send lib (requests.map .getBlock)).queue = queue' := by
        rw [Connection.send,sends]
      rw [queueAfter]
      constructor
      · rintro ⟨more',own,sent,mem',same⟩
        rw [source.sent] at sent
        obtain rfl := List.append_cancel_right sent
        refine ⟨rfl,fun ⟨earlier,wasSent,isEarlier⟩ => ?_⟩
        have sameHash : (Request.getBlock earlier).hash lib = (Request.getBlock own).hash lib := by
          rw [Request.hash,Request.hash,encodeRequest,encodeRequest,isEarlier,same]
        exact (source.own _ mem').2 ((kept isClosed _).mpr ⟨_,wasSent,sameHash⟩)
      · rintro ⟨_,fresh⟩
        rcases source.all _ named with known | ⟨sent,mem',sameHash⟩
        · obtain ⟨earlier,wasSent,sameHash⟩ := (kept isClosed _).mp known
          obtain ⟨own,rfl,same⟩ := sameBlock (apart _ (List.mem_append_left _ wasSent) _ (List.mem_append_right _ named) sameHash)
          exact absurd ⟨own,wasSent,same⟩ fresh
        · have inRequests := (source.own _ mem').1
          obtain ⟨own,rfl,same⟩ := sameBlock (apart _ (List.mem_append_right _ inRequests) _ (List.mem_append_right _ named) sameHash)
          exact ⟨more,own,source.sent,mem',same⟩

end Missing

section Refused

open Archive Reference

def askedOps : List ArchiveOp :=
  (forkMain.take 2).map (fun entry => .handleBlockEvent (.connectBlock entry.1 (forkInfo entry.2))) ++ [.putHeader forkGenesis]

def announced : PeerState := ⟨some ⟨0,⟨forkGenesis.hash externals,2⟩,2⟩,0⟩

def wanted : GetBlockRequest := ⟨forkGenesis.hash externals,some ⟨forkGenesis.hash externals,2⟩,none,some 0⟩

def connectionTo (archive : Archive Forest) (steps : List (ConnectionStep Forest)) : Connection Forest :=
  runConnection externals context noProof steps ⟨archive,State.new Forest,MemPool.new,[]⟩

def wantsCheck (connection : Connection Forest) : Bool :=
  match peerStateOutcome connection.db announced with
  | .ok (.requestBodies requests) => requests = [wanted]
  | _ => false

theorem wantsChecked {connection : Connection Forest} (wants : wantsCheck connection = true) :
    peerStateOutcome connection.db announced = .ok (.requestBodies [wanted]) := by
  unfold wantsCheck at wants
  split at wants
  · next requests outcome =>
      rw [decide_eq_true_eq] at wants
      rw [outcome,wants]
  · cases wants

theorem announcedRequested : ∃ archive, runArchive externals askedOps = .ok archive ∧
    peerStateOutcome (connectionTo archive []).db announced = .ok (.requestBodies [wanted]) ∧
    AsksFor externals (connectionTo archive []) announced wanted.blockHash := by
  have checked : runsTo externals askedOps (fun archive => wantsCheck (connectionTo archive [])) = true := by decide +kernel
  obtain ⟨archive,ran,wants⟩ := runsToRun checked
  have outcome := wantsChecked wants
  have apart : NoCollision externals ((connectionTo archive []).queue.sent ++ [wanted].map .getBlock) := by
    intro a inA b inB _
    cases List.mem_singleton.mp inA
    cases List.mem_singleton.mp inB
    rfl
  have asks := (missingRequestedIff rfl outcome apart).mpr
    (fun _ _ _ => ⟨rfl,fun ⟨_,sent,_⟩ => absurd sent List.not_mem_nil⟩)
  exact ⟨archive,ran,outcome,asks wanted List.mem_cons_self (fun ⟨_,awaits,_⟩ => absurd awaits List.not_mem_nil)⟩

/- The peer sends a body that does not belong to the header, the reorganisation deletes it, and the peer's tip is still
better. -/
def discardedSteps : List (ConnectionStep Forest) :=
  [.handlePeerState announced,.block wanted forkGenesis ⟨[],[],[]⟩,.reorgToTip ⟨forkGenesis.hash externals,2⟩ (fun _ => noRpc)]

def unaskedCheck (connection : Connection Forest) : Bool :=
  wantsCheck connection && connection.queue.closed = false && connection.queue.unanswered.isEmpty &&
    (connection.handlePeerState externals announced).queue.sent.length = connection.queue.sent.length

theorem discardedNotRequested : ∃ archive, runArchive externals askedOps = .ok archive ∧
    peerStateOutcome (connectionTo archive discardedSteps).db announced = .ok (.requestBodies [wanted]) ∧
    (connectionTo archive discardedSteps).queue.closed = false ∧
    ¬ Awaits (connectionTo archive discardedSteps).queue wanted.blockHash ∧
    ¬ AsksFor externals (connectionTo archive discardedSteps) announced wanted.blockHash := by
  have checked : runsTo externals askedOps (fun archive => unaskedCheck (connectionTo archive discardedSteps)) = true := by
    decide +kernel
  obtain ⟨archive,ran,unasked⟩ := runsToRun checked
  simp only [unaskedCheck,Bool.and_eq_true,decide_eq_true_eq] at unasked
  obtain ⟨⟨⟨wants,isOpen⟩,answered⟩,unsent⟩ := unasked
  refine ⟨archive,ran,wantsChecked wants,isOpen,?_,?_⟩
  · rintro ⟨_,awaits,_⟩
    rw [List.isEmpty_iff.mp answered] at awaits
    exact absurd awaits List.not_mem_nil
  · rintro ⟨more,_,sent,inside,_⟩
    rw [sent,List.length_append,Nat.add_eq_right] at unsent
    rw [List.length_eq_zero_iff.mp unsent] at inside
    exact absurd inside List.not_mem_nil

end Refused

end Coinshift.Peer
