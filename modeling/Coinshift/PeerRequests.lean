import Coinshift.MainchainTask
import Coinshift.Waiters

/-! What the net task does with what its peers ask for.
A peer that claims a tip of an unknown main-chain block has the main-chain task fetch its ancestors; the answer goes back to
the connection that the address has by then. Every request is answered, none twice, and what is said to be there is there. -/
namespace Coinshift
open Checked Archive

variable {F A : Type} {lib : Externals F} {world : World}

abbrev PeerStateId := Hash

inductive AncestorsFailure where
  | notAvailable (mainHash : MainHash)
  | source (err : AncestorError)
  deriving DecidableEq

inductive InternalMessage where
  | mainchainAncestors (peerStateId : PeerStateId)
  | mainchainAncestorsError (err : AncestorsFailure)
  | headers (peerStateId : PeerStateId)
  | bodiesAvailable (peerStateId : PeerStateId)
  deriving DecidableEq

def InternalMessage.peerStateId : InternalMessage → Option PeerStateId
  | .mainchainAncestors peerStateId | .headers peerStateId | .bodiesAvailable peerStateId => some peerStateId
  | .mainchainAncestorsError _ => none

structure PeerConnection (A : Type) where
  addr : A
  -- of the states the peer has announced on this connection
  peerStates : List PeerStateId
  mailbox : List InternalMessage
  ended : Bool
  -- the error it has ended with, if it is this one
  missingPeerState : Option PeerStateId
  deriving DecidableEq

inductive PeerInfo where
  | error
  | needMainchainAncestors (mainHash : MainHash) (peerStateId : PeerStateId)
  -- to a request that was made for this state
  | response (peerStateId : PeerStateId)
  deriving DecidableEq

inductive RequestRecord (A : Type) where
  | needed (mainHash : MainHash) (source : A × PeerStateId)
  -- the main-chain task took no request
  | untaken (mainHash : MainHash) (source : A × PeerStateId)
  | answered (mainHash : MainHash) (source : A × PeerStateId) (result : Except AncestorError Bool)

structure NetPeers (F A : Type) where
  task : MainchainTask F
  -- how many of the events of the main-chain task are handled
  handled : Nat
  -- all there have been, oldest first
  connections : List (PeerConnection A)
  activePeers : A → Option Nat
  -- none when the stream of a connection has ended
  peerInfos : List (A × Option PeerInfo)
  forwarded : List (MainHash × A × PeerStateId)
  requestSources : Waiters MainHash (A × PeerStateId)
  records : List (RequestRecord A)

def NetPeers.new (F A : Type) : NetPeers F A := ⟨.new F,0,[],fun _ => none,[],[],.empty _ _,[]⟩

inductive Notice where
  | headers
  | bodiesAvailable

def Notice.message (peerStateId : PeerStateId) : Notice → InternalMessage
  | .headers => .headers peerStateId
  | .bodiesAvailable => .bodiesAvailable peerStateId

inductive PeersStep (A : Type) where
  -- requests with a receiver of their own are not the net task's
  | main (step : { step : TaskStep // ∀ mainHash, step ≠ .request mainHash false })
  | connect (addr : A)
  | removeActivePeer (addr : A)
  | heartbeat (i : Nat) (peerStateId : PeerStateId)
  | need (i : Nat) (mainHash : MainHash) (peerStateId : PeerStateId)
  | respond (i : Nat) (peerStateId : PeerStateId)
  | fail (i : Nat)
  | close (i : Nat)
  | deliver (i : Nat)
  | peerInfo (notice : Option Notice)
  | forward (taken : Bool)
  -- the sources of a request come in some order
  | taskEvent (sources : List (A × PeerStateId))

namespace NetPeers

variable (net : NetPeers F A)

def modify (i : Nat) (f : PeerConnection A → PeerConnection A) : NetPeers F A :=
  { net with connections := net.connections.modify i f }

def failConnection (i : Nat) (connection : PeerConnection A) (missingPeerState : Option PeerStateId) : NetPeers F A :=
  { net.modify i (fun connection => { connection with ended := true, missingPeerState }) with
    peerInfos := net.peerInfos ++ [(connection.addr,some .error)] }

/- A message that names a peer state needs the connection to know it. -/
def handleInternalMessage (i : Nat) (connection : PeerConnection A) (message : InternalMessage) : NetPeers F A :=
  match message.peerStateId with
  | none => net
  | some peerStateId =>
      if peerStateId ∈ connection.peerStates then net else net.failConnection i connection (some peerStateId)

variable [DecidableEq A]

def addActivePeer (addr : A) : NetPeers F A :=
  match net.activePeers addr with
  | some _ => net
  | none => { net with
      connections := net.connections ++ [⟨addr,[],[],false,none⟩]
      activePeers := Function.update net.activePeers addr (some net.connections.length) }

/- The task of the connection is aborted. -/
def removeActivePeer (addr : A) : NetPeers F A :=
  match net.activePeers addr with
  | none => net
  | some i => { net.modify i (fun connection => { connection with ended := true }) with
      activePeers := Function.update net.activePeers addr none }

def pushInternalMessage (message : InternalMessage) (addr : A) : NetPeers F A :=
  match net.activePeers addr with
  | none => net
  | some i => net.modify i (fun connection =>
      if connection.ended then connection else { connection with mailbox := connection.mailbox ++ [message] })

def answerMessage (mainHash : MainHash) (peerStateId : PeerStateId) : Except AncestorError Bool → InternalMessage
  | .ok true => .mainchainAncestors peerStateId
  | .ok false => .mainchainAncestorsError (.notAvailable mainHash)
  | .error err => .mainchainAncestorsError (.source err)

def answer (mainHash : MainHash) (result : Except AncestorError Bool) (net : NetPeers F A) (source : A × PeerStateId) :
    NetPeers F A :=
  { net.pushInternalMessage (answerMessage mainHash source.2 result) source.1 with
    records := net.records ++ [.answered mainHash source result] }

def handleMainchainTaskResponse (mainHash : MainHash) (result : Except AncestorError Bool) (sources : List (A × PeerStateId)) :
    NetPeers F A :=
  sources.foldl (answer mainHash result) { net with requestSources := net.requestSources.remove mainHash }

def handlePeerInfo (addr : A) (notice : Option Notice) : Option PeerInfo → NetPeers F A
  | none | some .error => net.removeActivePeer addr
  | some (.needMainchainAncestors mainHash peerStateId) =>
      { net with forwarded := net.forwarded ++ [(mainHash,addr,peerStateId)] }
  | some (.response peerStateId) =>
      match notice with
      | none => net
      | some notice => net.pushInternalMessage (notice.message peerStateId) addr

/- A request that has not been taken is only warned about. -/
def forwardRequest (mainHash : MainHash) (source : A × PeerStateId) (taken : Bool) : NetPeers F A :=
  if taken then
    { net with
      task := { net.task with requests := net.task.requests ++ [(mainHash,false)] }
      requestSources := net.requestSources.register mainHash source }
  else { net with records := net.records ++ [.untaken mainHash source] }

def sendInfo (i : Nat) (peerStateId : PeerStateId) (info : PeerInfo) (records : A → List (RequestRecord A)) : NetPeers F A :=
  match net.connections[i]? with
  | none => net
  | some connection =>
      if peerStateId ∈ connection.peerStates then
        { net with
          peerInfos := net.peerInfos ++ [(connection.addr,some info)]
          records := net.records ++ records connection.addr }
      else net

end NetPeers

section Runs

variable (lib : Externals F) [DecidableEq A]

def PeersStep.apply (net : NetPeers F A) : PeersStep A → NetPeers F A
  | .main step => { net with task := step.1.apply lib net.task }
  | .connect addr => net.addActivePeer addr
  | .removeActivePeer addr => net.removeActivePeer addr
  | .heartbeat i peerStateId => net.modify i (fun connection =>
      if connection.ended then connection else { connection with peerStates := connection.peerStates.insert peerStateId })
  | .need i mainHash peerStateId =>
      net.sendInfo i peerStateId (.needMainchainAncestors mainHash peerStateId)
        (fun addr => [.needed mainHash (addr,peerStateId)])
  | .respond i peerStateId => net.sendInfo i peerStateId (.response peerStateId) (fun _ => [])
  | .fail i =>
      match net.connections[i]? with
      | none => net
      | some connection => if connection.ended then net else net.failConnection i connection none
  | .close i =>
      match net.connections[i]? with
      | none => net
      | some connection =>
          if connection.ended then { net with peerInfos := net.peerInfos ++ [(connection.addr,none)] } else net
  | .deliver i =>
      match net.connections[i]? with
      | none => net
      | some connection =>
          match connection.ended, connection.mailbox with
          | false, message :: mailbox =>
              (net.modify i (fun connection => { connection with mailbox })).handleInternalMessage i connection message
          | _, _ => net
  | .peerInfo notice =>
      match net.peerInfos with
      | [] => net
      | (addr,info) :: peerInfos => { net with peerInfos }.handlePeerInfo addr notice info
  | .forward taken =>
      match net.forwarded with
      | [] => net
      | (mainHash,source) :: forwarded => { net with forwarded }.forwardRequest mainHash source taken
  | .taskEvent sources =>
      match net.task.events[net.handled]? with
      | none => net
      | some (.block _) => { net with handled := net.handled + 1 }
      | some (.response mainHash result) =>
          if sources.isPerm (net.requestSources mainHash) then
            { net with handled := net.handled + 1 }.handleMainchainTaskResponse mainHash result sources
          else net

def runPeers (steps : List (PeersStep A)) : NetPeers F A := steps.foldl (PeersStep.apply lib) (.new F A)

end Runs

variable {called : PeersStep A} {net net' : NetPeers F A} {m : MainHash} {source : A × PeerStateId} {i : Nat} {id : PeerStateId}

section PeersMove

variable [DecidableEq A] in
inductive PeersMove (lib : Externals F) (called : PeersStep A) (net net' : NetPeers F A) : Prop
  | connections (connections : List (PeerConnection A)) (activePeers : A → Option Nat)
      (same : net' = { net with connections,activePeers })
  | main (step : { step : TaskStep // ∀ mainHash, step ≠ .request mainHash false }) (isMain : called = .main step)
      (same : net' = { net with task := step.1.apply lib net.task })
  | info (connections : List (PeerConnection A)) (addr : A) (info : Option PeerInfo)
      (other : ∀ mainHash id, info ≠ some (.needMainchainAncestors mainHash id))
      (same : net' = { net with connections, peerInfos := net.peerInfos ++ [(addr,info)] })
  | needed (mainHash : MainHash) (source : A × PeerStateId)
      (same : net' = { net with
        peerInfos := net.peerInfos ++ [(source.1,some (.needMainchainAncestors mainHash source.2))]
        records := net.records ++ [.needed mainHash source] })
  | informed (addr : A) (info : Option PeerInfo) (peerInfos : List (A × Option PeerInfo))
      (connections : List (PeerConnection A)) (activePeers : A → Option Nat)
      (other : ∀ mainHash id, info ≠ some (.needMainchainAncestors mainHash id))
      (first : net.peerInfos = (addr,info) :: peerInfos) (same : net' = { net with connections,activePeers,peerInfos })
  | forwarded (mainHash : MainHash) (source : A × PeerStateId) (peerInfos : List (A × Option PeerInfo))
      (first : net.peerInfos = (source.1,some (.needMainchainAncestors mainHash source.2)) :: peerInfos)
      (same : net' = { net with peerInfos, forwarded := net.forwarded ++ [(mainHash,source)] })
  | taken (mainHash : MainHash) (source : A × PeerStateId) (forwarded : List (MainHash × A × PeerStateId))
      (first : net.forwarded = (mainHash,source) :: forwarded)
      (same : net' = { net with
        forwarded
        task := { net.task with requests := net.task.requests ++ [(mainHash,false)] }
        requestSources := net.requestSources.register mainHash source })
  | untaken (mainHash : MainHash) (source : A × PeerStateId) (forwarded : List (MainHash × A × PeerStateId))
      (first : net.forwarded = (mainHash,source) :: forwarded)
      (same : net' = { net with forwarded, records := net.records ++ [.untaken mainHash source] })
  | block (event : MainchainEvent) (first : net.task.events[net.handled]? = some (.block event))
      (same : net' = { net with handled := net.handled + 1 })
  | answered (mainHash : MainHash) (result : Except AncestorError Bool) (sources : List (A × PeerStateId))
      (connections : List (PeerConnection A)) (first : net.task.events[net.handled]? = some (.response mainHash result))
      (all : sources.Perm (net.requestSources mainHash))
      (same : net' = { net with
        connections
        handled := net.handled + 1
        requestSources := net.requestSources.remove mainHash
        records := net.records ++ sources.map (.answered mainHash · result) })

namespace NetPeers

theorem pushesOnly (net : NetPeers F A) (message : InternalMessage) (addr : A) :
    ∃ connections, net.pushInternalMessage message addr = { net with connections } := by
  unfold pushInternalMessage
  split
  · exact ⟨_,rfl⟩
  · exact ⟨_,rfl⟩

theorem answersOnly (net : NetPeers F A) (mainHash : MainHash) (result : Except AncestorError Bool)
    (sources : List (A × PeerStateId)) : ∃ connections, sources.foldl (answer mainHash result) net =
      { net with connections, records := net.records ++ sources.map (.answered mainHash · result) } := by
  induction sources generalizing net with
  | nil => exact ⟨net.connections,by rw [List.map_nil,List.append_nil,List.foldl_nil]⟩
  | cons source sources ih =>
      obtain ⟨pushed,isPushed⟩ := net.pushesOnly (answerMessage mainHash source.2 result) source.1
      obtain ⟨connections,rest⟩ := ih (answer mainHash result net source)
      refine ⟨connections,?_⟩
      rw [List.foldl_cons,rest]
      simp only [answer,isPushed,List.append_assoc,List.map_cons,List.singleton_append]

variable [DecidableEq A]

theorem removesOnly (net : NetPeers F A) (addr : A) :
    ∃ connections activePeers, net.removeActivePeer addr = { net with connections,activePeers } := by
  unfold removeActivePeer
  split
  · exact ⟨_,_,rfl⟩
  · exact ⟨_,_,rfl⟩

end NetPeers

variable [DecidableEq A]

open NetPeers

theorem sentMoves {info : PeerInfo} {records : A → List (RequestRecord A)}
    (moves : ∀ addr, PeersMove lib called net { net with
      peerInfos := net.peerInfos ++ [(addr,some info)], records := net.records ++ records addr }) :
    PeersMove lib called net (net.sendInfo i id info records) := by
  unfold sendInfo
  split
  · exact .connections net.connections net.activePeers rfl
  · split
    · exact moves _
    · exact .connections net.connections net.activePeers rfl

theorem stays : PeersMove lib called net net := .connections net.connections net.activePeers rfl

theorem informedMoves {addr : A} {info : Option PeerInfo} {peerInfos : List (A × Option PeerInfo)} {notice : Option Notice}
    (first : net.peerInfos = (addr,info) :: peerInfos) :
    PeersMove lib called net ({ net with peerInfos }.handlePeerInfo addr notice info) := by
  unfold handlePeerInfo
  split
  · obtain ⟨connections,activePeers,same⟩ := removesOnly { net with peerInfos } addr
    exact .informed addr _ peerInfos connections activePeers (fun _ _ no => (by cases no)) first same
  · obtain ⟨connections,activePeers,same⟩ := removesOnly { net with peerInfos } addr
    exact .informed addr _ peerInfos connections activePeers (fun _ _ no => (by cases no)) first same
  · next mainHash peerStateId => exact .forwarded mainHash (addr,peerStateId) peerInfos first rfl
  · next peerStateId =>
      cases notice with
      | none => exact .informed addr _ peerInfos net.connections net.activePeers (fun _ _ no => (by cases no)) first rfl
      | some notice =>
          obtain ⟨connections,same⟩ := pushesOnly { net with peerInfos } (notice.message peerStateId) addr
          exact .informed addr _ peerInfos connections net.activePeers (fun _ _ no => (by cases no)) first same

theorem stepMoves (step : PeersStep A) : PeersMove lib step net (step.apply lib net) := by
  cases step with
  | main step => exact .main step rfl rfl
  | connect addr =>
      simp only [PeersStep.apply,addActivePeer]
      split
      · exact stays
      · exact .connections _ _ rfl
  | removeActivePeer addr =>
      obtain ⟨connections,activePeers,same⟩ := net.removesOnly addr
      exact .connections connections activePeers same
  | heartbeat i id => exact .connections _ net.activePeers rfl
  | need i mainHash id => 
      simp only [PeersStep.apply]
      refine sentMoves (fun addr => ?_)
      exact .needed mainHash (addr,id) rfl
  | respond i id =>
      simp only [PeersStep.apply]
      refine sentMoves (fun addr => ?_)
      rw [List.append_nil]
      exact .info net.connections addr _ (fun _ _ no => (by cases no)) rfl
  | fail i =>
      simp only [PeersStep.apply]
      split
      · exact stays
      · split
        · exact stays
        · exact .info _ _ _ (fun _ _ no => (by cases no)) rfl
  | close i =>
      simp only [PeersStep.apply]
      split
      · exact stays
      · split
        · exact .info net.connections _ none (fun _ _ no => (by cases no)) rfl
        · exact stays
  | deliver i =>
      simp only [PeersStep.apply]
      split
      · exact stays
      · split
        · unfold handleInternalMessage
          split
          · exact .connections _ net.activePeers rfl
          · split
            · exact .connections _ net.activePeers rfl
            · exact .info _ _ _ (fun _ _ no => (by cases no)) rfl
        · exact stays
  | peerInfo notice =>
      simp only [PeersStep.apply]
      split
      · exact stays
      · next addr info peerInfos first => exact informedMoves first
  | forward taken =>
      simp only [PeersStep.apply]
      split
      · exact stays
      · next mainHash source forwarded first =>
          unfold forwardRequest
          split
          · exact .taken mainHash source forwarded first rfl
          · exact .untaken mainHash source forwarded first rfl
  | taskEvent sources =>
      simp only [PeersStep.apply]
      split
      · exact stays
      · next event first => exact .block event first rfl
      · next mainHash result first =>
          split
          · next all =>
              obtain ⟨connections,same⟩ := answersOnly
                { net with handled := net.handled + 1, requestSources := net.requestSources.remove mainHash } mainHash result sources
              exact .answered mainHash result sources connections first (List.isPerm_iff.mp all) same
          · exact stays

end PeersMove

section Progress

variable {task : MainchainTask F}

def Progress (task task' : MainchainTask F) : Prop :=
  ∃ more, task'.events = task.events ++ more ∧
    ∀ m, (m,false) ∈ task.requests → (m,false) ∈ task'.requests ∨ ∃ result, .response m result ∈ more

theorem progressSame {archive : Archive F} {running : Bool} {answers : List (MainHash × Except AncestorError Bool)}
    {more : List TaskEvent} :
    Progress task { task with archive,running,answers, events := task.events ++ more } := ⟨more,rfl,fun _ waits => .inl waits⟩

theorem progressQuiet {archive : Archive F} {running : Bool} : Progress task { task with archive,running } :=
  ⟨[],(List.append_nil _).symm,fun _ waits => .inl waits⟩

theorem startProgress {chainTip : MainHash} {enforcers : List Enforcer} : Progress task (task.start chainTip enforcers) := by
  unfold MainchainTask.start
  split
  · unfold MainchainTask.sync
    split
    · exact progressSame
    · exact progressQuiet
  · exact progressQuiet
  · exact progressQuiet

theorem respondProgress {requests : List (MainHash × Bool)} {archive : Archive F} {oneshot listening : Bool}
    {result : Except AncestorError Bool} (first : task.requests = (m,oneshot) :: requests) :
    Progress task ({ task with archive,requests }.respond m oneshot listening result) := by
  have others (other : MainHash) (waits : (other,false) ∈ task.requests) : other = m ∧ oneshot = false ∨ (other,false) ∈ requests := by
    rw [first] at waits
    rcases List.mem_cons.mp waits with here | later
    · obtain ⟨rfl,isFalse⟩ := Prod.mk.inj here
      exact .inl ⟨rfl,isFalse.symm⟩
    · exact .inr later
  unfold MainchainTask.respond
  cases oneshot with
  | true =>
      have quiet : ∀ other, (other,false) ∈ task.requests → (other,false) ∈ requests := by
        intro other waits
        exact (others other waits).resolve_left (fun here => (by cases here.2))
      rw [if_pos rfl]
      split
      · exact ⟨[],(List.append_nil _).symm,fun other waits => .inl (quiet other waits)⟩
      · exact ⟨[],(List.append_nil _).symm,fun other waits => .inl (quiet other waits)⟩
  | false =>
      rw [if_neg (by decide)]
      refine ⟨[.response m result],rfl,fun other waits => ?_⟩
      rcases others other waits with ⟨rfl,_⟩ | later
      · exact .inr ⟨result,List.mem_singleton.mpr rfl⟩
      · exact .inl later

theorem taskProgress (step : TaskStep) : Progress task (step.apply lib task) := by
  cases step with
  | request mainHash oneshot =>
      exact ⟨[],(List.append_nil _).symm,fun _ waits => .inl (List.mem_append_left _ waits)⟩
  | start chainTip enforcers =>
      unfold TaskStep.apply
      dsimp only
      split
      · exact progressQuiet
      · exact startProgress
  | blockEvent event =>
      unfold TaskStep.apply MainchainTask.blockEvent
      dsimp only
      split
      · split
        · exact progressSame
        · exact progressQuiet
      · exact progressQuiet
  | serve enforcers listening =>
      unfold TaskStep.apply MainchainTask.serve
      dsimp only
      split
      · split
        · exact progressQuiet
        · next mainHash oneshot requests first =>
            split
            · exact progressQuiet
            · exact respondProgress first
            · exact respondProgress first
      · exact progressQuiet
  | stop => exact progressQuiet
  | other op =>
      unfold TaskStep.apply
      dsimp only
      split
      · exact progressQuiet
      · exact progressQuiet

end Progress

section Requests

variable {k : Nat}

def Outstanding (net : NetPeers F A) (m : MainHash) : Prop :=
  (m,false) ∈ net.task.requests ∨ ∃ result, .response m result ∈ net.task.events.drop net.handled

structure Awaited (net : NetPeers F A) : Prop where
  handled : net.handled ≤ net.task.events.length
  outstanding : ∀ m source, source ∈ net.requestSources m → Outstanding net m

theorem handledLast {event : TaskEvent} (first : net.task.events[net.handled]? = some event) :
    net.task.events.drop net.handled = event :: net.task.events.drop (net.handled + 1) := by
  obtain ⟨bound,rfl⟩ := List.getElem?_eq_some_iff.mp first
  exact List.drop_eq_getElem_cons bound

theorem Awaited.new : Awaited (.new F A : NetPeers F A) :=
  ⟨Nat.zero_le _,fun _ _ waits => (by cases waits)⟩

def InFlight (net : NetPeers F A) (m : MainHash) (source : A × PeerStateId) : Prop :=
  (source.1,some (.needMainchainAncestors m source.2)) ∈ net.peerInfos ∨ (m,source) ∈ net.forwarded ∨
    source ∈ net.requestSources m

def Concluded (records : List (RequestRecord A)) (m : MainHash) (source : A × PeerStateId) : Prop :=
  .untaken m source ∈ records ∨ ∃ result, .answered m source result ∈ records

theorem Concluded.more {records more : List (RequestRecord A)} (settled : Concluded records m source) :
    Concluded (records ++ more) m source :=
  settled.imp (List.mem_append_left _) (fun found => found.imp (fun _ => List.mem_append_left _))

structure Drained (net : NetPeers F A) : Prop where
  peerInfos : net.peerInfos = []
  forwarded : net.forwarded = []
  requests : ∀ m, (m,false) ∉ net.task.requests
  handled : net.task.events.length ≤ net.handled

theorem Drained.settled {records : List (RequestRecord A)} (drained : Drained net) (awaited : Awaited net)
    (goesOn : InFlight net m source ∨ Concluded records m source) : Concluded records m source := by
  refine goesOn.resolve_left (fun waits => ?_)
  rcases waits with asked | forwarded | waiting
  · rw [drained.peerInfos] at asked
    cases asked
  · rw [drained.forwarded] at forwarded
    cases forwarded
  · rcases awaited.outstanding m source waiting with queued | ⟨result,coming⟩
    · exact drained.requests m queued
    · rw [List.drop_eq_nil_of_le drained.handled] at coming
      cases coming

variable [DecidableEq A] {steps : List (PeersStep A)}

theorem Awaited.move (awaited : Awaited net) (moves : PeersMove lib called net net') : Awaited net' := by
  cases moves with
  | main step isMain same =>
      obtain ⟨more,grown,answered⟩ : Progress net.task (step.1.apply lib net.task) := taskProgress step.1
      subst same
      refine ⟨?_,fun m source waits => ?_⟩
      · show net.handled ≤ (step.1.apply lib net.task).events.length
        rw [grown,List.length_append]
        exact Nat.le_add_right_of_le awaited.handled
      · have drops : (step.1.apply lib net.task).events.drop net.handled = net.task.events.drop net.handled ++ more := by
          rw [grown,List.drop_append_of_le_length awaited.handled]
        rcases awaited.outstanding m source waits with queued | ⟨result,coming⟩
        · rcases answered m queued with still | ⟨result,now⟩
          · exact .inl still
          · exact .inr ⟨result,drops ▸ List.mem_append_right _ now⟩
        · exact .inr ⟨result,drops ▸ List.mem_append_left _ coming⟩
  | taken mainHash source forwarded first same =>
      subst same
      refine ⟨awaited.handled,fun m other waits => ?_⟩
      rcases Waiters.memRegister.mp waits with before | ⟨rfl,rfl⟩
      · exact (awaited.outstanding m other before).imp (List.mem_append_left _) id
      · exact .inl (List.mem_append_right _ (List.mem_singleton.mpr rfl))
  | block event first same =>
      subst same
      refine ⟨(List.getElem?_eq_some_iff.mp first).1,fun m source waits => ?_⟩
      refine (awaited.outstanding m source waits).imp id (fun coming => ?_)
      obtain ⟨result,mem⟩ := coming
      rw [handledLast first] at mem
      rcases List.mem_cons.mp mem with no | later
      · cases no
      · exact ⟨result,later⟩
  | answered mainHash result sources connections first all same =>
      subst same
      refine ⟨(List.getElem?_eq_some_iff.mp first).1,fun m source waits => ?_⟩
      obtain ⟨other,before⟩ := Waiters.memRemove.mp waits
      refine (awaited.outstanding m source before).imp id (fun coming => ?_)
      obtain ⟨result',mem⟩ := coming
      rw [handledLast first] at mem
      rcases List.mem_cons.mp mem with here | later
      · exact absurd (TaskEvent.response.inj here).1 other
      · exact ⟨result',later⟩
  | connections _ _ same | info _ _ _ _ same | needed _ _ same | informed _ _ _ _ _ _ _ same | forwarded _ _ _ _ same
  | untaken _ _ _ _ same =>
      subst same
      exact ⟨awaited.handled,awaited.outstanding⟩

theorem inFlightMove (waits : InFlight net m source) (moves : PeersMove lib called net net') :
    InFlight net' m source ∨ ∃ more, net'.records = net.records ++ more ∧ Concluded more m source := by
  rcases waits with asked | forwarded | waiting
  · cases moves with
    | informed addr info peerInfos connections activePeers other first same =>
        subst same
        rw [first] at asked
        rcases List.mem_cons.mp asked with here | later
        · exact absurd (Prod.mk.inj here).2.symm (other _ _)
        · exact .inl (.inl later)
    | forwarded mainHash source' peerInfos first same =>
        subst same
        rw [first] at asked
        rcases List.mem_cons.mp asked with here | later
        · obtain ⟨isAddr,isNeed⟩ := Prod.mk.inj here
          obtain ⟨rfl,isId⟩ := PeerInfo.needMainchainAncestors.inj (Option.some.inj isNeed)
          obtain rfl : source = source' := Prod.ext isAddr isId
          exact .inl (.inr (.inl (List.mem_append_right _ (List.mem_singleton.mpr rfl))))
        · exact .inl (.inl later)
    | info _ _ _ _ same | needed _ _ same =>
        subst same
        exact .inl (.inl (List.mem_append_left _ asked))
    | connections _ _ same | main _ _ same | taken _ _ _ _ same | untaken _ _ _ _ same | block _ _ same
    | answered _ _ _ _ _ _ same =>
        subst same
        exact .inl (.inl asked)
  · cases moves with
    | forwarded _ _ _ _ same =>
        subst same
        exact .inl (.inr (.inl (List.mem_append_left _ forwarded)))
    | taken mainHash source' later first same =>
        subst same
        rw [first] at forwarded
        rcases List.mem_cons.mp forwarded with here | rest
        · obtain ⟨rfl,rfl⟩ := Prod.mk.inj here
          exact .inl (.inr (.inr Waiters.registered))
        · exact .inl (.inr (.inl rest))
    | untaken mainHash source' later first same =>
        subst same
        rw [first] at forwarded
        rcases List.mem_cons.mp forwarded with here | rest
        · obtain ⟨rfl,rfl⟩ := Prod.mk.inj here
          exact .inr ⟨_,rfl,.inl (List.mem_singleton.mpr rfl)⟩
        · exact .inl (.inr (.inl rest))
    | connections _ _ same | main _ _ same | info _ _ _ _ same | needed _ _ same | informed _ _ _ _ _ _ _ same | block _ _ same
    | answered _ _ _ _ _ _ same =>
        subst same
        exact .inl (.inr (.inl forwarded))
  · cases moves with
    | taken _ _ _ _ same =>
        subst same
        exact .inl (.inr (.inr (Waiters.memRegister.mpr (.inl waiting))))
    | answered mainHash result sources connections first all same =>
        subst same
        by_cases here : m = mainHash
        · subst here
          exact .inr ⟨_,rfl,.inr ⟨result,List.mem_map.mpr ⟨source,all.mem_iff.mpr waiting,rfl⟩⟩⟩
        · exact .inl (.inr (.inr (Waiters.memRemove.mpr ⟨here,waiting⟩)))
    | connections _ _ same | main _ _ same | info _ _ _ _ same | needed _ _ same | informed _ _ _ _ _ _ _ same
    | forwarded _ _ _ _ same | untaken _ _ _ _ same | block _ _ same =>
        subst same
        exact .inl (.inr (.inr waiting))

theorem recordsGrow (moves : PeersMove lib called net net') : ∃ more, net'.records = net.records ++ more := by
  cases moves with
  | needed _ _ same | untaken _ _ _ _ same | answered _ _ _ _ _ _ same =>
      subst same
      exact ⟨_,rfl⟩
  | connections _ _ same | main _ _ same | info _ _ _ _ same | informed _ _ _ _ _ _ _ same | forwarded _ _ _ _ same
  | taken _ _ _ _ same | block _ _ same =>
      subst same
      exact ⟨[],(List.append_nil _).symm⟩

structure Pursued (net : NetPeers F A) (k : Nat) (m : MainHash) (source : A × PeerStateId) : Prop where
  since : k ≤ net.records.length
  goesOn : InFlight net m source ∨ Concluded (net.records.drop k) m source

theorem Pursued.move (pursued : Pursued net k m source) (moves : PeersMove lib called net net') : Pursued net' k m source := by
  obtain ⟨more,grown⟩ := recordsGrow moves
  have drops : net'.records.drop k = net.records.drop k ++ more := by
    rw [grown,List.drop_append_of_le_length pursued.since]
  refine ⟨?_,?_⟩
  · rw [grown,List.length_append]
    exact Nat.le_add_right_of_le pursued.since
  · rcases pursued.goesOn with waits | settled
    · rcases inFlightMove waits moves with still | ⟨more',isMore,settled⟩
      · exact .inl still
      · obtain rfl := List.append_cancel_left (grown.symm.trans isMore)
        exact .inr (drops ▸ settled.imp (List.mem_append_right _) (fun found => found.imp (fun _ => List.mem_append_right _)))
    · exact .inr (drops ▸ settled.more)

def needs (m : MainHash) (source : A × PeerStateId) : RequestRecord A → Bool
  | .needed mainHash other => (mainHash,other) = (m,source)
  | _ => false

def settles (m : MainHash) (source : A × PeerStateId) : RequestRecord A → Bool
  | .untaken mainHash other | .answered mainHash other _ => (mainHash,other) = (m,source)
  | .needed _ _ => false

def asks (m : MainHash) (source : A × PeerStateId) : A × Option PeerInfo → Bool
  | (addr,some (.needMainchainAncestors mainHash peerStateId)) => (mainHash,addr,peerStateId) = (m,source)
  | _ => false

def Counted (net : NetPeers F A) (m : MainHash) (source : A × PeerStateId) : Prop :=
  net.records.countP (settles m source) + net.requestSources.times m source +
    net.forwarded.countP (fun request => request = (m,source)) + net.peerInfos.countP (asks m source) ≤
      net.records.countP (needs m source)

theorem Counted.move (counted : Counted net m source) (moves : PeersMove lib called net net') :
    Counted net' m source := by
  unfold Counted at *
  cases moves with
  | connections _ _ same | main _ _ same | block _ _ same =>
      subst same
      exact counted
  | info connections addr info other same =>
      subst same
      have none : asks m source (addr,info) = false := by
        cases info with
        | none => rfl
        | some info =>
            cases info with
            | needMainchainAncestors mainHash peerStateId => exact absurd rfl (other mainHash peerStateId)
            | error | response _ => rfl
      simp only [List.countP_append,List.countP_singleton,none]
      exact counted
  | needed mainHash other same =>
      subst same
      obtain ⟨addr,id⟩ := other
      simp only [List.countP_append,List.countP_singleton,asks,needs,settles]
      by_cases hit : (mainHash,addr,id) = (m,source)
      · simp only [hit,decide_true,if_true,Bool.false_eq_true,if_false]
        omega
      · simp only [hit,decide_false,Bool.false_eq_true,if_false]
        exact counted
  | informed addr info peerInfos connections activePeers other first same =>
      subst same
      rw [first,List.countP_cons] at counted
      exact Nat.le_trans (Nat.add_le_add_left (Nat.le_add_right _ _) _) counted
  | forwarded mainHash other peerInfos first same =>
      subst same
      obtain ⟨addr,id⟩ := other
      rw [first,List.countP_cons] at counted
      simp only [asks] at counted
      simp only [List.countP_append,List.countP_singleton]
      by_cases hit : (mainHash,addr,id) = (m,source)
      · simp only [hit,decide_true,if_true] at counted ⊢
        omega
      · simp only [hit,decide_false,Bool.false_eq_true,if_false] at counted ⊢
        exact counted
  | taken mainHash other forwarded first same =>
      subst same
      have more := @Waiters.timesRegister _ _ net.requestSources mainHash m other source _ _
      rw [first,List.countP_cons] at counted
      dsimp only
      by_cases hit : (mainHash,other) = (m,source)
      · simp only [hit,decide_true,if_true] at counted more ⊢
        obtain ⟨rfl,rfl⟩ := Prod.mk.inj hit
        omega
      · simp only [hit,decide_false,Bool.false_eq_true,if_false] at counted more
        omega
  | untaken mainHash other forwarded first same =>
      subst same
      rw [first,List.countP_cons] at counted
      simp only [List.countP_append,List.countP_singleton,needs,settles]
      by_cases hit : (mainHash,other) = (m,source)
      · simp only [hit,decide_true,if_true,Bool.false_eq_true,if_false] at counted ⊢
        omega
      · simp only [hit,decide_false,Bool.false_eq_true,if_false] at counted ⊢
        exact counted
  | answered mainHash result sources connections first all same =>
      subst same
      have noNeed : (sources.map (RequestRecord.answered mainHash · result)).countP (needs m source) = 0 := by
        rw [List.countP_map]
        exact List.countP_eq_zero.mpr (fun _ _ no => (by cases no))
      simp only [List.countP_append,noNeed,Waiters.timesRemove]
      by_cases here : m = mainHash
      · subst here
        have settled : (sources.map (RequestRecord.answered m · result)).countP (settles m source) =
            net.requestSources.times m source := by
          rw [List.countP_map,← Waiters.timesPerm all]
          refine List.countP_congr (fun other _ => ?_)
          simp only [Function.comp_apply,settles,Prod.mk.injEq,true_and]
        rw [settled,if_pos rfl]
        omega
      · have settled : (sources.map (RequestRecord.answered mainHash · result)).countP (settles m source) = 0 := by
          rw [List.countP_map]
          refine List.countP_eq_zero.mpr (fun other _ same => here ?_)
          exact (Prod.mk.inj (of_decide_eq_true same)).1.symm
        rw [settled,if_neg here]
        omega

def AnswersHeard (net : NetPeers F A) : Prop :=
  ∀ m source result, .answered m source result ∈ net.records → .response m result ∈ net.task.events

theorem AnswersHeard.move (reported : AnswersHeard net) (moves : PeersMove lib called net net') : AnswersHeard net' := by
  cases moves with
  | main step isMain same =>
      obtain ⟨more,grown,_⟩ : Progress net.task (step.1.apply lib net.task) := taskProgress step.1
      subst same
      intro m source result mem
      show .response m result ∈ (step.1.apply lib net.task).events
      rw [grown]
      exact List.mem_append_left _ (reported m source result mem)
  | needed _ _ same | untaken _ _ _ _ same =>
      subst same
      intro m source result mem
      rcases List.mem_append.mp mem with earlier | here
      · exact reported m source result earlier
      · cases List.mem_singleton.mp here
  | answered mainHash result sources connections first all same =>
      subst same
      intro m source result' mem
      rcases List.mem_append.mp mem with earlier | here
      · exact reported m source result' earlier
      · obtain ⟨_,_,same⟩ := List.mem_map.mp here
        obtain ⟨rfl,_,rfl⟩ := RequestRecord.answered.inj same
        exact List.mem_of_getElem? first
  | connections _ _ same | info _ _ _ _ same | informed _ _ _ _ _ _ _ same | forwarded _ _ _ _ same | taken _ _ _ _ same
  | block _ _ same =>
      subst same
      exact reported

def PeersStep.Names (lib : Externals F) (world : World) : PeersStep A → Prop
  | .main step => step.1.Names lib world
  | _ => True

theorem TaskKept.move (kept : TaskKept lib world net.task) (names : called.Names lib world) (moves : PeersMove lib called net net') :
    TaskKept lib world net'.task := by
  cases moves with
  | main step isMain same =>
      subst same isMain
      exact kept.step names
  | taken _ _ _ _ same =>
      subst same
      exact kept.add kept.filled addedRefl
  | connections _ _ same | info _ _ _ _ same | needed _ _ same | informed _ _ _ _ _ _ _ same | forwarded _ _ _ _ same
  | untaken _ _ _ _ same | block _ _ same | answered _ _ _ _ _ _ same =>
      subst same
      exact kept

theorem movesKeep {P : NetPeers F A → Prop} (keeps : ∀ net net' called, PeersMove lib called net net' → P net → P net') (start : P net) :
    P (steps.foldl (PeersStep.apply lib) net) := by
  induction steps generalizing net with
  | nil => exact start
  | cons step steps ih => exact ih (keeps _ _ _ (stepMoves step) start)

theorem runTaskOfPeers (names : ∀ step ∈ steps, step.Names lib world) (kept : TaskKept lib world net.task) :
    TaskKept lib world (steps.foldl (PeersStep.apply lib) net).task := by
  induction steps generalizing net with
  | nil => exact kept
  | cons step steps ih =>
      obtain ⟨first,later⟩ := List.forall_mem_cons.mp names
      exact ih later (kept.move first (stepMoves step))

def askedBefore : List (PeersStep Nat) :=
  [.main ⟨.start 1 [lineEnforcer twoBlocks],fun _ => nofun⟩,.connect 9,.heartbeat 0 7]

def askedAfter : List (PeersStep Nat) :=
  [.peerInfo none,.forward true,.main ⟨.serve [lineEnforcer twoBlocks] true,fun _ => nofun⟩,.taskEvent [],.taskEvent [(9,7)],
    .deliver 0]

def askedSteps : List (PeersStep Nat) := askedBefore ++ .need 0 2 7 :: askedAfter

theorem askedNames : ∀ step ∈ askedSteps, step.Names Reference.externals plainWorld := by
  have honest : ∀ enforcer ∈ [lineEnforcer twoBlocks], enforcer.Answers plainWorld :=
    List.forall_mem_singleton.mpr (lineAnswers twoBlocksNamed)
  intro step mem
  simp only [askedSteps,askedBefore,askedAfter,List.cons_append,List.nil_append,List.mem_cons,List.not_mem_nil,or_false] at mem
  rcases mem with rfl | rfl | rfl | rfl | rfl | rfl | rfl | rfl | rfl | rfl <;> first | exact honest | trivial

/- A peer is told that the ancestors are there only when they are, and it is told no more often than it has asked. -/
theorem answersRight (names : ∀ step ∈ steps, step.Names lib world) (m : MainHash) (source : A × PeerStateId) :
    (.answered m source (.ok true) ∈ (runPeers lib steps).records → knownBelow (runPeers lib steps).task.archive m = true) ∧
    (runPeers lib steps).records.countP (settles m source) ≤ (runPeers lib steps).records.countP (needs m source) := by
  have heard : AnswersHeard (runPeers lib steps) :=
    movesKeep (fun _ _ _ moves before => before.move moves) (fun _ _ _ mem => (by cases mem))
  have counted : Counted (runPeers lib steps) m source :=
    movesKeep (P := fun net => Counted net m source) (fun _ _ _ moves before => before.move moves) (Nat.le_refl 0)
  have kept : TaskKept lib world (runPeers lib steps).task := runTaskOfPeers names .new
  refine ⟨fun told => knownIff.mpr (kept.answered m (.inl (heard m source _ told))),?_⟩
  unfold Counted at counted
  omega

theorem askedRight :
    ((.answered 2 (9,7) (.ok true) ∈ (runPeers Reference.externals askedSteps).records →
      knownBelow (runPeers Reference.externals askedSteps).task.archive 2 = true) ∧
    (runPeers Reference.externals askedSteps).records.countP (settles 2 (9,7)) ≤
      (runPeers Reference.externals askedSteps).records.countP (needs 2 (9,7))) ∧
    (runPeers Reference.externals askedSteps).records.countP (settles 2 (9,7)) = 1 :=
  ⟨answersRight askedNames 2 (9,7),by decide +kernel⟩

/- A request stays on its way until it is answered or not taken; when nothing is on its way any more, it has been. -/
theorem neverLost {before after : List (PeersStep A)} {connection : PeerConnection A}
    (isConnection : (runPeers lib before).connections[i]? = some connection) (knows : id ∈ connection.peerStates) :
    (InFlight (runPeers lib (before ++ .need i m id :: after)) m (connection.addr,id) ∨
      Concluded ((runPeers lib (before ++ .need i m id :: after)).records.drop (runPeers lib before).records.length) m
        (connection.addr,id)) ∧
    (Drained (runPeers lib (before ++ .need i m id :: after)) →
      Concluded ((runPeers lib (before ++ .need i m id :: after)).records.drop (runPeers lib before).records.length) m
        (connection.addr,id)) := by
  have awaited : Awaited (runPeers lib (before ++ .need i m id :: after)) :=
    movesKeep (fun _ _ _ moves before => before.move moves) .new
  have asked : Pursued ((PeersStep.need i m id).apply lib (runPeers lib before)) (runPeers lib before).records.length m
      (connection.addr,id) := by
    have sent : (PeersStep.need i m id).apply lib (runPeers lib before) = { runPeers lib before with
        peerInfos := (runPeers lib before).peerInfos ++ [(connection.addr,some (.needMainchainAncestors m id))]
        records := (runPeers lib before).records ++ [.needed m (connection.addr,id)] } := by
      simp only [PeersStep.apply,NetPeers.sendInfo,isConnection,if_pos knows]
    rw [sent]
    refine ⟨?_,.inl (.inl (List.mem_append_right _ (List.mem_singleton.mpr rfl)))⟩
    rw [List.length_append]
    exact Nat.le_add_right _ _
  have pursued : Pursued (runPeers lib (before ++ .need i m id :: after)) (runPeers lib before).records.length m
      (connection.addr,id) := by
    have splits : runPeers lib (before ++ .need i m id :: after) =
        after.foldl (PeersStep.apply lib) ((PeersStep.need i m id).apply lib (runPeers lib before)) := by
      rw [runPeers,List.foldl_append]
      rfl
    rw [splits]
    exact movesKeep (P := fun net => Pursued net (runPeers lib before).records.length m (connection.addr,id))
      (fun _ _ _ moves before => before.move moves) asked
  exact ⟨pursued.goesOn,fun drained => drained.settled awaited pursued.goesOn⟩

theorem askedSettled : Concluded ((runPeers Reference.externals askedSteps).records.drop 0) 2 ((9 : Nat),(7 : PeerStateId)) := by
  have isConnection : (runPeers Reference.externals askedBefore).connections[0]? = some ⟨9,[7],[],false,none⟩ := by decide +kernel
  have drained : Drained (runPeers Reference.externals askedSteps) := by
    refine ⟨by decide +kernel,by decide +kernel,fun m mem => ?_,by decide +kernel⟩
    have none : (runPeers Reference.externals askedSteps).task.requests = [] := by decide +kernel
    rw [none] at mem
    cases mem
  exact (neverLost isConnection (List.mem_singleton.mpr rfl)).2 drained

end Requests

section Connections

variable {connections connections' : List (PeerConnection A)} {connection : PeerConnection A} {addr : A} {j : Nat}

def Origin (connections : List (PeerConnection A)) (i : Nat) (addr : A) (id : PeerStateId) : Prop :=
  ∃ j ≤ i, ∃ connection, connections[j]? = some connection ∧ connection.addr = addr ∧ id ∈ connection.peerStates

def Keeps (connections connections' : List (PeerConnection A)) : Prop :=
  ∀ (i : Nat) (connection : PeerConnection A), connections[i]? = some connection →
    ∃ connection' : PeerConnection A, connections'[i]? = some connection' ∧ connection'.addr = connection.addr ∧
      ∀ id ∈ connection.peerStates, id ∈ connection'.peerStates

theorem Origin.keep (origin : Origin connections i addr id) (keeps : Keeps connections connections') :
    Origin connections' i addr id := by
  obtain ⟨j,bound,connection,found,isAddr,knows⟩ := origin
  obtain ⟨connection',found',same,more⟩ := keeps j connection found
  exact ⟨j,bound,connection',found',same.trans isAddr,more id knows⟩

/- Whatever reaches a connection was asked for on it or on an earlier one. -/
structure Founded (connections : List (PeerConnection A)) (i : Nat) (connection : PeerConnection A) : Prop where
  mailbox : ∀ message ∈ connection.mailbox, ∀ id, message.peerStateId = some id → Origin connections i connection.addr id
  missing : ∀ id, connection.missingPeerState = some id →
    connection.ended = true ∧ id ∉ connection.peerStates ∧ Origin connections i connection.addr id

theorem Founded.keep (fits : Founded connections i connection) (keeps : Keeps connections connections') :
    Founded connections' i connection := by
  refine ⟨fun message mem id names => (fits.mailbox message mem id names).keep keeps,fun id isMissing => ?_⟩
  obtain ⟨ended,unknown,origin⟩ := fits.missing id isMissing
  exact ⟨ended,unknown,origin.keep keeps⟩

def PeerInfo.peerStateId : PeerInfo → Option PeerStateId
  | .error => none
  | .needMainchainAncestors _ peerStateId | .response peerStateId => some peerStateId

def Mentions (net : NetPeers F A) (addr : A) (id : PeerStateId) : Prop :=
  (∃ info, (addr,some info) ∈ net.peerInfos ∧ info.peerStateId = some id) ∨ (∃ m, (m,addr,id) ∈ net.forwarded) ∨
    ∃ m, (addr,id) ∈ net.requestSources m

structure Remembered (net : NetPeers F A) : Prop where
  fits : ∀ i connection, net.connections[i]? = some connection → Founded net.connections i connection
  -- the newest connection to its address
  active : ∀ addr i, net.activePeers addr = some i → (∃ connection, net.connections[i]? = some connection ∧ connection.addr = addr) ∧
    ∀ j connection, net.connections[j]? = some connection → connection.addr = addr → j ≤ i
  known : ∀ addr id, Mentions net addr id → ∃ i, Origin net.connections i addr id

theorem keepsModify {f : PeerConnection A → PeerConnection A}
    (grows : ∀ connection, (f connection).addr = connection.addr ∧ ∀ id ∈ connection.peerStates, id ∈ (f connection).peerStates) :
    Keeps connections (connections.modify i f) := by
  intro j connection found
  rw [List.getElem?_modify,found,Option.map_eq_map,Option.map_some]
  by_cases same : i = j
  · exact ⟨f connection,by rw [if_pos same],grows connection⟩
  · exact ⟨connection,by rw [if_neg same],rfl,fun _ knows => knows⟩

theorem Remembered.modify {f : PeerConnection A → PeerConnection A} (traced : Remembered net)
    (grows : ∀ connection, (f connection).addr = connection.addr ∧ ∀ id ∈ connection.peerStates, id ∈ (f connection).peerStates)
    (fits : ∀ connection, net.connections[i]? = some connection → Founded net.connections i connection →
      Founded net.connections i (f connection)) : Remembered (net.modify i f) := by
  have keeps : Keeps net.connections (net.modify i f).connections := keepsModify grows
  have back (j : Nat) (connection : PeerConnection A) (found : (net.modify i f).connections[j]? = some connection) :
      ∃ before, net.connections[j]? = some before ∧ before.addr = connection.addr ∧ (connection = before ∨ j = i ∧ connection = f before) := by
    rw [NetPeers.modify,List.getElem?_modify] at found
    obtain ⟨before,isBefore,rfl⟩ := Option.map_eq_some_iff.mp found
    by_cases same : i = j
    · rw [if_pos same]
      exact ⟨before,isBefore,(grows before).1.symm,.inr ⟨same.symm,rfl⟩⟩
    · rw [if_neg same]
      exact ⟨before,isBefore,rfl,.inl rfl⟩
  refine ⟨fun j connection found => ?_,fun addr k isActive => ⟨?_,fun j connection found isAddr => ?_⟩,fun addr id mentions => ?_⟩
  · obtain ⟨before,isBefore,_,rfl | ⟨rfl,rfl⟩⟩ := back j connection found
    · exact (traced.fits j _ isBefore).keep keeps
    · exact (fits before isBefore (traced.fits j before isBefore)).keep keeps
  · obtain ⟨connection,found,isAddr⟩ := (traced.active addr k isActive).1
    obtain ⟨connection',found',same,_⟩ := keeps k connection found
    exact ⟨connection',found',same.trans isAddr⟩
  · obtain ⟨before,isBefore,same,_⟩ := back j connection found
    exact (traced.active addr k isActive).2 j before isBefore (same.trans isAddr)
  · obtain ⟨j,origin⟩ := traced.known addr id mentions
    exact ⟨j,origin.keep keeps⟩

theorem Remembered.fewer {peerInfos : List (A × Option PeerInfo)} {forwarded : List (MainHash × A × PeerStateId)}
    {requestSources : Waiters MainHash (A × PeerStateId)} (traced : Remembered net)
    (fewer : ∀ addr id, Mentions { net with peerInfos,forwarded,requestSources } addr id → Mentions net addr id) :
    Remembered { net with peerInfos,forwarded,requestSources } :=
  ⟨traced.fits,traced.active,fun addr id mentions => traced.known addr id (fewer addr id mentions)⟩

theorem Remembered.sends {info : Option PeerInfo} (traced : Remembered net)
    (known : ∀ some, info = .some some → ∀ id, some.peerStateId = .some id → ∃ i, Origin net.connections i addr id) :
    Remembered { net with peerInfos := net.peerInfos ++ [(addr,info)] } := by
  refine ⟨traced.fits,traced.active,fun addr' id mentions => ?_⟩
  rcases mentions with ⟨sent,mem,names⟩ | rest
  · rcases List.mem_append.mp mem with earlier | here
    · exact traced.known addr' id (.inl ⟨sent,earlier,names⟩)
    · obtain ⟨rfl,same⟩ := Prod.mk.inj (List.mem_singleton.mp here)
      exact known sent same.symm id names
  · exact traced.known addr' id (.inr rest)

theorem Remembered.new : Remembered (NetPeers.new F A) :=
  ⟨fun _ _ no => (by cases no),fun _ _ no => (by cases no),fun _ _ mentions => by
    rcases mentions with ⟨_,mem,_⟩ | ⟨_,mem⟩ | ⟨_,mem⟩
    · cases mem
    · cases mem
    · cases mem⟩

theorem growsPush {message : InternalMessage} (connection : PeerConnection A) :
    (if connection.ended then connection else { connection with mailbox := connection.mailbox ++ [message] }).addr = connection.addr ∧
      ∀ id ∈ connection.peerStates, id ∈
        (if connection.ended then connection else { connection with mailbox := connection.mailbox ++ [message] }).peerStates := by
  split
  · exact ⟨rfl,fun _ knows => knows⟩
  · exact ⟨rfl,fun _ knows => knows⟩

theorem pushKeeps {message : InternalMessage} : Keeps net.connections (net.pushInternalMessage message addr).connections := by
  unfold NetPeers.pushInternalMessage
  split
  · exact fun _ connection found => ⟨connection,found,rfl,fun _ knows => knows⟩
  · exact keepsModify growsPush

theorem Remembered.pushes {message : InternalMessage} (traced : Remembered net)
    (known : ∀ id, message.peerStateId = some id → ∃ i, Origin net.connections i addr id) :
    Remembered (net.pushInternalMessage message addr) := by
  unfold NetPeers.pushInternalMessage
  split
  · exact traced
  · next i isActive =>
      refine traced.modify growsPush (fun connection found fits => ?_)
      split
      · exact fits
      · refine ⟨fun other mem id names => ?_,fits.missing⟩
        rcases List.mem_append.mp mem with earlier | here
        · exact fits.mailbox other earlier id names
        · obtain rfl := List.mem_singleton.mp here
          obtain ⟨⟨active,isConnection,isAddr⟩,newest⟩ := traced.active addr i isActive
          obtain rfl : active = connection := Option.some.inj (isConnection.symm.trans found)
          obtain ⟨_,j,_,origin,isOrigin,sameAddr,knows⟩ := known id names
          exact ⟨j,newest j origin isOrigin sameAddr,origin,isOrigin,sameAddr.trans isAddr.symm,knows⟩

theorem Remembered.endsWith {missingPeerState : Option PeerStateId} (traced : Remembered net)
    (missing : ∀ id, missingPeerState = some id → ∀ other, net.connections[i]? = some other →
      id ∉ other.peerStates ∧ Origin net.connections i other.addr id) :
    Remembered (net.failConnection i connection missingPeerState) := by
  have failed : Remembered (net.modify i (fun connection => { connection with ended := true, missingPeerState })) :=
    traced.modify (fun _ => ⟨rfl,fun _ knows => knows⟩) (fun other isOther fits =>
      ⟨fits.mailbox,fun id isMissing => ⟨rfl,missing id isMissing other isOther⟩⟩)
  exact failed.sends (fun _ isError id names => (by cases isError; cases names))

theorem Remembered.says {peerStateId : PeerStateId} {info : PeerInfo} {records : A → List (RequestRecord A)} (traced : Remembered net)
    (names : info.peerStateId = some peerStateId) : Remembered (net.sendInfo i peerStateId info records) := by
  unfold NetPeers.sendInfo
  split
  · exact traced
  · next connection found =>
      split
      · next knows =>
          have sent : Remembered { net with peerInfos := net.peerInfos ++ [(connection.addr,some info)] } := by
            refine traced.sends (fun sent isSent id isId => ?_)
            obtain rfl := Option.some.inj isSent
            obtain rfl := Option.some.inj (names.symm.trans isId)
            exact ⟨i,i,Nat.le_refl _,connection,found,rfl,knows⟩
          exact ⟨sent.fits,sent.active,sent.known⟩
      · exact traced

theorem Remembered.delivers {message : InternalMessage} {mailbox : List InternalMessage} (traced : Remembered net)
    (found : net.connections[i]? = some connection) (queued : connection.mailbox = message :: mailbox) :
    Remembered ((net.modify i (fun connection => { connection with mailbox })).handleInternalMessage i connection message) := by
  have taken : Remembered (net.modify i (fun connection => { connection with mailbox })) := by
    refine traced.modify (fun _ => ⟨rfl,fun _ knows => knows⟩) (fun other isOther fits => ⟨fun later mem => ?_,fits.missing⟩)
    obtain rfl : connection = other := Option.some.inj (found.symm.trans isOther)
    exact fits.mailbox later (queued ▸ List.mem_cons_of_mem _ mem)
  unfold NetPeers.handleInternalMessage
  split
  · exact taken
  · next id names =>
      split
      · exact taken
      · next unknown =>
          refine taken.endsWith (fun id' isId other isOther => ?_)
          obtain rfl := Option.some.inj isId
          rw [NetPeers.modify,List.getElem?_modify,found,Option.map_eq_map,Option.map_some,if_pos rfl] at isOther
          obtain rfl := Option.some.inj isOther
          have origin := (traced.fits i connection found).mailbox message (queued ▸ List.mem_cons_self) id names
          exact ⟨unknown,origin.keep (keepsModify (fun _ => ⟨rfl,fun _ knows => knows⟩))⟩

theorem Remembered.answers {result : Except AncestorError Bool} {sources : List (A × PeerStateId)} (traced : Remembered net)
    (known : ∀ source ∈ sources, ∃ i, Origin net.connections i source.1 source.2) :
    Remembered (sources.foldl (NetPeers.answer m result) net) := by
  induction sources generalizing net with
  | nil => exact traced
  | cons source sources ih =>
      obtain ⟨here,later⟩ := List.forall_mem_cons.mp known
      have pushed : Remembered (net.pushInternalMessage (NetPeers.answerMessage m source.2 result) source.1) := by
        refine traced.pushes (fun id names => ?_)
        have same : source.2 = id := by
          cases result with
          | error err => cases names
          | ok found =>
              cases found with
              | false => cases names
              | true => exact Option.some.inj names
        exact same ▸ here
      have stays : Remembered (NetPeers.answer m result net source) := ⟨pushed.fits,pushed.active,pushed.known⟩
      refine ih stays (fun other mem => ?_)
      obtain ⟨i,origin⟩ := later other mem
      exact ⟨i,origin.keep pushKeeps⟩

variable [DecidableEq A]

theorem Remembered.removes (traced : Remembered net) : Remembered (net.removeActivePeer addr) := by
  unfold NetPeers.removeActivePeer
  split
  · exact traced
  · next i _ =>
      have ended : Remembered (net.modify i (fun connection => { connection with ended := true })) :=
        traced.modify (fun _ => ⟨rfl,fun _ knows => knows⟩) (fun _ _ fits => ⟨fits.mailbox,fun id isMissing =>
          ⟨rfl,(fits.missing id isMissing).2⟩⟩)
      refine ⟨ended.fits,fun other j isActive => ?_,ended.known⟩
      dsimp only at isActive
      by_cases same : other = addr
      · rw [same,Function.update_self] at isActive
        cases isActive
      · rw [Function.update_of_ne same] at isActive
        exact ended.active other j isActive

theorem Remembered.connects (traced : Remembered net) : Remembered (net.addActivePeer addr) := by
  unfold NetPeers.addActivePeer
  split
  · exact traced
  · have keeps : Keeps net.connections (net.connections ++ [⟨addr,[],[],false,none⟩]) := by
      intro j connection found
      exact ⟨connection,by rw [List.getElem?_append_left (List.getElem?_eq_some_iff.mp found).1,found],rfl,fun _ knows => knows⟩
    have back (j : Nat) (connection : PeerConnection A)
        (found : (net.connections ++ [⟨addr,[],[],false,none⟩])[j]? = some connection) :
        net.connections[j]? = some connection ∨ j = net.connections.length ∧ connection = ⟨addr,[],[],false,none⟩ := by
      rcases Nat.lt_or_ge j net.connections.length with old | new
      · rw [List.getElem?_append_left old] at found
        exact .inl found
      · rw [List.getElem?_append_right new,List.getElem?_singleton] at found
        split at found
        · cases found
          exact .inr ⟨by omega,rfl⟩
        · cases found
    refine ⟨fun j connection found => ?_,fun other k isActive => ⟨?_,fun j connection found isAddr => ?_⟩,fun other id mentions => ?_⟩
    · rcases back j connection found with old | ⟨_,rfl⟩
      · exact (traced.fits j connection old).keep keeps
      · exact ⟨fun _ mem => absurd mem List.not_mem_nil,fun _ no => (by cases no)⟩
    · dsimp only at isActive
      by_cases same : other = addr
      · subst same
        rw [Function.update_self] at isActive
        cases isActive
        exact ⟨_,by rw [List.getElem?_append_right (Nat.le_refl _),Nat.sub_self]; rfl,rfl⟩
      · rw [Function.update_of_ne same] at isActive
        obtain ⟨connection,found,isAddr⟩ := (traced.active other k isActive).1
        obtain ⟨connection',found',sameAddr,_⟩ := keeps k connection found
        exact ⟨connection',found',sameAddr.trans isAddr⟩
    · dsimp only at isActive
      by_cases same : other = addr
      · subst same
        rw [Function.update_self] at isActive
        cases isActive
        rcases back j connection found with old | ⟨rfl,_⟩
        · exact Nat.le_of_lt (List.getElem?_eq_some_iff.mp old).1
        · exact Nat.le_refl _
      · rw [Function.update_of_ne same] at isActive
        rcases back j connection found with old | ⟨_,rfl⟩
        · exact (traced.active other k isActive).2 j connection old isAddr
        · exact absurd isAddr.symm same
    · obtain ⟨j,origin⟩ := traced.known other id mentions
      exact ⟨j,origin.keep keeps⟩

theorem Remembered.informs {info : Option PeerInfo} {peerInfos : List (A × Option PeerInfo)} {notice : Option Notice}
    (traced : Remembered net) (first : net.peerInfos = (addr,info) :: peerInfos) :
    Remembered ({ net with peerInfos }.handlePeerInfo addr notice info) := by
  have rest : Remembered { net with peerInfos } := by
    refine traced.fewer (fun other id mentions => mentions.imp (fun sent => ?_) (fun later => later))
    obtain ⟨info,mem,names⟩ := sent
    exact ⟨info,first ▸ List.mem_cons_of_mem _ mem,names⟩
  have named : ∀ sent, info = some sent → ∀ id, sent.peerStateId = some id → ∃ i, Origin net.connections i addr id := by
    rintro sent rfl id names
    exact traced.known addr id (.inl ⟨sent,first ▸ List.mem_cons_self,names⟩)
  unfold NetPeers.handlePeerInfo
  split
  · exact rest.removes
  · exact rest.removes
  · next mainHash peerStateId =>
      refine ⟨rest.fits,rest.active,fun other id mentions => ?_⟩
      rcases mentions with sent | ⟨m,mem⟩ | waits
      · exact rest.known other id (.inl sent)
      · rcases List.mem_append.mp mem with earlier | here
        · exact rest.known other id (.inr (.inl ⟨m,earlier⟩))
        · cases List.mem_singleton.mp here
          exact named _ rfl _ rfl
      · exact rest.known other id (.inr (.inr waits))
  · next peerStateId =>
      split
      · exact rest
      · next notice =>
          refine rest.pushes (fun id names => named _ rfl id ?_)
          cases notice with
          | headers => exact names
          | bodiesAvailable => exact names

theorem Remembered.forwards {source : A × PeerStateId} {forwarded : List (MainHash × A × PeerStateId)} {taken : Bool}
    (traced : Remembered net) (first : net.forwarded = (m,source) :: forwarded) :
    Remembered ({ net with forwarded }.forwardRequest m source taken) := by
  have rest (addr : A) (id : PeerStateId) (mentions : Mentions { net with forwarded } addr id) : Mentions net addr id := by
    refine mentions.imp_right (fun rest => rest.imp_left (fun queued => ?_))
    obtain ⟨n,mem⟩ := queued
    exact ⟨n,first ▸ List.mem_cons_of_mem _ mem⟩
  unfold NetPeers.forwardRequest
  split
  · refine ⟨traced.fits,traced.active,fun addr id mentions => traced.known addr id ?_⟩
    rcases mentions with sent | queued | ⟨n,waits⟩
    · exact .inl sent
    · exact rest addr id (.inr (.inl queued))
    · rcases Waiters.memRegister.mp waits with before | ⟨_,same⟩
      · exact .inr (.inr ⟨n,before⟩)
      · exact .inr (.inl ⟨m,by rw [first,← same]; exact List.mem_cons_self⟩)
  · exact ⟨traced.fits,traced.active,fun addr id mentions => traced.known addr id (rest addr id mentions)⟩

theorem Remembered.step (traced : Remembered net) (step : PeersStep A) : Remembered (step.apply lib net) := by
  cases step with
  | main step => exact ⟨traced.fits,traced.active,traced.known⟩
  | connect addr => exact traced.connects
  | removeActivePeer addr => exact traced.removes
  | heartbeat i id =>
      refine traced.modify (fun connection => ?_) (fun connection found fits => ?_)
      · split
        · exact ⟨rfl,fun _ knows => knows⟩
        · exact ⟨rfl,fun _ knows => List.mem_insert_of_mem knows⟩
      · split
        · exact fits
        · next goesOn => exact ⟨fits.mailbox,fun other isMissing => absurd (fits.missing other isMissing).1 goesOn⟩
  | need i mainHash id =>
      simp only [PeersStep.apply]
      exact traced.says rfl
  | respond i id =>
      simp only [PeersStep.apply]
      exact traced.says rfl
  | fail i =>
      simp only [PeersStep.apply]
      split
      · exact traced
      · next connection found =>
          split
          · exact traced
          · exact traced.endsWith (fun _ no => (by cases no))
  | close i =>
      simp only [PeersStep.apply]
      split
      · exact traced
      · split
        · exact traced.sends (fun _ no => (by cases no))
        · exact traced
  | deliver i =>
      simp only [PeersStep.apply]
      split
      · exact traced
      · next connection found =>
          split
          · next message mailbox _ queued => exact traced.delivers found queued
          · exact traced
  | peerInfo notice =>
      simp only [PeersStep.apply]
      split
      · exact traced
      · next addr info peerInfos first => exact traced.informs first
  | forward taken =>
      simp only [PeersStep.apply]
      split
      · exact traced
      · next mainHash source forwarded first => exact traced.forwards first
  | taskEvent sources =>
      simp only [PeersStep.apply]
      split
      · exact traced
      · exact ⟨traced.fits,traced.active,traced.known⟩
      · next mainHash result first =>
          split
          · next all =>
              have known (source : A × PeerStateId) (mem : source ∈ sources) : ∃ i, Origin net.connections i source.1 source.2 :=
                traced.known source.1 source.2 (.inr (.inr ⟨mainHash,(List.isPerm_iff.mp all).mem_iff.mp mem⟩))
              have popped : Remembered { net with handled := net.handled + 1, requestSources := net.requestSources.remove mainHash } := by
                refine ⟨traced.fits,traced.active,fun addr id mentions => traced.known addr id ?_⟩
                refine mentions.imp_right (fun rest => rest.imp_right (fun waits => ?_))
                obtain ⟨m,waiting⟩ := waits
                exact ⟨m,(Waiters.memRemove.mp waiting).2⟩
              exact popped.answers known
          · exact traced

variable {steps : List (PeersStep A)}

theorem Remembered.run (traced : Remembered net) : Remembered (steps.foldl (PeersStep.apply lib) net) := by
  induction steps generalizing net with
  | nil => exact traced
  | cons step steps ih => exact ih (traced.step step)

/- A connection only misses a peer state that an earlier connection to its address has heard of. -/
theorem missedStateIsOlder (found : (runPeers lib steps).connections[i]? = some connection)
    (missing : connection.missingPeerState = some id) :
    ∃ j < i, ∃ earlier, (runPeers lib steps).connections[j]? = some earlier ∧ earlier.addr = connection.addr ∧
      id ∈ earlier.peerStates := by
  have traced : Remembered (runPeers lib steps) := Remembered.new.run
  obtain ⟨_,unknown,j,bound,earlier,isEarlier,same,knows⟩ := (traced.fits i connection found).missing id missing
  have apart : j ≠ i := by
    rintro rfl
    cases Option.some.inj (isEarlier.symm.trans found)
    exact unknown knows
  exact ⟨j,Nat.lt_of_le_of_ne bound apart,earlier,isEarlier,same,knows⟩

def backAgain : List (PeersStep Nat) :=
  [.connect 9,.heartbeat 0 7,.respond 0 7,.removeActivePeer 9,.connect 9,.peerInfo (some .headers),.deliver 1]

theorem backAgainMisses : ∃ connection, (runPeers Reference.externals backAgain).connections[1]? = some connection ∧
    ∃ j < 1, ∃ earlier, (runPeers Reference.externals backAgain).connections[j]? = some earlier ∧
      earlier.addr = connection.addr ∧ 7 ∈ earlier.peerStates :=
  ⟨⟨9,[],[],true,some 7⟩,rfl,missedStateIsOlder (i := 1) rfl rfl⟩

end Connections

end Coinshift
