import Coinshift.Invalidation
import Coinshift.NetTask
import Coinshift.PeerTips
import Coinshift.Woods

/-! The ways a sidechain block comes into a node's archive and out of it: it is submitted, a peer sends its header, it
is invalidated. Every operation commits what it has done so far when it stops.
The headers form a forest whatever the operations are; an invalidated block stays away as long as nobody submits it. -/
namespace Coinshift.NetTask
open Checked

structure MarkedDb (F : Type) extends Db F where
  invalidBlocks : HashSet

variable {F : Type}

def MarkedDb.new (F : Type) : MarkedDb F := ⟨Db.new F,∅⟩

def MarkedDb.marked (db : MarkedDb F) : Marked F := ⟨db.archive,db.invalidBlocks⟩

section Headers

inductive HeadersVerdict where
  | invalidResponse
  | missingEndHeader
  | unexpectedEndHeader
  | invalidStartHash
  | invalidEndHeight
  | nonSequentialHeaders
  | invalidatedBlockHeader
  | stored
  deriving DecidableEq, Repr

variable (lib : Externals F)

def startHeightOf (archive : Archive F) : Option BlockHash → Except ArchiveError (Option Nat)
  | some startHash => (archive.getHeight startHash).map some
  | none => pure none

def endHeightOf (startHeight : Option Nat) (count : Nat) : Nat :=
  match startHeight with
  | some startHeight => startHeight + count
  | none => count - 1

def checkSequence (marked : Marked F) : Option BlockHash → List Header → HeadersVerdict
  | _, [] => .stored
  | prevSideHash, header :: headers =>
      if header.prevSideHash ≠ prevSideHash then .nonSequentialHeaders
      else if marked.invalidatedBlock (header.hash lib) then .invalidatedBlockHeader
      else checkSequence marked (some (header.hash lib)) headers

def checkHeaders (marked : Marked F) (start : HashSet) (end_ : BlockHash) (height : Nat) (headers : List Header) :
    Except ArchiveError HeadersVerdict :=
  match headers.getLast? with
  | none => pure .missingEndHeader
  | some endHeader =>
      if endHeader.hash lib ≠ end_ then pure .unexpectedEndHeader
      else
        let startHash := headers.head?.bind (·.prevSideHash)
        if startHash.any (fun hash => (start.tryGet hash).isNone) then pure .invalidStartHash
        else do
          let startHeight ← startHeightOf marked.archive startHash
          if endHeightOf startHeight headers.length ≠ height then pure .invalidEndHeight
          else pure (checkSequence lib marked startHash headers)

/- A header whose parent is missing ends the loop. -/
def storeHeaders : Archive F → List Header → Except ArchiveError (Archive F)
  | archive, [] => pure archive
  | archive, header :: headers =>
      if (archive.headers.tryGet (header.hash lib)).isSome then storeHeaders archive headers
      else if header.prevSideHash.any (fun parent => (archive.headers.tryGet parent).isNone) then pure archive
      else do
        let archive ← archive.putHeader lib header
        storeHeaders archive headers

def handleHeaders (marked : Marked F) (request : GetHeadersRequest) (headers : List Header) :
    Except ArchiveError (Archive F × HeadersVerdict) :=
  match request.height,request.peerStateId with
  | some height,some _ => do
      let verdict ← checkHeaders lib marked request.start request.end_ height headers
      if verdict = .stored then do
        let archive ← storeHeaders lib marked.archive headers
        pure (archive,.stored)
      else pure (marked.archive,verdict)
  | _,_ => pure (marked.archive,.invalidResponse)

end Headers

section Node

variable (lib : Externals F) (ctxt : BatchVerificationContext) (prove : F → List Hash → Except Text UtreexoProof)

def disconnectTo (target : Option BlockHash) : Nat → Db F → Except NodeError (Db F)
  | 0, db => if db.state.tip = target then .ok db else .error (.archive .endless)
  | fuel + 1, db =>
      if db.state.tip = target then .ok db
      else do
        let db ← disconnectTip_ lib prove db
        disconnectTo target fuel db

def inActiveChain (db : Db F) (blockHash : BlockHash) : Except ArchiveError Bool :=
  match db.state.tip with
  | some tip => db.archive.isDescendant blockHash tip
  | none => pure false

def leaveBlock (db : Db F) (header : Header) (active : Bool) : Except NodeError (Db F) :=
  if active then disconnectTo lib prove header.prevSideHash (db.state.height.getD 0 + 2) db else pure db

def invalidateBlock (db : MarkedDb F) (blockHash : BlockHash) : Except NodeError (MarkedDb F) :=
  match db.archive.headers.tryGet blockHash with
  | none => pure db
  | some header => do
      let active ← (inActiveChain db.toDb blockHash).mapError .archive
      let reorged ← leaveBlock lib prove db.toDb header active
      let marked ← (Marked.invalidateBlock ⟨reorged.archive,db.invalidBlocks⟩ blockHash).mapError .archive
      pure ⟨{ reorged with archive := marked.archive },marked.invalidBlocks⟩

def getMissingBodies (archive : Archive F) (blockHash : BlockHash) (ancestor : Option BlockHash) :
    Except ArchiveError (List BlockHash) :=
  (archive.ancestorsUntil (fun b => some b = ancestor)
    (fun b => .ok (if archive.containsBody b then none else some b)) blockHash).map List.reverse

def missingBodiesAfter (db : Db F) (blockHash : BlockHash) : Except ArchiveError (List BlockHash) := do
  let commonAncestor ← match db.state.tip with
    | some tip => db.archive.lastCommonAncestor tip blockHash
    | none => pure none
  getMissingBodies db.archive blockHash commonAncestor

def submitTip (db : MarkedDb F) (newTip : Tip) (rpc : BlockHash → RpcReplies) : MarkedDb F × Except NodeError Bool :=
  let (reorged,result) := reorgToTip lib ctxt prove db.toDb newTip rpc
  ({ db with toDb := reorged },result)

def submitStored (db : MarkedDb F) (newTip : Tip) (body : Body) (rpc : BlockHash → RpcReplies) :
    MarkedDb F × Except NodeError Bool :=
  match db.archive.getBmmResult newTip.blockHash newTip.mainBlockHash with
  | .error err => (db,.error (.archive err))
  | .ok .failed => (db,.ok false)
  | .ok .verified =>
      match missingBodiesAfter db.toDb newTip.blockHash with
      | .error err => (db,.error (.archive err))
      | .ok missing =>
          if missing = [] then submitTip lib ctxt prove db newTip rpc
          else if missing = [newTip.blockHash] then
            match db.archive.putBody newTip.blockHash body with
            | .error err => (db,.error (.archive err))
            | .ok archive => submitTip lib ctxt prove { db with archive } newTip rpc
          else (db,.ok false)

def storesSubmitted (archive : Archive F) (header : Header) (ancestorInfos : Except NodeError Bool) :
    Except NodeError Bool :=
  if header.prevSideHash.any (fun parent => (archive.headers.tryGet parent).isNone) then pure false else ancestorInfos

def submitBlock (db : MarkedDb F) (mainBlockHash : MainHash) (header : Header) (body : Body)
    (ancestorInfos : Except NodeError Bool) (rpc : BlockHash → RpcReplies) : MarkedDb F × Except NodeError Bool :=
  match storesSubmitted db.archive header ancestorInfos with
  | .error err => (db,.error err)
  | .ok false => (db,.ok false)
  | .ok true =>
      match db.archive.putHeader lib header with
      | .error err => (db,.error (.archive err))
      | .ok archive => submitStored lib ctxt prove { db with archive } ⟨header.hash lib,mainBlockHash⟩ body rpc

end Node

section Runs

def stores : ArchiveOp → Bool
  | .putHeader _ => true
  | _ => false

/- What happens to a node: the three ways above, a reorganisation, and what else is put into the archive. -/
inductive StoreOp where
  | submitBlock (mainBlockHash : MainHash) (header : Header) (body : Body) (ancestorInfos : Except NodeError Bool)
      (rpc : BlockHash → RpcReplies)
  | headersResponse (request : GetHeadersRequest) (headers : List Header)
  | invalidateBlock (blockHash : BlockHash)
  | newTipReady (newTip : Tip) (rpc : BlockHash → RpcReplies)
  | other (op : { op : ArchiveOp // stores op = false })

variable (lib : Externals F) (ctxt : BatchVerificationContext) (prove : F → List Hash → Except Text UtreexoProof)

def StoreOp.apply (db : MarkedDb F) : StoreOp → MarkedDb F
  | .submitBlock mainBlockHash header body ancestorInfos rpc =>
      (NetTask.submitBlock lib ctxt prove db mainBlockHash header body ancestorInfos rpc).1
  | .headersResponse request headers =>
      match handleHeaders lib db.marked request headers with
      | .ok result => { db with archive := result.1 }
      | .error _ => db
  | .invalidateBlock blockHash =>
      match NetTask.invalidateBlock lib prove db blockHash with
      | .ok db => db
      | .error _ => db
  | .newTipReady newTip rpc => (submitTip lib ctxt prove db newTip rpc).1
  | .other op =>
      match op.1.apply lib db.archive with
      | .ok archive => { db with archive }
      | .error _ => db

def runStore (ops : List StoreOp) : MarkedDb F := ops.foldl (StoreOp.apply lib ctxt prove) (MarkedDb.new F)

def StoreOp.Names (world : World) : StoreOp → Prop
  | .submitBlock _ header _ _ _ => header = world.header (header.hash lib)
  | .headersResponse _ headers => ∀ header ∈ headers, header = world.header (header.hash lib)
  | .other op => op.1.Names lib world
  | _ => True

end Runs

variable {lib : Externals F} {ctxt : BatchVerificationContext} {prove : F → List Hash → Except Text UtreexoProof}
  {rpc : BlockHash → RpcReplies} {world : World} {db db' : Db F} {archive archive' start : Archive F} {header : Header}
  {b : BlockHash}

section Reorgs

theorem putHeaderHeaders (ok : archive.putHeader lib header = .ok archive') :
    archive'.headers = archive.headers.put (header.hash lib) header := by
  obtain ⟨_,_,_,_,_,_,_,_,_,_,rfl⟩ := Archive.putHeaderSource ok
  rfl

structure Carried (lib : Externals F) (world : World) (start archive : Archive F) : Prop where
  woods : archive.Woods lib world
  headers : ∀ b, archive.headers.tryGet b = start.headers.tryGet b

theorem Carried.refl (woods : archive.Woods lib world) : Carried lib world archive archive := ⟨woods,fun _ => rfl⟩

theorem Carried.putBody (carried : Carried lib world start archive) {body : Body}
    (ok : archive.putBody b body = .ok archive') : Carried lib world start archive' := by
  refine ⟨carried.woods.putBody ok,fun c => ?_⟩
  obtain ⟨_,_,rfl⟩ := Archive.putBodyFrame ok
  exact carried.headers c

theorem Carried.deleteBody (carried : Carried lib world start archive) (ok : archive.deleteBody b = .ok archive') :
    Carried lib world start archive' := by
  refine ⟨carried.woods.deleteBody ok,fun c => ?_⟩
  obtain ⟨_,rfl⟩ := Archive.disconnectQueueFrame ok
  exact carried.headers c

structure ReorgClosed (lib : Externals F) (start : Archive F) (P : Archive F → Prop) : Prop where
  putHeader : ∀ {archive archive' header}, P archive → start.headers.tryGet (header.hash lib) = some header →
    archive.putHeader lib header = .ok archive' → P archive'
  putBody : ∀ {archive archive' b body}, P archive → archive.putBody b body = .ok archive' → P archive'
  deleteBody : ∀ {archive archive' b}, P archive → archive.deleteBody b = .ok archive' → P archive'
  putAccumulator : ∀ {archive b accumulator}, P archive → P (archive.putAccumulator b accumulator)

variable {P : Archive F → Prop}

theorem ReorgClosed.connect (closed : ReorgClosed lib start P) (holds : P db.archive) {body : Body} {data : TwoWayPegData}
    {replies : RpcReplies} (stored : start.headers.tryGet (header.hash lib) = some header)
    (ok : connectTip_ lib ctxt prove db header body data replies = .ok db') : P db'.archive := by
  obtain ⟨middle,kept,put,body,isArchive⟩ := (connectTipSource ok).archive
  rw [isArchive]
  exact closed.putAccumulator (closed.putBody (closed.putHeader holds stored put) body)

theorem ReorgClosed.discarded (closed : ReorgClosed lib start P) {committed : Db F} (holds : P committed.archive)
    {err : NodeError} : P (discardBody committed b err).1.archive := by
  unfold discardBody
  split
  · exact holds
  · split
    · next deleted => exact closed.deleteBody holds deleted
    · exact holds

theorem ReorgClosed.applyBlocks (closed : ReorgClosed lib start P) {tip : Option Tip} {committed working : Db F}
    (batch : List (Hash × List BlockEvent)) {blocks : List Block}
    (stored : ∀ block ∈ blocks, start.headers.tryGet (block.1.hash lib) = some block.1)
    (holds : P committed.archive) (open_ : P working.archive) :
    P (NetTask.applyBlocks lib ctxt prove tip rpc committed working batch blocks).1.archive ∧
      ∀ last, (NetTask.applyBlocks lib ctxt prove tip rpc committed working batch blocks).2 = .ok last →
        P last.archive := by
  induction blocks generalizing committed working batch with
  | nil =>
      refine ⟨holds,fun last isLast => ?_⟩
      cases isLast
      exact open_
  | cons block blocks ih =>
      have later := fun block mem => stored block (List.mem_cons_of_mem _ mem)
      unfold NetTask.applyBlocks
      dsimp only
      split
      · exact ⟨closed.discarded holds,fun last isLast => nomatch isLast⟩
      · next next connected =>
          have continues := closed.connect open_ (stored block List.mem_cons_self) connected
          split
          · exact ⟨holds,fun last isLast => nomatch isLast⟩
          · exact ih _ later continues continues
          · exact ih _ later holds continues

theorem disconnectTipsArchive {count : Nat} (ok : disconnectTips lib prove db count = .ok db') :
    db'.archive = db.archive := by
  induction count generalizing db with
  | zero =>
      cases ok
      rfl
  | succ count ih =>
      simp only [disconnectTips,bindOk] at ok
      obtain ⟨next,first,rest⟩ := ok
      obtain ⟨_,_,source⟩ := disconnectTipSource first
      exact (ih rest).trans source.archive

theorem blocksStored {ancestor : Option BlockHash} {newTip : Tip} {blocks : List Block}
    (ok : blocksToApply archive ancestor newTip = .ok blocks) :
    ∀ block ∈ blocks, ∃ c, archive.headers.tryGet c = some block.1 := by
  have stored {c : BlockHash} {block : Block} (ok : getBlock archive c = .ok block) :
      archive.headers.tryGet c = some block.1 := by
    simp only [getBlock,Archive.getHeader,bindOk,okOrOk,pureOk] at ok
    obtain ⟨header,isStored,body,_,rfl⟩ := ok
    exact isStored
  simp only [blocksToApply,bindOk] at ok
  obtain ⟨head,isHead,ok⟩ := ok
  split at ok
  · cases ok
    intro block mem
    cases List.mem_singleton.mp mem
    exact ⟨_,stored isHead⟩
  · simp only [bindOk,pureOk] at ok
    obtain ⟨tail,isTail,rfl⟩ := ok
    intro block mem
    rcases List.mem_cons.mp mem with rfl | later
    · exact ⟨_,stored isHead⟩
    · obtain ⟨c,found⟩ := Lineage.walkUntilFrom isTail block later
      obtain ⟨block',isBlock,same⟩ := mapOk.mp found
      cases same
      exact ⟨c,stored isBlock⟩

theorem ReorgClosed.reorg (closed : ReorgClosed lib db.archive P) (tree : db.archive.SideTree lib world)
    (holds : P db.archive) {newTip : Tip} : P (reorgToTip lib ctxt prove db newTip rpc).1.archive := by
  unfold reorgToTip
  cases started : startReorg lib prove db newTip with
  | error err => exact holds
  | ok plan =>
      cases plan with
      | none => exact holds
      | some reorg =>
          obtain ⟨ancestor,head,count,source⟩ := startReorgOk started
          have open_ : P reorg.working.archive := disconnectTipsArchive source.disconnected ▸ holds
          have stored (block : Block) (mem : block ∈ reorg.blocks) :
              db.archive.headers.tryGet (block.1.hash lib) = some block.1 := by
            obtain ⟨c,found⟩ := blocksStored source.blocks block (List.mem_reverse.mpr mem)
            rw [(tree.named found).2]
            exact found
          have ends : P (NetTask.applyBlocks lib ctxt prove reorg.tip rpc db reorg.working reorg.batch reorg.blocks).1.archive ∧
              ∀ last, (NetTask.applyBlocks lib ctxt prove reorg.tip rpc db reorg.working reorg.batch reorg.blocks).2 =
                .ok last → P last.archive := closed.applyBlocks reorg.batch stored holds open_
          dsimp only
          cases applied : NetTask.applyBlocks lib ctxt prove reorg.tip rpc db reorg.working reorg.batch reorg.blocks with
          | mk committed result =>
              rw [applied] at ends
              cases result with
              | error err => exact ends.1
              | ok working =>
                  dsimp only
                  split
                  · exact ends.2 working rfl
                  · exact ends.1

theorem carriedClosed : ReorgClosed lib start (Carried lib world start) := by
  refine ⟨fun {archive archive' header} carried stored put => ?_,fun carried put => carried.putBody put,
    fun carried deleted => carried.deleteBody deleted,fun carried => ⟨carried.woods.putAccumulator,carried.headers⟩⟩
  have isStored : archive.headers.tryGet (header.hash lib) = some header := (carried.headers _).trans stored
  have names := (carried.woods.sides.named isStored).1
  refine ⟨carried.woods.putHeader names put,fun c => ?_⟩
  rw [putHeaderHeaders put,Table.tryGetPut]
  split
  · next here => rw [here,stored]
  · exact carried.headers c

theorem reorgCarried (woods : db.archive.Woods lib world) {newTip : Tip} :
    Carried lib world db.archive (reorgToTip lib ctxt prove db newTip rpc).1.archive :=
  carriedClosed.reorg woods.sides (.refl woods)

end Reorgs

section Steps

variable {store : MarkedDb F}

theorem submitTipCarried (woods : store.archive.Woods lib world) {newTip : Tip} :
    Carried lib world store.archive (submitTip lib ctxt prove store newTip rpc).1.archive ∧
      (submitTip lib ctxt prove store newTip rpc).1.invalidBlocks = store.invalidBlocks :=
  ⟨reorgCarried woods,rfl⟩

theorem Carried.trans {middle : Archive F} (first : Carried lib world start middle)
    (second : Carried lib world middle archive) : Carried lib world start archive :=
  ⟨second.woods,fun c => (second.headers c).trans (first.headers c)⟩

theorem submitStoredCarried (woods : store.archive.Woods lib world) {newTip : Tip} {body : Body} :
    Carried lib world store.archive (submitStored lib ctxt prove store newTip body rpc).1.archive ∧
      (submitStored lib ctxt prove store newTip body rpc).1.invalidBlocks = store.invalidBlocks := by
  have same : Carried lib world store.archive store.archive ∧ store.invalidBlocks = store.invalidBlocks :=
    ⟨.refl woods,rfl⟩
  unfold submitStored
  split
  · exact same
  · exact same
  · split
    · exact same
    · split
      · exact submitTipCarried woods
      · split
        · split
          · exact same
          · next archive put =>
              have stored := (Carried.refl woods).putBody put
              obtain ⟨carried,marks⟩ := @submitTipCarried F lib ctxt prove rpc world { store with archive } stored.woods newTip
              exact ⟨stored.trans carried,marks⟩
        · exact same

structure SubmitSource (lib : Externals F) (world : World) (store : MarkedDb F) (header : Header)
    (ancestorInfos : Except NodeError Bool) (store' : MarkedDb F) : Prop where
  woods : store'.archive.Woods lib world
  marks : store'.invalidBlocks = store.invalidBlocks
  headers : (∀ b, store'.archive.headers.tryGet b = store.archive.headers.tryGet b) ∨
    storesSubmitted store.archive header ancestorInfos = .ok true ∧
      ∀ b, store'.archive.headers.tryGet b = (store.archive.headers.put (header.hash lib) header).tryGet b

theorem submitSource (woods : store.archive.Woods lib world) {mainBlockHash : MainHash} {body : Body}
    {ancestorInfos : Except NodeError Bool} (names : header = world.header (header.hash lib)) :
    SubmitSource lib world store header ancestorInfos
      (submitBlock lib ctxt prove store mainBlockHash header body ancestorInfos rpc).1 := by
  have same : SubmitSource lib world store header ancestorInfos store := ⟨woods,rfl,.inl (fun _ => rfl)⟩
  unfold submitBlock
  split
  · exact same
  · exact same
  · next stores =>
      split
      · exact same
      · next archive put =>
          obtain ⟨carried,marks⟩ := @submitStoredCarried F lib ctxt prove rpc world { store with archive }
            (woods.putHeader names put) ⟨header.hash lib,mainBlockHash⟩ body
          refine ⟨carried.woods,marks,.inr ⟨stores,fun b => ?_⟩⟩
          rw [carried.headers b,putHeaderHeaders put]

theorem storeHeadersKeeps {headers : List Header} (woods : archive.Woods lib world)
    (names : ∀ header ∈ headers, header = world.header (header.hash lib))
    (ok : storeHeaders lib archive headers = .ok archive') :
    archive'.Woods lib world ∧ ∀ b, archive'.headers.tryGet b = archive.headers.tryGet b ∨
      ∃ header ∈ headers, header.hash lib = b := by
  induction headers generalizing archive with
  | nil =>
      cases ok
      exact ⟨woods,fun b => .inl rfl⟩
  | cons header headers ih =>
      have later := fun next mem => names next (List.mem_cons_of_mem _ mem)
      have widen {archive : Archive F} (holds : ∀ b, archive'.headers.tryGet b = archive.headers.tryGet b ∨
          ∃ next ∈ headers, next.hash lib = b) (b : BlockHash) : archive'.headers.tryGet b = archive.headers.tryGet b ∨
            ∃ next ∈ header :: headers, next.hash lib = b :=
        (holds b).imp_right (fun ⟨next,mem,isHash⟩ => ⟨next,List.mem_cons_of_mem _ mem,isHash⟩)
      unfold storeHeaders at ok
      split at ok
      · obtain ⟨woods',rest⟩ := ih woods later ok
        exact ⟨woods',widen rest⟩
      · split at ok
        · cases ok
          exact ⟨woods,fun b => .inl rfl⟩
        · simp only [bindOk] at ok
          obtain ⟨middle,put,ok⟩ := ok
          obtain ⟨woods',rest⟩ := ih (woods.putHeader (names header List.mem_cons_self) put) later ok
          refine ⟨woods',fun b => ?_⟩
          rcases widen rest b with same | isNew
          · rw [putHeaderHeaders put,Table.tryGetPut] at same
            split at same
            · next here => exact .inr ⟨header,List.mem_cons_self,here.symm⟩
            · exact .inl same
          · exact .inr isNew

theorem checkSequenceValid {marked : Marked F} {headers : List Header} {previous : Option BlockHash}
    (checked : checkSequence lib marked previous headers = .stored) :
    ∀ header ∈ headers, marked.invalidatedBlock (header.hash lib) = false := by
  induction headers generalizing previous with
  | nil => exact fun _ mem => nomatch mem
  | cons header headers ih =>
      unfold checkSequence at checked
      split at checked
      · cases checked
      · split at checked
        · cases checked
        · next valid =>
            intro next mem
            rcases List.mem_cons.mp mem with rfl | later
            · exact Bool.eq_false_iff.mpr valid
            · exact ih checked next later

theorem checkHeadersSequence {marked : Marked F} {start : HashSet} {end_ : BlockHash} {height : Nat} {headers : List Header}
    (checked : checkHeaders lib marked start end_ height headers = .ok .stored) :
    checkSequence lib marked (headers.head?.bind (·.prevSideHash)) headers = .stored := by
  unfold checkHeaders at checked
  split at checked
  · cases checked
  · split at checked
    · cases checked
    · dsimp only at checked
      split at checked
      · cases checked
      · simp only [bindOk] at checked
        obtain ⟨_,_,checked⟩ := checked
        split at checked
        · cases checked
        · exact pureOk.mp checked

theorem handleHeadersKeeps {request : GetHeadersRequest} {headers : List Header} {result : Archive F × HeadersVerdict}
    (woods : store.archive.Woods lib world) (names : ∀ header ∈ headers, header = world.header (header.hash lib))
    (ok : handleHeaders lib store.marked request headers = .ok result) :
    result.1.Woods lib world ∧ ∀ b, result.1.headers.tryGet b = store.archive.headers.tryGet b ∨
      store.marked.invalidatedBlock b = false := by
  have same : store.archive.Woods lib world ∧ ∀ b, store.archive.headers.tryGet b = store.archive.headers.tryGet b ∨
    store.marked.invalidatedBlock b = false := ⟨woods,fun b => .inl rfl⟩
  unfold handleHeaders at ok
  split at ok
  · simp only [bindOk] at ok
    obtain ⟨verdict,checked,ok⟩ := ok
    split at ok
    · next isStored =>
        simp only [bindOk,pureOk] at ok
        obtain ⟨archive',stored,rfl⟩ := ok
        subst isStored
        have valid := checkSequenceValid (checkHeadersSequence checked)
        obtain ⟨woods',each⟩ := storeHeadersKeeps woods names stored
        refine ⟨woods',fun b => (each b).imp_right ?_⟩
        rintro ⟨header,mem,rfl⟩
        exact valid header mem
    · cases ok
      exact same
  · cases ok
    exact same

theorem disconnectToArchive {target : Option BlockHash} {fuel : Nat} (ok : disconnectTo lib prove target fuel db = .ok db') :
    db'.archive = db.archive := by
  induction fuel generalizing db with
  | zero =>
      unfold disconnectTo at ok
      split at ok
      · cases ok
        rfl
      · cases ok
  | succ fuel ih =>
      unfold disconnectTo at ok
      split at ok
      · cases ok
        rfl
      · simp only [bindOk] at ok
        obtain ⟨next,first,rest⟩ := ok
        obtain ⟨_,_,source⟩ := disconnectTipSource first
        exact (ih rest).trans source.archive

def tipsLeft (db : Db F) : Nat :=
  match db.state.tip with
  | some _ => db.state.height.getD 0 + 2
  | none => 1

theorem disconnectLeft {state last : State F} (ok : disconnectTip lib state header body = .ok last) :
    tipsLeft { db with state := last } + 1 ≤ tipsLeft { db with state } := by
  simp only [disconnectTip,bindOk,okOrOk,pureOk] at ok
  obtain ⟨tip,isTip,_,_,_,_,_,_,height,isHeight,previous,isPrevious,_,_,rfl⟩ := ok
  rw [tipsLeft,tipsLeft,isTip,isHeight]
  unfold previousTip at isPrevious
  split at isPrevious
  · cases isPrevious
    exact Nat.le_refl _
  · cases isPrevious
  · cases isPrevious
  · cases isPrevious
    exact Nat.le_refl _

theorem disconnectTipLeft (ok : disconnectTip_ lib prove db = .ok db') : tipsLeft db' + 1 ≤ tipsLeft db := by
  obtain ⟨header,body,source⟩ := disconnectTipSource ok
  obtain ⟨height,data,middle,last,accumulator,_,_,pegs,block,_,isState⟩ := source.state
  have peg := disconnectPegSource pegs
  calc
    tipsLeft db' + 1 = tipsLeft { db with state := last } + 1 := by
      rw [tipsLeft,tipsLeft,isState]
    _ ≤ tipsLeft { db with state := middle } := disconnectLeft block
    _ = tipsLeft db := by
      rw [tipsLeft,tipsLeft,peg.tip,peg.height]

/- Rounds beyond those allowed for change nothing. -/
theorem disconnectToEnough {target : Option BlockHash} {fuel fuel' : Nat} (enough : tipsLeft db ≤ fuel) (more : fuel ≤ fuel') :
    disconnectTo lib prove target fuel db = disconnectTo lib prove target fuel' db := by
  induction fuel generalizing db fuel' with
  | zero =>
      unfold tipsLeft at enough
      split at enough <;> cases enough
  | succ fuel ih =>
      obtain ⟨fuel',rfl⟩ := Nat.exists_eq_add_of_le' (Nat.lt_of_lt_of_le (Nat.succ_pos fuel) more)
      simp only [disconnectTo]
      split
      · rfl
      · cases done : disconnectTip_ lib prove db with
        | error err => rfl
        | ok db' =>
            have left := disconnectTipLeft done
            exact ih (by omega) (Nat.le_of_succ_le_succ more)

theorem invalidateSource {store' : MarkedDb F} (woods : store.archive.Woods lib world)
    (ok : invalidateBlock lib prove store b = .ok store') :
    store.archive.headers.tryGet b = none ∧ store' = store ∨
      (store.archive.headers.tryGet b).isSome = true ∧ Marked.Pruning store.marked b store'.marked [] := by
  unfold invalidateBlock at ok
  split at ok
  · next missing =>
      cases ok
      exact .inl ⟨missing,rfl⟩
  · next header stored =>
      simp only [bindOk,mapErrorOk,pureOk] at ok
      obtain ⟨active,_,reorged,isReorged,marked,invalidated,rfl⟩ := ok
      have isSame : reorged.archive = store.archive := by
        unfold leaveBlock at isReorged
        split at isReorged
        · exact disconnectToArchive isReorged
        · cases isReorged
          rfl
      rw [isSame] at invalidated
      exact .inr ⟨by rw [stored]; rfl,Marked.invalidatePrunes woods.sides invalidated⟩

end Steps

section Forest

theorem StoreOp.woods {store : MarkedDb F} {op : StoreOp} (names : op.Names lib world)
    (woods : store.archive.Woods lib world) : (op.apply lib ctxt prove store).archive.Woods lib world := by
  cases op with
  | submitBlock mainBlockHash header body ancestorInfos rpc => exact (submitSource woods names).woods
  | headersResponse request headers =>
      simp only [StoreOp.apply]
      cases handled : handleHeaders lib store.marked request headers with
      | error err => exact woods
      | ok result => exact (handleHeadersKeeps woods names handled).1
  | invalidateBlock b =>
      simp only [StoreOp.apply]
      cases invalidated : NetTask.invalidateBlock lib prove store b with
      | error err => exact woods
      | ok store' =>
          rcases invalidateSource woods invalidated with ⟨_,rfl⟩ | ⟨_,pruning⟩
          · exact woods
          · exact pruning.woods woods
  | newTipReady newTip rpc => exact (submitTipCarried woods).1.woods
  | other op =>
      simp only [StoreOp.apply]
      cases applied : op.1.apply lib store.archive with
      | error err => exact woods
      | ok archive => exact woods.step names applied

theorem runWoods {ops : List StoreOp} (names : ∀ op ∈ ops, op.Names lib world) :
    (runStore lib ctxt prove ops).archive.Woods lib world := by
  unfold runStore
  refine foldlPrefix (P := fun store : MarkedDb F => store.archive.Woods lib world) .new (fun before op after split woods => ?_)
  exact StoreOp.woods (names op (split ▸ List.mem_append_right before List.mem_cons_self)) woods

/- A block is submitted that was invalidated, and its header goes to the archive. -/
def StoreOp.StoresInvalid (lib : Externals F) (store : MarkedDb F) : StoreOp → Prop
  | .submitBlock _ header _ ancestorInfos _ => store.marked.invalidatedBlock (header.hash lib) = true ∧
      storesSubmitted store.archive header ancestorInfos = .ok true
  | _ => False

theorem otherHeaders {op : ArchiveOp} (apart : stores op = false) (ok : op.apply lib archive = .ok archive') :
    archive'.headers = archive.headers := by
  have tables {m : MainHash} {blockInfo : BlockInfo} {archive archive' : Archive F}
      (ok : archive.putMainBlockInfo m blockInfo = .ok archive') : archive'.headers = archive.headers := by
    obtain ⟨_,_,_,⟨_,rfl⟩ | ⟨_,_,_,_,_,_,rfl⟩⟩ := Archive.putMainInfoSource ok <;> rfl
  have mains {info : BlockHeaderInfo} {archive archive' : Archive F} (ok : archive.putMainHeaderInfo info = .ok archive') :
      archive'.headers = archive.headers := by
    obtain ⟨_,_,_,_,_,_,_,_,_,rfl⟩ := Archive.putMainHeaderSource ok
    rfl
  cases op with
  | handleBlockEvent event =>
      cases event with
      | connectBlock info blockInfo =>
          obtain ⟨first,second,_,_,header,contents,_,_,rfl⟩ := Archive.connectEventSource ok
          exact (tables contents).trans (mains header)
      | disconnectBlock m =>
          obtain ⟨_,_,_,_,_,_,_,_,rfl⟩ := Archive.disconnectEventSource ok
          rfl
  | putMainHeaderInfo info => exact mains ok
  | putMainBlockInfo m blockInfo => exact tables ok
  | putHeader header => cases apart
  | putBody b body =>
      obtain ⟨_,_,rfl⟩ := Archive.putBodyFrame ok
      rfl
  | deleteBody b =>
      obtain ⟨_,rfl⟩ := Archive.disconnectQueueFrame ok
      rfl

theorem apartStays {marked marked' : Marked F} (apart : marked.Apart) (marks : marked'.invalidBlocks = marked.invalidBlocks)
    (headers : ∀ b, marked'.archive.headers.tryGet b = marked.archive.headers.tryGet b ∨
      marked.invalidatedBlock b = false) : marked'.Apart := by
  intro b isMarked
  have before : marked.invalidatedBlock b = true := by
    rw [Marked.invalidatedBlock,← marks]
    exact isMarked
  rcases headers b with same | unmarked
  · exact same.trans (apart b before)
  · cases unmarked.symm.trans before

theorem StoreOp.apart {store : MarkedDb F} {op : StoreOp} (names : op.Names lib world)
    (woods : store.archive.Woods lib world) (valid : ¬ op.StoresInvalid lib store) (apart : store.marked.Apart) :
    (op.apply lib ctxt prove store).marked.Apart := by
  cases op with
  | submitBlock mainBlockHash header body ancestorInfos rpc =>
      obtain ⟨_,marks,headers⟩ : SubmitSource lib world store header ancestorInfos
        ((StoreOp.submitBlock mainBlockHash header body ancestorInfos rpc).apply lib ctxt prove store) :=
          submitSource woods names
      refine apartStays apart marks (fun b => ?_)
      rcases headers with same | ⟨stored,put⟩
      · exact .inl (same b)
      · by_cases here : b = header.hash lib
        · refine .inr (Bool.eq_false_iff.mpr (fun isMarked => valid ⟨here ▸ isMarked,stored⟩))
        · exact .inl ((put b).trans (Table.tryGetPutOther here))
  | headersResponse request headers =>
      simp only [StoreOp.apply]
      cases handled : handleHeaders lib store.marked request headers with
      | error err => exact apart
      | ok result => exact apartStays apart rfl (handleHeadersKeeps woods names handled).2
  | invalidateBlock b =>
      simp only [StoreOp.apply]
      cases invalidated : NetTask.invalidateBlock lib prove store b with
      | error err => exact apart
      | ok store' =>
          rcases invalidateSource woods invalidated with ⟨_,rfl⟩ | ⟨_,pruning⟩
          · exact apart
          · exact pruning.apart apart
  | newTipReady newTip rpc =>
      obtain ⟨carried,marks⟩ : Carried lib world store.archive
            ((StoreOp.newTipReady newTip rpc).apply lib ctxt prove store).archive ∧
          ((StoreOp.newTipReady newTip rpc).apply lib ctxt prove store).invalidBlocks = store.invalidBlocks :=
        submitTipCarried woods
      exact apartStays apart marks (fun b => .inl (carried.headers b))
  | other op =>
      simp only [StoreOp.apply]
      cases applied : op.1.apply lib store.archive with
      | error err => exact apart
      | ok archive => exact apartStays apart rfl (fun b => .inl (by
          rw [MarkedDb.marked,MarkedDb.marked,otherHeaders op.2 applied]))

structure HeaderForest (archive : Archive F) : Prop where
  closed : ∀ {b header p}, archive.headers.tryGet b = some header → header.prevSideHash = some p →
    (archive.headers.tryGet p).isSome = true
  heights : ∀ b, (archive.blockHashToHeight.tryGet b).isSome = (archive.headers.tryGet b).isSome
  first : ∀ {b header}, archive.headers.tryGet b = some header → header.prevSideHash = none →
    archive.blockHashToHeight.tryGet b = some 0
  next : ∀ {b header p}, archive.headers.tryGet b = some header → header.prevSideHash = some p →
    ∃ h, archive.blockHashToHeight.tryGet p = some h ∧ archive.blockHashToHeight.tryGet b = some (h + 1)
  successors : ∀ k b, (∃ set, archive.successors.tryGet k = some set ∧ b ∈ HashSet.items set) ↔
    ∃ header, archive.headers.tryGet b = some header ∧ header.prevSideHash = k

theorem sideForest (tree : archive.SideTree lib world) : HeaderForest archive := by
  have next {b p : BlockHash} {header : Header} (stored : archive.headers.tryGet b = some header)
      (isParent : header.prevSideHash = some p) : ∃ h, archive.blockHashToHeight.tryGet p = some h ∧
        archive.blockHashToHeight.tryGet b = some (h + 1) := by
    obtain ⟨n,known,count⟩ := tree.heights.counted stored
    rcases Archive.sideCounts count with ⟨first,_⟩ | ⟨q,h,isChild,parentKnown,rfl⟩
    · cases first.symm.trans isParent
    · cases isChild.symm.trans isParent
      exact ⟨h,parentKnown,known⟩
  have closed {b p : BlockHash} {header : Header} (stored : archive.headers.tryGet b = some header)
      (isParent : header.prevSideHash = some p) : (archive.headers.tryGet p).isSome = true := by
    obtain ⟨h,known,_⟩ := next stored isParent
    obtain ⟨parent,isStored⟩ := tree.heights.only known
    exact Option.isSome_iff_exists.mpr ⟨parent,isStored⟩
  refine ⟨closed,fun b => ?_,fun stored isFirst => ?_,next,fun k b => ⟨?_,?_⟩⟩
  · refine Bool.eq_iff_iff.mpr ⟨fun known => ?_,fun stored => ?_⟩
    · obtain ⟨h,isHeight⟩ := Option.isSome_iff_exists.mp known
      exact Option.isSome_iff_exists.mpr (tree.heights.only isHeight)
    · obtain ⟨header,isStored⟩ := Option.isSome_iff_exists.mp stored
      obtain ⟨h,known,_⟩ := tree.heights.counted isStored
      exact Option.isSome_iff_exists.mpr ⟨h,known⟩
  · obtain ⟨n,known,count⟩ := tree.heights.counted stored
    rcases Archive.sideCounts count with ⟨_,rfl⟩ | ⟨q,h,isChild,_⟩
    · exact known
    · cases isFirst.symm.trans isChild
  · rintro ⟨set,found,mem⟩
    exact Option.map_eq_some_iff.mp ((tree.follows k set b found).mp (Archive.itemsMem.mp mem))
  · rintro ⟨header,stored,rfl⟩
    obtain ⟨set,found⟩ := Option.isSome_iff_exists.mp (@Archive.SideTree.followed _ _ _ _ tree header.prevSideHash
      (fun p isParent => closed stored isParent))
    refine ⟨set,found,Archive.itemsMem.mpr ((tree.follows _ set b found).mpr ?_)⟩
    exact Option.map_eq_some_iff.mpr ⟨header,stored,rfl⟩

inductive Under (world : World) (b : BlockHash) : BlockHash → Prop
  | self : Under world b b
  | child {p c : BlockHash} (above : Under world b p) (isParent : (world.header c).prevSideHash = some p) : Under world b c

def InvalidAway (world : World) (store : MarkedDb F) : Prop :=
  ∀ b c, store.marked.invalidatedBlock b = true → Under world b c →
    store.archive.headers.tryGet c = none ∧ store.archive.bodies.tryGet c = none

theorem invalidAway {store : MarkedDb F} (tree : store.archive.SideTree lib world) (apart : store.marked.Apart) :
    InvalidAway world store := by
  intro b c isMarked under
  have missing : store.archive.headers.tryGet c = none := by
    induction under with
    | self => exact apart b isMarked
    | @child p c above isParent ih =>
        cases found : store.archive.headers.tryGet c with
        | none => rfl
        | some header =>
            have isPrev : header.prevSideHash = some p := by rw [(tree.named found).1,isParent]
            have parentStored := (sideForest tree).closed found isPrev
            rw [ih] at parentStored
            cases parentStored
  refine ⟨missing,?_⟩
  cases found : store.archive.bodies.tryGet c with
  | none => rfl
  | some body =>
      have stored := tree.bodies (b := c) (by rw [found]; rfl)
      rw [missing] at stored
      cases stored

theorem runApart {ops : List StoreOp} (names : ∀ op ∈ ops, op.Names lib world)
    (valid : ∀ before op after, ops = before ++ op :: after → ¬ op.StoresInvalid lib (runStore lib ctxt prove before)) :
    (runStore lib ctxt prove ops).marked.Apart := by
  induction ops using List.reverseRecOn with
  | nil =>
      intro b isMarked
      exact Table.tryGetEmpty
  | append_singleton ops op ih =>
      have earlier : ∀ op ∈ ops, op.Names lib world := fun other mem => names other (by simp [mem])
      have apart := ih earlier (fun before other after split => valid before other (after ++ [op]) (by simp [split]))
      have last : (op.apply lib ctxt prove (runStore lib ctxt prove ops)).marked.Apart :=
        StoreOp.apart (names op (by simp)) (runWoods earlier) (valid ops op [] rfl) apart
      rw [runStore,List.foldl_append]
      exact last

theorem headerStoreKept {ops : List StoreOp} (names : ∀ op ∈ ops, op.Names lib world)
    (valid : ∀ before op after, ops = before ++ op :: after → ¬ op.StoresInvalid lib (runStore lib ctxt prove before)) :
    HeaderForest (runStore lib ctxt prove ops).archive ∧ InvalidAway world (runStore lib ctxt prove ops) := by
  have tree : (runStore lib ctxt prove ops).archive.SideTree lib world := (runWoods names).sides
  exact ⟨sideForest tree,invalidAway tree (runApart names valid)⟩

end Forest

section Resubmitted

open Reference Archive

/- A block is submitted for a main-chain block that does not commit to it: its header stays. -/
def submitGenesis : StoreOp := .submitBlock 2 forkGenesis ⟨[],[],[]⟩ (.ok true) (fun _ _ => none)

def submittedOps : List StoreOp :=
  [.other ⟨.putMainHeaderInfo ⟨1,0,0,1⟩,rfl⟩,.other ⟨.putMainBlockInfo 1 ⟨none,[]⟩,rfl⟩,
    .other ⟨.putMainHeaderInfo ⟨2,1,1,1⟩,rfl⟩,.other ⟨.putMainBlockInfo 2 ⟨none,[]⟩,rfl⟩,submitGenesis,
    .invalidateBlock (forkGenesis.hash externals)]

def submittedWorld : World where
  header _ := forkGenesis
  mainHeader m := if m = 1 then ⟨1,0,0,1⟩ else ⟨2,1,1,1⟩
  mainInfo _ := ⟨none,[]⟩

def noProof (_ : Forest) (_ : List Hash) : Except Text UtreexoProof := .error []

instance {op : StoreOp} : Decidable (op.Names externals world) :=
  match op with
  | .submitBlock _ header _ _ _ => inferInstanceAs (Decidable (header = world.header (header.hash externals)))
  | .headersResponse _ headers =>
      inferInstanceAs (Decidable (∀ header ∈ headers, header = world.header (header.hash externals)))
  | .other op => inferInstanceAs (Decidable (op.1.Names externals world))
  | .invalidateBlock _ | .newTipReady _ _ => isTrue trivial

theorem submittedNames : ∀ op ∈ submittedOps ++ [submitGenesis], op.Names externals submittedWorld := by decide +kernel

/- Submitted once more, the invalidated block is stored. -/
theorem invalidatedComesBack : ∃ world : World,
    (∀ op ∈ submittedOps ++ [submitGenesis], op.Names externals world) ∧
    ¬ InvalidAway world (runStore externals context noProof (submittedOps ++ [submitGenesis])) := by
  have checked : (runStore externals context noProof (submittedOps ++ [submitGenesis])).marked.invalidatedBlock
        (forkGenesis.hash externals) = true ∧
      ((runStore externals context noProof (submittedOps ++ [submitGenesis])).archive.headers.tryGet
        (forkGenesis.hash externals)).isSome = true := by decide +kernel
  refine ⟨submittedWorld,submittedNames,fun away => ?_⟩
  have missing := (away _ _ checked.1 .self).1
  rw [missing] at checked
  cases checked.2

def validCheck (ops : List StoreOp) : Bool :=
  (List.range ops.length).all (fun i =>
    match ops[i]? with
    | some (.submitBlock _ header _ _ _) =>
        (runStore externals context noProof (ops.take i)).marked.invalidatedBlock (header.hash externals) = false
    | _ => true)

theorem validCheckSound {ops : List StoreOp} (checked : validCheck ops = true) (before : List StoreOp) (op : StoreOp)
    (after : List StoreOp) (split : ops = before ++ op :: after) :
    ¬ op.StoresInvalid externals (runStore externals context noProof before) := by
  have here := List.all_eq_true.mp checked before.length (by simp [split])
  have taken : ops.take before.length = before := by simp [split]
  have found : ops[before.length]? = some op := by simp [split]
  rw [taken,found] at here
  cases op with
  | submitBlock mainBlockHash header body ancestorInfos rpc =>
      rintro ⟨isMarked,_⟩
      cases (of_decide_eq_true here).symm.trans isMarked
  | headersResponse => exact id
  | invalidateBlock => exact id
  | newTipReady => exact id
  | other => exact id

theorem invalidatedStaysAway : HeaderForest (runStore externals context noProof submittedOps).archive ∧
    InvalidAway submittedWorld (runStore externals context noProof submittedOps) := by
  have checked : validCheck submittedOps = true := by decide +kernel
  exact headerStoreKept (fun op mem => submittedNames op (List.mem_append_left _ mem)) (validCheckSound checked)

end Resubmitted

end Coinshift.NetTask
