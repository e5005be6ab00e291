import Coinshift.ActiveChain

/-! The bodies of the active chain.
A body that a peer sends is stored whether or not its block is connected, and a reorganisation to a connected block
deletes the body of the first block. Nothing else replaces the body with which a block was connected. -/
namespace Coinshift.NetTask
open Checked Lineage Archive

variable {F : Type} {lib : Externals F} {ctxt : BatchVerificationContext}
  {prove : F → List Hash → Except Text UtreexoProof} {rpc : BlockHash → RpcReplies} {world : World}
  {db db' : Db F} {archive archive' : Archive F} {newTip : Tip} {header : Header} {body : Body} {b : BlockHash}

section Steps

def storesBody : ArchiveOp → Bool
  | .putBody _ _ | .deleteBody _ => true
  | _ => false

inductive BodyStep where
  | connectTip_ (header : Header) (body : Body) (twoWayPegData : TwoWayPegData) (rpc : RpcReplies)
  | disconnectTip_
  | reorgToTip (newTip : Tip) (rpc : BlockHash → RpcReplies)
  | submitBlock (mainBlockHash : MainHash) (header : Header) (body : Body) (ancestorInfos : Except NodeError Bool)
      (rpc : BlockHash → RpcReplies)
  | blockResponse (blockHash : BlockHash) (header : Header) (body : Body)
  | other (op : { op : ArchiveOp // storesBody op = false })

variable (lib : Externals F) (ctxt : BatchVerificationContext) (prove : F → List Hash → Except Text UtreexoProof)

/- An operation that fails leaves what it has committed. -/
def BodyStep.apply (db : Db F) : BodyStep → Db F
  | .connectTip_ header body twoWayPegData rpc =>
      (NetTask.connectTip_ lib ctxt prove db header body twoWayPegData rpc).toOption.getD db
  | .disconnectTip_ => (NetTask.disconnectTip_ lib prove db).toOption.getD db
  | .reorgToTip newTip rpc => (NetTask.reorgToTip lib ctxt prove db newTip rpc).1
  | .submitBlock mainBlockHash header body ancestorInfos rpc =>
      (NetTask.submitBlock lib ctxt prove ⟨db,∅⟩ mainBlockHash header body ancestorInfos rpc).1.toDb
  | .blockResponse blockHash header body => handleBlockResponse lib db blockHash header body
  | .other op =>
      match op.1.apply lib db.archive with
      | .ok archive => { db with archive }
      | .error _ => db

def runBodies (steps : List BodyStep) : Db F := steps.foldl (BodyStep.apply lib ctxt prove) (Db.new F)

def BodyStep.Names (world : World) : BodyStep → Prop
  | .connectTip_ header _ _ _ | .submitBlock _ header _ _ _ => header = world.header (header.hash lib)
  | .other op => op.1.Names lib world
  | _ => True

def ConnectedAs (connected : List Connected) (b : BlockHash) : Prop := b ∈ connected.map (·.header.hash lib)

/- No peer sends another body for a connected block, and no connected block is preferred to the tip. -/
def BodyStep.KeepsBodies (db : Db F) : BodyStep → Prop
  | .reorgToTip newTip _ => ConnectedAs lib db.connected newTip.blockHash → ¬ Preferred db newTip
  | .submitBlock mainBlockHash header _ _ _ => ConnectedAs lib db.connected (header.hash lib) →
      ∀ archive, db.archive.putHeader lib header = .ok archive →
        ¬ Preferred { db with archive } ⟨header.hash lib,mainBlockHash⟩
  | .blockResponse blockHash header body => header.hash lib = blockHash →
      ∀ c ∈ db.connected, c.header.hash lib = blockHash → body = c.body
  | _ => True

end Steps

section Kept

def BodiesConnected (lib : Externals F) (db : Db F) : Prop :=
  ∀ c ∈ db.connected, db.archive.bodies.tryGet (c.header.hash lib) = some c.body

structure Bodied (lib : Externals F) (world : World) (db : Db F) : Prop extends Active lib world db where
  bodies : BodiesConnected lib db

theorem Bodied.learn (bodied : Bodied lib world db) (trees : archive.Trees lib world) (grown : db.archive.Grown archive)
    (same : ∀ c ∈ db.connected, archive.bodies.tryGet (c.header.hash lib) = db.archive.bodies.tryGet (c.header.hash lib)) :
    Bodied lib world { db with archive } :=
  ⟨bodied.toActive.learn trees grown,fun c mem => (same c mem).trans (bodied.bodies c mem)⟩

theorem Bodied.connect {data : TwoWayPegData} {replies : RpcReplies} (bodied : Bodied lib world db)
    (names : header = world.header (header.hash lib)) (source : ConnectTipSource lib ctxt db header body data replies db') :
    Bodied lib world db' := by
  obtain ⟨active,_⟩ := bodied.toActive.connect names source
  refine ⟨active,fun c mem => ?_⟩
  have distinct := active.walk.nodup
  rw [source.connected] at mem distinct
  rw [List.map_cons,List.nodup_cons] at distinct
  rw [source.bodies]
  rcases List.mem_cons.mp mem with rfl | earlier
  · exact Table.tryGetPutSelf
  · have other : c.header.hash lib ≠ header.hash lib := by
      intro same
      exact distinct.1 (List.mem_map.mpr ⟨c,earlier,same⟩)
    rw [Table.tryGetPutOther other]
    exact bodied.bodies c earlier

theorem Bodied.disconnect (bodied : Bodied lib world db) (done : disconnectTip_ lib prove db = .ok db') :
    ∃ c below, db.connected = c :: below ∧ db'.connected = below ∧ DisconnectTipSource lib db c.header c.body db' ∧
      Bodied lib world db' := by
  obtain ⟨c,below,body,isTop,isBelow,source,active⟩ := bodied.toActive.disconnect done
  have inside : c ∈ db.connected := by
    rw [isTop]
    exact List.mem_cons_self
  obtain ⟨tip,isTip,_,isBody⟩ := source.stored
  cases isTip.symm.trans (bodied.toActive.tipStored isTop).1
  cases isBody.symm.trans (bodied.bodies c inside)
  refine ⟨c,below,isTop,isBelow,source,active,fun d mem => ?_⟩
  rw [source.archive]
  exact bodied.bodies d (by rw [isTop]; exact List.mem_cons_of_mem c (isBelow ▸ mem))

theorem Bodied.disconnects {count : Nat} (bodied : Bodied lib world db) (done : disconnectTips lib prove db count = .ok db') :
    Bodied lib world db' ∧ db'.connected <:+ db.connected := by
  obtain ⟨active,isSuffix⟩ := bodied.toActive.disconnects done
  refine ⟨⟨active,fun c mem => ?_⟩,isSuffix⟩
  rw [disconnectTipsArchive done]
  exact bodied.bodies c (isSuffix.subset mem)

end Kept

section Reorg

variable {committed working later : Db F} {batch : List (Hash × List BlockEvent)} {block : Block} {blocks : List Block}

structure Rebodied (lib : Externals F) (world : World) (committed working : Db F) (blocks : List Block) : Prop where
  stays : Bodied lib world committed
  goesOn : Bodied lib world working
  names : ∀ block ∈ blocks, block.1 = world.header (block.1.hash lib)
  distinct : (blocks.map (·.1.hash lib)).Nodup
  notCommitted : ∀ block ∈ blocks, ¬ ConnectedAs lib committed.connected (block.1.hash lib)
  notWorking : ∀ block ∈ blocks, ¬ ConnectedAs lib working.connected (block.1.hash lib)

theorem Rebodied.connect (round : Rebodied lib world committed working (block :: blocks))
    (done : connectRound lib ctxt prove rpc working batch block = .ok later) : Rebodied lib world committed later blocks := by
  have source := connectTipSource done
  obtain ⟨isFirst,distinct⟩ := List.nodup_cons.mp round.distinct
  refine ⟨round.stays,round.goesOn.connect (round.names block List.mem_cons_self) source,
    fun next mem => round.names next (List.mem_cons_of_mem _ mem),distinct,
    fun next mem => round.notCommitted next (List.mem_cons_of_mem _ mem),fun next mem isConnected => ?_⟩
  rw [ConnectedAs,source.connected] at isConnected
  rcases List.mem_cons.mp isConnected with same | earlier
  · exact isFirst (same ▸ List.mem_map_of_mem mem)
  · exact round.notWorking next (List.mem_cons_of_mem _ mem) earlier

theorem Bodied.discard (bodied : Bodied lib world committed) (apart : ¬ ConnectedAs lib committed.connected b)
    {err : NodeError} : Bodied lib world (discardBody committed b err).1 := by
  unfold discardBody
  split
  · exact bodied
  · split
    · next archive deleted =>
        have trees := bodied.trees.deleteBody deleted
        obtain ⟨tips,rfl⟩ := disconnectQueueFrame deleted
        refine bodied.learn trees .bodies (fun c mem => Table.tryGetDeleteOther (fun same => apart ?_))
        rw [← same]
        exact List.mem_map_of_mem mem
    · exact bodied

theorem rebodiedRule : LoopRule lib ctxt prove rpc (fun committed working _ blocks => Rebodied lib world committed working blocks)
    (Bodied lib world) where
  connect := fun round done => round.connect done
  commit := fun round => ⟨round.goesOn,round.goesOn,round.names,round.distinct,round.notWorking,round.notWorking⟩
  holds := fun round => round.stays
  discard := fun round _ => round.stays.discard (round.notCommitted _ List.mem_cons_self)

theorem Bodied.reorg (bodied : Bodied lib world db)
    (apart : ConnectedAs lib db.connected newTip.blockHash → ¬ Preferred db newTip) :
    Bodied lib world (reorgToTip lib ctxt prove db newTip rpc).1 := by
  refine rebodiedRule.reorg bodied (fun reorg ancestor head count start => ?_)
  have notConnected : ¬ ConnectedAs lib db.connected newTip.blockHash :=
    fun connected => apart connected ⟨reorg.tip,start.tip,start.better⟩
  have fresh := start.fresh bodied.toActive notConnected
  obtain ⟨working,isSuffix⟩ := bodied.disconnects start.disconnected
  refine ⟨bodied,working,fun block mem => (bodied.trees.sides.named (fresh.stored block mem).1).1,fresh.distinct,fresh.other,
    fun block mem isConnected => fresh.other block mem ?_⟩
  obtain ⟨c,inside,isHash⟩ := List.mem_map.mp isConnected
  exact List.mem_map.mpr ⟨c,isSuffix.subset inside,isHash⟩

end Reorg

section Stores

theorem Bodied.putHeader (bodied : Bodied lib world db) (names : header = world.header (header.hash lib))
    (ok : db.archive.putHeader lib header = .ok archive) : Bodied lib world { db with archive } :=
  bodied.learn (bodied.trees.putHeader names ok) (bodied.trees.addsHeader names ok).grown
    (fun c _ => by rw [putHeaderBodies ok])

theorem Bodied.putBody (bodied : Bodied lib world db) (ok : db.archive.putBody b body = .ok archive)
    (same : ∀ c ∈ db.connected, c.header.hash lib = b → body = c.body) : Bodied lib world { db with archive } := by
  have trees := bodied.trees.putBody ok
  obtain ⟨_,tips,rfl⟩ := putBodyFrame ok
  refine ⟨bodied.toActive.learn trees .bodies,fun c mem => ?_⟩
  show (db.archive.bodies.put b body).tryGet (c.header.hash lib) = some c.body
  rw [Table.tryGetPut]
  split
  · next here => rw [same c mem here]
  · exact bodied.bodies c mem

theorem missingAbsent {missing : List BlockHash} (ok : missingBodiesAfter db b = .ok missing) :
    ∀ c ∈ missing, db.archive.bodies.tryGet c = none := by
  have walks {ancestor : Option BlockHash} (ok : getMissingBodies db.archive b ancestor = .ok missing) :
      ∀ c ∈ missing, db.archive.bodies.tryGet c = none := by
    simp only [getMissingBodies,mapOk] at ok
    obtain ⟨kept,walked,rfl⟩ := ok
    intro c mem
    obtain ⟨d,isKept⟩ := walkUntilFrom walked c (List.mem_reverse.mp mem)
    split at isKept
    · cases isKept
    · next absent =>
        cases isKept
        exact Option.not_isSome_iff_eq_none.mp absent
  unfold missingBodiesAfter at ok
  split at ok
  · simp only [bindOk] at ok
    obtain ⟨ancestor,_,ok⟩ := ok
    exact walks ok
  · exact walks ok

theorem Bodied.submit (bodied : Bodied lib world db) {mainBlockHash : MainHash} {ancestorInfos : Except NodeError Bool}
    {marks : HashSet} (names : header = world.header (header.hash lib))
    (apart : ConnectedAs lib db.connected (header.hash lib) → ∀ archive, db.archive.putHeader lib header = .ok archive →
      ¬ Preferred { db with archive } ⟨header.hash lib,mainBlockHash⟩) :
    Bodied lib world (submitBlock lib ctxt prove ⟨db,marks⟩ mainBlockHash header body ancestorInfos rpc).1.toDb := by
  unfold submitBlock
  split
  · exact bodied
  · exact bodied
  · dsimp only
    split
    · exact bodied
    · next archive put =>
        have stored := bodied.putHeader names put
        unfold submitStored
        split
        · exact stored
        · exact stored
        · split
          · exact stored
          · next missing isMissing =>
              split
              · exact stored.reorg (fun connected => apart connected archive put)
              · split
                · next isOne =>
                    have absent := missingAbsent isMissing (header.hash lib) (by rw [isOne]; exact List.mem_singleton_self _)
                    have notConnected : ¬ ConnectedAs lib db.connected (header.hash lib) := by
                      intro connected
                      obtain ⟨c,mem,isHash⟩ := List.mem_map.mp connected
                      have has := stored.bodies c mem
                      rw [isHash,absent] at has
                      cases has
                    split
                    · exact stored
                    · next archive' put' =>
                        refine Bodied.reorg (stored.putBody put' (fun c mem isHash => ?_))
                          (fun connected => absurd connected notConnected)
                        exact absurd (List.mem_map.mpr ⟨c,mem,isHash⟩) notConnected
                · exact stored

theorem Bodied.response {blockHash : BlockHash} (bodied : Bodied lib world db)
    (same : header.hash lib = blockHash → ∀ c ∈ db.connected, c.header.hash lib = blockHash → body = c.body) :
    Bodied lib world (handleBlockResponse lib db blockHash header body) := by
  unfold handleBlockResponse
  split
  · exact bodied
  · next own =>
      split
      · next archive put => exact bodied.putBody put (same (not_not.mp own))
      · exact bodied

theorem putMainHeaderBodies {info : BlockHeaderInfo} (ok : archive.putMainHeaderInfo info = .ok archive') :
    archive'.bodies = archive.bodies := by
  obtain ⟨_,_,_,_,_,_,_,_,_,rfl⟩ := putMainHeaderSource ok
  rfl

theorem putMainInfoBodies {m : MainHash} {blockInfo : BlockInfo} (ok : archive.putMainBlockInfo m blockInfo = .ok archive') :
    archive'.bodies = archive.bodies := by
  obtain ⟨_,_,_,⟨_,rfl⟩ | ⟨_,_,_,_,_,_,rfl⟩⟩ := putMainInfoSource ok
  · rfl
  · rfl

theorem otherBodies {op : ArchiveOp} (other : storesBody op = false) (ok : op.apply lib archive = .ok archive') :
    archive'.bodies = archive.bodies := by
  cases op with
  | handleBlockEvent event =>
      cases event with
      | connectBlock info blockInfo =>
          obtain ⟨first,second,_,_,isFirst,isSecond,_,_,rfl⟩ := connectEventSource ok
          exact (putMainInfoBodies isSecond).trans (putMainHeaderBodies isFirst)
      | disconnectBlock m =>
          obtain ⟨_,_,_,_,_,_,_,_,rfl⟩ := disconnectEventSource ok
          rfl
  | putMainHeaderInfo info => exact putMainHeaderBodies ok
  | putMainBlockInfo m blockInfo => exact putMainInfoBodies ok
  | putHeader header => exact putHeaderBodies ok
  | putBody b body => cases other
  | deleteBody b => cases other

theorem Bodied.step {step : BodyStep} (bodied : Bodied lib world db) (names : step.Names lib world)
    (keeps : step.KeepsBodies lib db) : Bodied lib world (step.apply lib ctxt prove db) := by
  cases step with
  | connectTip_ header body data replies =>
      unfold BodyStep.apply
      dsimp only
      cases done : connectTip_ lib ctxt prove db header body data replies with
      | error err => exact bodied
      | ok next => exact bodied.connect names (connectTipSource done)
  | disconnectTip_ =>
      unfold BodyStep.apply
      dsimp only
      cases done : disconnectTip_ lib prove db with
      | error err => exact bodied
      | ok next =>
          obtain ⟨_,_,_,_,_,continues⟩ := bodied.disconnect done
          exact continues
  | reorgToTip newTip rpc => exact bodied.reorg keeps
  | submitBlock mainBlockHash header body ancestorInfos rpc => exact bodied.submit names keeps
  | blockResponse blockHash header body => exact bodied.response keeps
  | other op =>
      obtain ⟨op,other⟩ := op
      unfold BodyStep.apply
      dsimp only
      cases applied : op.apply lib db.archive with
      | error err => exact bodied
      | ok archive =>
          exact bodied.learn (bodied.trees.step names applied) (bodied.trees.stepGrown names applied)
            (fun c _ => by rw [otherBodies other applied])

end Stores

section Runs

theorem Bodied.new : Bodied lib world (Db.new F) :=
  ⟨⟨.new,.empty,rfl,fun _ mem => absurd mem List.not_mem_nil⟩,fun _ mem => absurd mem List.not_mem_nil⟩

theorem runBodied {steps : List BodyStep} (names : ∀ step ∈ steps, step.Names lib world)
    (keeps : ∀ before step after, steps = before ++ step :: after →
      step.KeepsBodies lib (runBodies lib ctxt prove before)) : Bodied lib world (runBodies lib ctxt prove steps) := by
  refine foldlPrefix (P := Bodied lib world) .new (fun before step after split bodied => ?_)
  exact bodied.step (names step (split ▸ List.mem_append_right before List.mem_cons_self)) (keeps before step after split)

/- The stored bodies of the active chain stay those with which its blocks were connected, so the tip is disconnected with
its own body. -/
theorem connectedBodiesKept {steps : List BodyStep} (names : ∀ step ∈ steps, step.Names lib world)
    (keeps : ∀ before step after, steps = before ++ step :: after →
      step.KeepsBodies lib (runBodies lib ctxt prove before)) :
    BodiesConnected lib (runBodies lib ctxt prove steps) ∧
      ∀ db', disconnectTip_ lib prove (runBodies lib ctxt prove steps) = .ok db' →
        ∃ c below, (runBodies lib ctxt prove steps).connected = c :: below ∧ db'.connected = below ∧
          DisconnectTipSource lib (runBodies lib ctxt prove steps) c.header c.body db' := by
  have bodied : Bodied lib world (runBodies lib ctxt prove steps) := runBodied names keeps
  refine ⟨bodied.bodies,fun db' done => ?_⟩
  obtain ⟨c,below,isTop,isBelow,source,_⟩ := bodied.disconnect done
  exact ⟨c,below,isTop,isBelow,source⟩

end Runs

section Replaced

open Reference

def minedBody : Body := Reference.body [] []

def minedHeader : Header := { mine (State.new Forest) minedBody with prevMainHash := 1 }

def minedWorld : World where
  header _ := minedHeader
  mainHeader m := if m = 1 then ⟨1,0,0,1⟩ else ⟨2,1,1,1⟩
  mainInfo m := if m = 2 then ⟨some (minedHeader.hash externals),[]⟩ else ⟨none,[]⟩

def otherBody : Body := Reference.body [] [coin alice 1]

def submittedThen (body : Body) : List BodyStep :=
  [1,2].map (fun m => .other ⟨.handleBlockEvent (.connectBlock (minedWorld.mainHeader m) (minedWorld.mainInfo m)),rfl⟩) ++
    [.submitBlock 2 minedHeader minedBody (.ok true) (fun _ => noRpc),
      .blockResponse (minedHeader.hash externals) minedHeader body]

instance BodyStep.decideNames {world : World} {step : BodyStep} : Decidable (step.Names externals world) :=
  match step with
  | .connectTip_ header _ _ _ | .submitBlock _ header _ _ _ =>
      inferInstanceAs (Decidable (header = world.header (header.hash externals)))
  | .other op => inferInstanceAs (Decidable (op.1.Names externals world))
  | .disconnectTip_ | .reorgToTip _ _ | .blockResponse _ _ _ => isTrue trivial

theorem sentBodyReplaces : ∃ (world : World) (steps : List BodyStep), (∀ step ∈ steps, step.Names externals world) ∧
    ¬ BodiesConnected externals (runBodies externals context noProof steps) := by
  refine ⟨minedWorld,submittedThen otherBody,by decide +kernel,fun connected => ?_⟩
  have replaced : (runBodies externals context noProof (submittedThen otherBody)).connected.any (fun c =>
      (runBodies externals context noProof (submittedThen otherBody)).archive.bodies.tryGet (c.header.hash externals) ≠
        some c.body) = true := by decide +kernel
  obtain ⟨c,mem,other⟩ := List.any_eq_true.mp replaced
  exact of_decide_eq_true other (connected c mem)

def keepsCheck (db : Db Forest) : BodyStep → Bool
  | .reorgToTip newTip _ => db.connected.all (fun c => c.header.hash externals ≠ newTip.blockHash)
  | .submitBlock _ header _ _ _ => db.connected.all (fun c => c.header.hash externals ≠ header.hash externals)
  | .blockResponse _ _ body => db.connected.all (fun c => body = c.body)
  | _ => true

theorem otherConnected {connected : List Connected} {b : BlockHash}
    (all : connected.all (fun c => c.header.hash externals ≠ b) = true) : ¬ ConnectedAs externals connected b := by
  intro isConnected
  obtain ⟨c,mem,isHash⟩ := List.mem_map.mp isConnected
  exact of_decide_eq_true (List.all_eq_true.mp all c mem) isHash

theorem keepsChecked {steps : List BodyStep}
    (checked : foldlEvery (BodyStep.apply externals context noProof) keepsCheck steps (Db.new Forest) = true)
    (before : List BodyStep) (step : BodyStep) (after : List BodyStep) (split : steps = before ++ step :: after) :
    step.KeepsBodies externals (runBodies externals context noProof before) := by
  subst split
  have here : keepsCheck (runBodies externals context noProof before) step = true := foldlEveryTaken checked
  cases step with
  | reorgToTip newTip rpc => exact fun isConnected => absurd isConnected (otherConnected here)
  | submitBlock mainBlockHash header body ancestorInfos rpc => exact fun isConnected => absurd isConnected (otherConnected here)
  | blockResponse blockHash header body =>
      exact fun _ c mem _ => of_decide_eq_true (List.all_eq_true.mp here c mem)
  | connectTip_ => trivial
  | disconnectTip_ => trivial
  | other => trivial

theorem sentBodyKeeps : BodiesConnected externals (runBodies externals context noProof (submittedThen minedBody)) ∧
    ∃ db' c below, (runBodies externals context noProof (submittedThen minedBody)).connected = c :: below ∧
      disconnectTip_ externals noProof (runBodies externals context noProof (submittedThen minedBody)) = .ok db' ∧
      DisconnectTipSource externals (runBodies externals context noProof (submittedThen minedBody)) c.header c.body db' := by
  have checked : foldlEvery (BodyStep.apply externals context noProof) keepsCheck (submittedThen minedBody)
      (Db.new Forest) = true := by decide +kernel
  have names : ∀ step ∈ submittedThen minedBody, step.Names externals minedWorld := by decide +kernel
  obtain ⟨kept,undone⟩ := connectedBodiesKept names (keepsChecked checked)
  have disconnects : (disconnectTip_ externals noProof
      (runBodies externals context noProof (submittedThen minedBody))).isOk = true := by decide +kernel
  obtain ⟨db',done⟩ := isOkExists disconnects
  obtain ⟨c,below,isTop,_,source⟩ := undone db' done
  exact ⟨kept,db',c,below,isTop,done,source⟩

end Replaced

end Coinshift.NetTask
