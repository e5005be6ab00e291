import Coinshift.CanonicalEncoding
import Coinshift.IndexReplay
import Coinshift.PegEffectRuns

/-! What a node answers to an index: how many blocks it has, the block at a height, and what a block moved outside its
body. The movements are kept by height, so the answer for a block is taken only while it is on the chain. -/
namespace Coinshift.NetTask
open Checked Lineage Archive

variable {F : Type} {lib : Externals F} {ctxt : BatchVerificationContext}
  {prove : F → List Hash → Except Text UtreexoProof} {rpc : BlockHash → RpcReplies} {world : World}
  {start db db' : Db F} {archive : Archive F} {newTip : Tip} {header : Header} {body : Body} {b : BlockHash}
  {c : Connected} {connected below base : List Connected} {height : Nat}

section Reads

inductive ReadError where
  | node (source : NodeError)
  | notInCurrentChain (blockHash : BlockHash)
  deriving DecidableEq, Repr

def getBlockCount (db : Db F) : Nat := db.state.height.elim 0 (· + 1)

def tryGetBlockHash (db : Db F) (height : Nat) : Except ReadError (Option BlockHash) :=
  match db.state.tip,db.state.height with
  | some tip,some tipHeight =>
      if height ≤ tipHeight then
        (walkNth db.archive.sideNext (tipHeight - height) (some tip)).mapError (fun err => .node (.archive err))
      else .ok none
  | _,_ => .ok none

def getBlockIndexEvents (db : Db F) (blockHash : BlockHash) : Except ReadError BlockIndexEvents := do
  let height ← (db.archive.getHeight blockHash).mapError (fun err => .node (.archive err))
  let own ← tryGetBlockHash db height
  -- the events are keyed by height: another block's must not be read
  ensure (own = some blockHash) (.notInCurrentChain blockHash)
  pure (db.state.getBlockIndexEvents height)

end Reads

section Heights

theorem connectedAtReverse : ConnectedAt connected height c ↔ connected.reverse[height]? = some c := by
  induction connected with
  | nil =>
      constructor
      · intro at_
        exact absurd at_.low (Nat.not_lt_zero height)
      · intro found
        cases found
  | cons d below ih =>
      rw [List.reverse_cons]
      constructor
      · intro at_
        rcases at_.top with ⟨rfl,rfl⟩ | lower
        · rw [← List.length_reverse,List.getElem?_concat_length]
        · rw [List.getElem?_append_left (by rw [List.length_reverse]; exact lower.low)]
          exact ih.mp lower
      · intro found
        rcases Nat.lt_or_ge height below.reverse.length with low | top
        · rw [List.getElem?_append_left low] at found
          exact (ih.mpr found).grow
        · rw [List.getElem?_append_right top,List.getElem?_singleton] at found
          split at found
          · next last =>
              cases found
              rw [List.length_reverse] at top last
              exact ⟨below,List.suffix_rfl,by omega⟩
          · cases found

theorem Active.placeHeight (active : Active lib world db) (at_ : ConnectedAt db.connected height c) :
    db.archive.getHeight (c.header.hash lib) = .ok height := by
  have sides := active.trees.sides
  have stored := active.stored c at_.member
  obtain ⟨below,⟨front,isSplit⟩,length⟩ := at_
  have walk := active.walk
  rw [← isSplit,List.map_append,List.map_cons] at walk
  obtain ⟨h,known,_⟩ := sides.heights.counted stored
  obtain ⟨line,isLine,lineLength,_⟩ := sides.sound.walk sides.leads (heightOk.mpr known)
  have lengths := congrArg List.length (walk.suffix.unique isLine)
  rw [List.length_cons,List.length_map,lineLength,length] at lengths
  cases Nat.succ.inj lengths
  exact heightOk.mpr known

theorem Active.count (active : Active lib world db) : getBlockCount db = db.connected.length := by
  rw [← active.height]
  unfold getBlockCount State.nextHeight
  cases db.state.height <;> rfl

theorem Active.hashAt (active : Active lib world db) :
    tryGetBlockHash db height = .ok ((db.connected.reverse[height]?).map (·.header.hash lib)) := by
  cases isList : db.connected with
  | nil =>
      rw [tryGetBlockHash,active.noTip.mpr isList]
      rfl
  | cons c below =>
      obtain ⟨isTip,_,isHeight⟩ := active.tipStored isList
      have walk := active.walk
      rw [isTip,isList] at walk
      rw [tryGetBlockHash,isTip,isHeight]
      dsimp only
      split
      · next inside =>
          have low : height < (c :: below).length := Nat.lt_succ_of_le inside
          rw [walk.nth,List.getElem?_reverse low,List.getElem?_map]
          rfl
      · next above =>
          rw [List.getElem?_eq_none]
          · rfl
          · rw [List.length_reverse]
            exact Nat.lt_of_not_le above

theorem Active.indexServed (active : Active lib world db) {events : BlockIndexEvents} :
    getBlockIndexEvents db b = .ok events ↔ ∃ c height, ConnectedAt db.connected height c ∧ c.header.hash lib = b ∧
      db.state.getBlockIndexEvents height = events := by
  simp only [getBlockIndexEvents,active.hashAt,okBind,bindOk,mapErrorOk,ensureOk,pureOk]
  constructor
  · intro served
    obtain ⟨height,_,_,own,isEvents⟩ := served
    obtain ⟨c,found,isHash⟩ := Option.map_eq_some_iff.mp own
    exact ⟨c,height,connectedAtReverse.mpr found,isHash,isEvents⟩
  · intro connected
    obtain ⟨c,height,at_,rfl,isEvents⟩ := connected
    exact ⟨height,active.placeHeight at_,(),by rw [connectedAtReverse.mp at_]; rfl,isEvents⟩

theorem Active.indexRefused (active : Active lib world db) (stored : db.archive.headers.tryGet b = some header)
    (apart : ¬ ConnectedAs lib db.connected b) : getBlockIndexEvents db b = .error (.notInCurrentChain b) := by
  obtain ⟨h,known,_⟩ := active.trees.sides.heights.counted stored
  have height : db.archive.getHeight b = .ok h := heightOk.mpr known
  have other : (db.connected.reverse[h]?).map (·.header.hash lib) ≠ some b := by
    intro own
    obtain ⟨c,found,isHash⟩ := Option.map_eq_some_iff.mp own
    exact apart (List.mem_map.mpr ⟨c,(connectedAtReverse.mpr found).member,isHash⟩)
  have refused : ensure ((db.connected.reverse[h]?).map (·.header.hash lib) = some b) (ReadError.notInCurrentChain b) =
      .error (.notInCurrentChain b) := ensureError.mpr ⟨other,rfl⟩
  simp only [getBlockIndexEvents,height,active.hashAt,Except.mapError,okBind,refused]
  rfl

end Heights

section Steps

/- What changes the chain. A main-chain block event first disconnects the blocks above the highest listed one and commits
that, then it reorganises to the best tip. -/
inductive ChainStep where
  | body (step : BodyStep)
  | disconnectToListed

variable (lib : Externals F) (ctxt : BatchVerificationContext) (prove : F → List Hash → Except Text UtreexoProof)

def ChainStep.apply (db : Db F) : ChainStep → Db F
  | .body step => step.apply lib ctxt prove db
  | .disconnectToListed => (disconnectedToListed lib db).toOption.getD db

def runSteps (steps : List ChainStep) : Db F := steps.foldl (ChainStep.apply lib ctxt prove) (Db.new F)

def ChainStep.Names (world : World) : ChainStep → Prop
  | .body step => step.Names lib world
  | .disconnectToListed => True

end Steps

section Kept

def SameBelow (start db : Db F) (count : Nat) : Prop :=
  ∀ k < count, db.state.getBlockIndexEvents k = start.state.getBlockIndexEvents k

structure Holds (lib : Externals F) (world : World) (start db : Db F) : Prop extends Active lib world db where
  same : ∀ {c below}, (c :: below) <:+ start.connected → (c :: below) <:+ db.connected →
    db.state.getBlockIndexEvents below.length = start.state.getBlockIndexEvents below.length

theorem Active.holds (active : Active lib world db) : Holds lib world db db := ⟨active,fun _ _ => rfl⟩

theorem Holds.learn (holds : Holds lib world start db) (trees : archive.Trees lib world)
    (grown : db.archive.Grown archive) : Holds lib world start { db with archive } :=
  ⟨holds.toActive.learn trees grown,holds.same⟩

theorem ConnectTipSource.sameBelow {data : TwoWayPegData} {replies : RpcReplies} (active : Active lib world db)
    (source : ConnectTipSource lib ctxt db header body data replies db') : SameBelow db db' db.connected.length := by
  intro k low
  obtain ⟨middle,connected,pegs⟩ := source.state
  obtain ⟨pre,block⟩ := connectBlockSource connected
  have tables := connectBlockMarks connected
  have marks := marksConnected pegs block.connected.height
  have other : k ≠ db.state.nextHeight := Nat.ne_of_lt (active.height ▸ low)
  unfold State.getBlockIndexEvents
  rcases marks.index with same | ⟨_,v,put⟩
  · rw [same,tables.index]
  · rw [put,Table.tryGetPutOther other,tables.index]

theorem disconnectSameBelow (active : Active lib world db) (done : disconnectTip_ lib prove db = .ok db') :
    SameBelow db db' db'.connected.length := by
  intro k low
  obtain ⟨c,below,_,isTop,isBelow,source,_⟩ := active.disconnect done
  obtain ⟨height,data,middle,last,accumulator,isHeight,_,pegs,block,_,isState⟩ := source.state
  cases isHeight.symm.trans (active.tipStored isTop).2.2
  have tables := disconnectBlockMarks block
  have marks := marksDisconnected pegs isHeight
  rw [isBelow] at low
  unfold State.getBlockIndexEvents
  rw [isState]
  show (last.blockIndexEvents.tryGet k).getD _ = _
  rw [tables.index,marks.index,if_neg (Nat.ne_of_lt low)]

theorem disconnectsSameBelow {count : Nat} (active : Active lib world db)
    (done : disconnectTips lib prove db count = .ok db') : SameBelow db db' db'.connected.length := by
  induction count generalizing db with
  | zero =>
      cases done
      exact fun _ _ => rfl
  | succ count ih =>
      simp only [disconnectTips,bindOk] at done
      obtain ⟨middle,first,rest⟩ := done
      obtain ⟨_,_,_,_,_,_,continues⟩ := active.disconnect first
      intro k low
      have inside := (continues.disconnects rest).2.length_le
      exact (ih continues rest k low).trans (disconnectSameBelow active first k (Nat.lt_of_lt_of_le low inside))

theorem SameBelow.holds (same : SameBelow start db db.connected.length) (active : Active lib world db) :
    Holds lib world start db :=
  ⟨active,fun _ inside => same _ inside.length_le⟩

theorem unlistSameBelow {fuel : Nat} (active : Active lib world db) (done : disconnectToListed lib fuel db = .ok db') :
    Active lib world db' ∧ SameBelow db db' db'.connected.length := by
  induction fuel generalizing db with
  | zero =>
      rcases unlistRound done with rfl | ⟨_,_,again,_⟩
      · exact ⟨active,fun _ _ => rfl⟩
      · cases again
  | succ fuel ih =>
      rcases unlistRound done with rfl | ⟨_,_,again,⟨tip,header,body,state,isTip,_,isHeader,disconnected,rfl⟩,done⟩
      · exact ⟨active,fun _ _ => rfl⟩
      · cases again
        have previous := (disconnectSource disconnected).previous
        obtain ⟨c,below,isTop,rfl,_,continues⟩ := active.disconnectBlock isTip isHeader previous
        rw [isTop] at done
        obtain ⟨ends,same⟩ := ih continues done
        refine ⟨ends,fun k low => (same k low).trans ?_⟩
        show state.getBlockIndexEvents k = _
        rw [State.getBlockIndexEvents,(disconnectBlockMarks disconnected).index]
        rfl

end Kept

section Reorg

variable {committed working later : Db F} {batch : List (Hash × List BlockEvent)} {block : Block} {blocks : List Block}

/- The open transaction above the blocks that a reorganisation leaves: none of the others was connected before. -/
structure Rejoined (lib : Externals F) (world : World) (start : Db F) (base : List Connected) (db : Db F) : Prop
    extends Active lib world db where
  stands : base <:+ db.connected
  same : SameBelow start db base.length
  above : ∀ {c below}, (c :: below) <:+ db.connected → ConnectedAs lib start.connected (c.header.hash lib) →
    (c :: below) <:+ base

theorem Rejoined.holds (rejoined : Rejoined lib world start base db) : Holds lib world start db := by
  refine ⟨rejoined.toActive,fun before now => ?_⟩
  have inside := rejoined.above now (List.mem_map_of_mem (before.subset List.mem_cons_self))
  exact rejoined.same _ inside.length_le

theorem Rejoined.connect {data : TwoWayPegData} {replies : RpcReplies} (rejoined : Rejoined lib world start base db)
    (names : header = world.header (header.hash lib)) (apart : ¬ ConnectedAs lib start.connected (header.hash lib))
    (source : ConnectTipSource lib ctxt db header body data replies db') : Rejoined lib world start base db' := by
  obtain ⟨active,_⟩ := rejoined.toActive.connect names source
  have same := source.sameBelow rejoined.toActive
  refine ⟨active,?_,fun k low => ?_,fun {c below} isSuffix before => ?_⟩
  · rw [source.connected]
    exact rejoined.stands.trans (List.suffix_cons _ _)
  · exact (same k (Nat.lt_of_lt_of_le low rejoined.stands.length_le)).trans (rejoined.same k low)
  · rw [source.connected] at isSuffix
    rcases List.suffix_cons_iff.mp isSuffix with isTop | inside
    · cases isTop
      exact absurd before apart
    · exact rejoined.above inside before

structure JoinRound (lib : Externals F) (world : World) (start : Db F) (base : List Connected) (committed working : Db F)
    (blocks : List Block) : Prop where
  stays : Holds lib world start committed
  goesOn : Rejoined lib world start base working
  names : ∀ block ∈ blocks, block.1 = world.header (block.1.hash lib)
  apart : ∀ block ∈ blocks, ¬ ConnectedAs lib start.connected (block.1.hash lib)

theorem Holds.discard {err : NodeError} (holds : Holds lib world start db) :
    Holds lib world start (discardBody db b err).1 := by
  unfold discardBody
  split
  · exact holds
  · split
    · next archive deleted =>
        have trees := holds.trees.deleteBody deleted
        obtain ⟨tips,rfl⟩ := disconnectQueueFrame deleted
        exact holds.learn trees .bodies
    · exact holds

theorem joinRule : LoopRule lib ctxt prove rpc
    (fun committed working _ blocks => ∃ base, JoinRound lib world start base committed working blocks)
    (Holds lib world start) where
  connect := by
    intro committed working next batch block blocks rounds done
    obtain ⟨base,round⟩ := rounds
    refine ⟨base,round.stays,round.goesOn.connect (round.names block List.mem_cons_self)
      (round.apart block List.mem_cons_self) (connectTipSource done),?_,?_⟩
    · exact fun later mem => round.names later (List.mem_cons_of_mem block mem)
    · exact fun later mem => round.apart later (List.mem_cons_of_mem block mem)
  commit := fun ⟨base,round⟩ => ⟨base,round.goesOn.holds,round.goesOn,round.names,round.apart⟩
  holds := fun ⟨_,round⟩ => round.stays
  discard := fun ⟨_,round⟩ _ => round.stays.discard

structure StuckRound (lib : Externals F) (world : World) (start committed working : Db F) (blocks : List Block) :
    Prop where
  stays : Holds lib world start committed
  goesOn : Holds lib world start working
  stuck : ∀ block ∈ blocks, block.1.prevSideHash ≠ working.state.tip

theorem stuckRule : LoopRule lib ctxt prove rpc
    (fun committed working _ blocks => StuckRound lib world start committed working blocks) (Holds lib world start) where
  connect := by
    intro committed working next batch block blocks round done
    obtain ⟨middle,connected,_⟩ := (connectTipSource done).state
    obtain ⟨pre,source⟩ := connectBlockSource connected
    exact absurd source.validated.parent (round.stuck block List.mem_cons_self)
  commit := fun round => ⟨round.goesOn,round.goesOn,round.stuck⟩
  holds := fun round => round.stays
  discard := fun round _ => round.stays.discard

variable {reorg : Reorg F} {ancestor : Option BlockHash} {head : Header} {count : Nat}

theorem ReorgStart.meetsConnected (source : ReorgStart lib prove db newTip reorg ancestor head count)
    (active : Active lib world db) (connected : ConnectedAs lib db.connected newTip.blockHash) :
    ancestor = some newTip.blockHash := by
  have sides := active.trees.sides
  have meets := source.meets active
  obtain ⟨h,height,_⟩ := sides.heights.counted source.isHead
  have itself : db.archive.links.Descends newTip.blockHash newTip.blockHash := .refl (heightOk.mpr height)
  cases isAncestor : ancestor with
  | none => exact absurd itself (meets.apart isAncestor _ connected)
  | some x =>
      obtain ⟨tip,isTip,highest⟩ := meets.highest x isAncestor
      obtain ⟨k,knownX,bound⟩ := highest.highest _ h ((active.ancestors isTip).mp connected) itself (heightOk.mpr height)
      have below := sides.sound.descentLine itself highest.right (heightOk.mpr height) knownX bound
      rw [sides.sound.descentAntisymm below highest.right]

theorem ReorgStart.stuck (source : ReorgStart lib prove db newTip reorg ancestor head count) (active : Active lib world db)
    (connected : ConnectedAs lib db.connected newTip.blockHash) :
    ∀ block ∈ reorg.blocks, block.1.prevSideHash ≠ reorg.working.state.tip := by
  intro block mem back
  obtain ⟨line,walk,isLine,stored⟩ := blocksRead active.trees.sides source.blocks
  rw [source.reached,source.meetsConnected active connected] at back
  have isNext : db.archive.sideNext (block.1.hash lib) = .ok (some newTip.blockHash) :=
    sideNextOk.mpr ⟨block.1,(stored block (List.mem_reverse.mpr mem)).1,back⟩
  have inside : block.1.hash lib ∈ newTip.blockHash :: line.takeWhile (fun b => !decide (some b = ancestor)) := by
    rw [← isLine]
    exact List.mem_map_of_mem (List.mem_reverse.mpr mem)
  have above : block.1.hash lib ∈ newTip.blockHash :: line := by
    rcases List.mem_cons.mp inside with same | below
    · exact List.mem_cons.mpr (.inl same)
    · exact List.mem_cons_of_mem _ (List.takeWhile_subset _ below)
  exact walk.leaves above isNext

theorem Active.reorgHolds (active : Active lib world db) :
    Holds lib world db (reorgToTip lib ctxt prove db newTip rpc).1 := by
  rcases Classical.em (ConnectedAs lib db.connected newTip.blockHash) with connected | apart
  · refine stuckRule.reorg active.holds (fun reorg ancestor head count source => ?_)
    have working := active.disconnects source.disconnected
    exact ⟨active.holds,(disconnectsSameBelow active source.disconnected).holds working.1,source.stuck active connected⟩
  · refine joinRule.reorg active.holds (fun reorg ancestor head count source => ?_)
    have fresh := source.fresh active apart
    have working := active.disconnects source.disconnected
    have same := disconnectsSameBelow active source.disconnected
    exact ⟨reorg.working.connected,active.holds,⟨working.1,List.suffix_rfl,same,fun inside _ => inside⟩,
      fun block mem => (active.trees.sides.named (fresh.stored block mem).1).1,fresh.other⟩

end Reorg

section Runs

variable {steps before after : List ChainStep}

theorem Holds.putHeader (holds : Holds lib world start db) (names : header = world.header (header.hash lib))
    (ok : db.archive.putHeader lib header = .ok archive) : Holds lib world start { db with archive } :=
  holds.learn (holds.trees.putHeader names ok) (holds.trees.addsHeader names ok).grown

theorem Holds.putBody (holds : Holds lib world start db) (ok : db.archive.putBody b body = .ok archive) :
    Holds lib world start { db with archive } := by
  have trees := holds.trees.putBody ok
  obtain ⟨_,tips,rfl⟩ := putBodyFrame ok
  exact holds.learn trees .bodies

theorem Active.reorgStored (holds : Holds lib world db { db with archive }) :
    Holds lib world db (reorgToTip lib ctxt prove { db with archive } newTip rpc).1 :=
  ⟨holds.toActive.reorgHolds.toActive,fun before now => holds.toActive.reorgHolds.same before now⟩

theorem Active.submitHolds (active : Active lib world db) {mainBlockHash : MainHash}
    {ancestorInfos : Except NodeError Bool} {marks : HashSet} (names : header = world.header (header.hash lib)) :
    Holds lib world db (submitBlock lib ctxt prove ⟨db,marks⟩ mainBlockHash header body ancestorInfos rpc).1.toDb := by
  unfold submitBlock
  split
  · exact active.holds
  · exact active.holds
  · dsimp only
    split
    · exact active.holds
    · next archive put =>
        have stored := active.holds.putHeader names put
        unfold submitStored
        split
        · exact stored
        · exact stored
        · split
          · exact stored
          · split
            · exact Active.reorgStored stored
            · split
              · split
                · exact stored
                · next archive' put' => exact Active.reorgStored (stored.putBody put')
              · exact stored

theorem Active.bodyStepHolds {step : BodyStep} (active : Active lib world db) (names : step.Names lib world) :
    Holds lib world db (step.apply lib ctxt prove db) := by
  cases step with
  | connectTip_ header body data replies =>
      unfold BodyStep.apply
      dsimp only
      cases done : connectTip_ lib ctxt prove db header body data replies with
      | error err => exact active.holds
      | ok next =>
          have source := connectTipSource done
          have same := source.sameBelow active
          exact ⟨(active.connect names source).1,fun inside _ => same _ inside.length_le⟩
  | disconnectTip_ =>
      unfold BodyStep.apply
      dsimp only
      cases done : disconnectTip_ lib prove db with
      | error err => exact active.holds
      | ok next =>
          obtain ⟨_,_,_,_,_,_,continues⟩ := active.disconnect done
          exact (disconnectSameBelow active done).holds continues
  | reorgToTip newTip rpc => exact active.reorgHolds
  | submitBlock mainBlockHash header body ancestorInfos rpc => exact active.submitHolds names
  | blockResponse blockHash header body =>
      unfold BodyStep.apply handleBlockResponse
      dsimp only
      split
      · exact active.holds
      · split
        · next archive put => exact active.holds.putBody put
        · exact active.holds
  | other op =>
      obtain ⟨op,other⟩ := op
      unfold BodyStep.apply
      dsimp only
      cases applied : op.apply lib db.archive with
      | error err => exact active.holds
      | ok archive => exact active.holds.learn (active.trees.step names applied) (active.trees.stepGrown names applied)

theorem Active.step {step : ChainStep} (active : Active lib world db) (names : step.Names lib world) :
    Holds lib world db (step.apply lib ctxt prove db) := by
  cases step with
  | body step => exact active.bodyStepHolds names
  | disconnectToListed =>
      unfold ChainStep.apply
      dsimp only
      cases done : disconnectedToListed lib db with
      | error err => exact active.holds
      | ok next =>
          obtain ⟨ends,same⟩ := unlistSameBelow active done
          exact same.holds ends

theorem runActive (names : ∀ step ∈ steps, step.Names lib world) : Active lib world (runSteps lib ctxt prove steps) := by
  refine foldlPrefix (P := Active lib world) ⟨.new,.empty,rfl,fun _ mem => absurd mem List.not_mem_nil⟩ ?_
  intro before step after split active
  exact (active.step (names step (split ▸ List.mem_append_right before List.mem_cons_self))).toActive

/- At every time the answers are the active chain: the block count, each block at its height, the movements of just the
connected blocks, and an error for every other known block. -/
theorem heightsNameChain (names : ∀ step ∈ steps, step.Names lib world) :
    getBlockCount (runSteps lib ctxt prove steps) = (runSteps lib ctxt prove steps).connected.length ∧
    (∀ height, tryGetBlockHash (runSteps lib ctxt prove steps) height =
      .ok (((runSteps lib ctxt prove steps).connected.reverse[height]?).map (·.header.hash lib))) ∧
    (∀ b events, getBlockIndexEvents (runSteps lib ctxt prove steps) b = .ok events ↔
      ∃ c height, (runSteps lib ctxt prove steps).connected.reverse[height]? = some c ∧ c.header.hash lib = b ∧
        (runSteps lib ctxt prove steps).state.getBlockIndexEvents height = events) ∧
    ∀ b header, (runSteps lib ctxt prove steps).archive.headers.tryGet b = some header →
      ¬ ConnectedAs lib (runSteps lib ctxt prove steps).connected b →
      getBlockIndexEvents (runSteps lib ctxt prove steps) b = .error (.notInCurrentChain b) := by
  have active : Active lib world (runSteps lib ctxt prove steps) := runActive names
  refine ⟨active.count,fun height => active.hashAt,fun b events => ?_,fun b header stored => active.indexRefused stored⟩
  simp only [← connectedAtReverse]
  exact active.indexServed

namespace Reference

open Coinshift.Reference

def minedSteps : List ChainStep :=
  [1,2,3].map (fun m =>
    .body (.other ⟨.handleBlockEvent (.connectBlock (secondWorld.mainHeader m) (secondWorld.mainInfo m)),rfl⟩)) ++
    [.body (.submitBlock 2 minedHeader minedBody (.ok true) (fun _ => noRpc))]

def secondSubmitted : ChainStep := .body (.submitBlock 3 secondHeader minedBody (.ok true) (fun _ => noRpc))

instance {world : World} {step : ChainStep} : Decidable (step.Names externals world) :=
  match step with
  | .body step => inferInstanceAs (Decidable (step.Names externals world))
  | .disconnectToListed => isTrue trivial

theorem minedSubmitted : ∀ step ∈ minedSteps ++ [secondSubmitted,.body .disconnectTip_],
    step.Names externals secondWorld := by
  decide +kernel

theorem minedBlocksNamed :
    tryGetBlockHash (runSteps externals context noProof (minedSteps ++ [secondSubmitted])) 0 =
      .ok (some (minedHeader.hash externals)) ∧
    tryGetBlockHash (runSteps externals context noProof (minedSteps ++ [secondSubmitted])) 1 =
      .ok (some (secondHeader.hash externals)) ∧
    tryGetBlockHash (runSteps externals context noProof (minedSteps ++ [secondSubmitted])) 2 = .ok none ∧
    getBlockCount (runSteps externals context noProof (minedSteps ++ [secondSubmitted])) = 2 := by
  have names : ∀ step ∈ minedSteps ++ [secondSubmitted], step.Names externals secondWorld := fun step mem =>
    minedSubmitted step (((List.prefix_append_right_inj minedSteps).mpr
      (List.prefix_append [secondSubmitted] [.body .disconnectTip_])).subset mem)
  have chain : (runSteps externals context noProof (minedSteps ++ [secondSubmitted])).connected.map
      (·.header.hash externals) = [secondHeader.hash externals,minedHeader.hash externals] := by decide +kernel
  obtain ⟨count,heights,_,_⟩ := heightsNameChain names
  have named (height : Nat) : tryGetBlockHash (runSteps externals context noProof (minedSteps ++ [secondSubmitted])) height =
      .ok ([secondHeader.hash externals,minedHeader.hash externals].reverse[height]?) := by
    rw [heights height,← List.getElem?_map,List.map_reverse,chain]
  refine ⟨named 0,named 1,named 2,?_⟩
  rw [count,← List.length_map,chain]
  rfl

end Reference

theorem runStepsAppend : runSteps lib ctxt prove (before ++ after) =
    after.foldl (ChainStep.apply lib ctxt prove) (runSteps lib ctxt prove before) := List.foldl_append

/- The answer for a block is the same for as long as the block stays connected, whatever else is connected, disconnected
or reorganised. -/
theorem indexStaysPut (names : ∀ step ∈ before ++ after, step.Names lib world)
    (stays : ∀ taken, taken <+: after → (c :: below) <:+ (runSteps lib ctxt prove (before ++ taken)).connected) :
    ∃ events, getBlockIndexEvents (runSteps lib ctxt prove before) (c.header.hash lib) = .ok events ∧
      getBlockIndexEvents (runSteps lib ctxt prove (before ++ after)) (c.header.hash lib) = .ok events := by
  have namesAt (taken : List ChainStep) (isPrefix : taken <+: after) : ∀ step ∈ before ++ taken, step.Names lib world :=
    fun step mem => names step ((List.prefix_append_right_inj before).mpr isPrefix |>.subset mem)
  have kept (taken : List ChainStep) (isPrefix : taken <+: after) :
      (runSteps lib ctxt prove (before ++ taken)).state.getBlockIndexEvents below.length =
        (runSteps lib ctxt prove before).state.getBlockIndexEvents below.length := by
    induction taken using List.reverseRecOn with
    | nil => rw [List.append_nil]
    | append_singleton taken step ih =>
        have earlier := (List.prefix_append taken [step]).trans isPrefix
        have active : Active lib world (runSteps lib ctxt prove (before ++ taken)) := runActive (namesAt taken earlier)
        have isLast := List.mem_append_right taken (List.mem_singleton_self step)
        have named := namesAt _ isPrefix step (List.mem_append_right before isLast)
        have holds : Holds lib world (runSteps lib ctxt prove (before ++ taken)) (step.apply lib ctxt prove _) :=
          active.step named
        have again := stays _ isPrefix
        rw [← List.append_assoc,runStepsAppend] at again ⊢
        exact (holds.same (stays taken earlier) again).trans (ih earlier)
  have served (taken : List ChainStep) (isPrefix : taken <+: after) :
      getBlockIndexEvents (runSteps lib ctxt prove (before ++ taken)) (c.header.hash lib) =
        .ok ((runSteps lib ctxt prove before).state.getBlockIndexEvents below.length) := by
    have at_ : ConnectedAt (runSteps lib ctxt prove (before ++ taken)).connected below.length c :=
      ⟨below,stays taken isPrefix,rfl⟩
    exact (runActive (namesAt taken isPrefix)).indexServed.mpr ⟨c,below.length,at_,rfl,kept taken isPrefix⟩
  have first := served [] (List.nil_prefix)
  rw [List.append_nil] at first
  exact ⟨_,first,served after List.prefix_rfl⟩

namespace Reference

open Coinshift.Reference

/- The second block is connected above the first and disconnected again. -/
theorem minedIndexStays : ∃ c : Connected, c.header = minedHeader ∧
    (∃ above, (runSteps externals context noProof (minedSteps ++ [secondSubmitted])).connected = [above,c]) ∧ ∃ events,
    getBlockIndexEvents (runSteps externals context noProof minedSteps) (c.header.hash externals) = .ok events ∧
    getBlockIndexEvents (runSteps externals context noProof (minedSteps ++ [secondSubmitted,.body .disconnectTip_]))
      (c.header.hash externals) = .ok events := by
  have chain : (runSteps externals context noProof minedSteps).connected.map (·.header) = [minedHeader] := by
    decide +kernel
  have kept : ∀ taken ∈ [secondSubmitted,.body .disconnectTip_].inits,
      (runSteps externals context noProof minedSteps).connected <:+
        (runSteps externals context noProof (minedSteps ++ taken)).connected := by decide +kernel
  have two : (runSteps externals context noProof (minedSteps ++ [secondSubmitted])).connected.length = 2 := by decide +kernel
  obtain ⟨c,isChain,isHeader⟩ := List.map_eq_singleton_iff.mp chain
  have stays (taken : List ChainStep) (isPrefix : taken <+: [secondSubmitted,.body .disconnectTip_]) :
      [c] <:+ (runSteps externals context noProof (minedSteps ++ taken)).connected := by
    rw [← isChain]
    exact kept taken ((List.mem_inits _ _).mpr isPrefix)
  obtain ⟨above,isAbove⟩ := stays [secondSubmitted] (List.prefix_append [secondSubmitted] [.body .disconnectTip_])
  rw [← isAbove,List.length_append,List.length_singleton] at two
  obtain ⟨second,rfl⟩ := List.length_eq_one_iff.mp (Nat.succ.inj two)
  exact ⟨c,isHeader,⟨second,isAbove.symm⟩,indexStaysPut minedSubmitted stays⟩

end Reference

end Runs

end Coinshift.NetTask
