import Coinshift.AncestorLookup
import Coinshift.NetLoop
import Coinshift.Reorg
import Coinshift.SyncReach
import Coinshift.TemplateParent
import Coinshift.Walks

/-! The active chain: the blocks that are connected, and how a reorganisation changes them.
A reorganisation disconnects some of them and connects the stored blocks up to its new tip; whatever is kept by the
connection of one block is kept by the whole loop. -/
namespace Coinshift
open Checked Lineage

variable {F : Type} {lib : Externals F} {world : World}

namespace Archive

variable {archive archive' : Archive F} {b c : BlockHash} {m : MainHash} {h : Nat}

def sideNext (archive : Archive F) (b : BlockHash) : Except ArchiveError (Option BlockHash) :=
  (archive.getHeader b).map (·.prevSideHash)

def mainNext (archive : Archive F) (m : MainHash) : Except ArchiveError (Option MainHash) :=
  (archive.getMainHeaderInfo m).map (fun info => mainBlock info.prevBlockHash)

theorem sideNextOk {following : Option BlockHash} : archive.sideNext b = .ok following ↔
    ∃ header, archive.headers.tryGet b = some header ∧ header.prevSideHash = following := by
  simp only [sideNext,getHeader,mapOk,okOrOk]

theorem mainNextOk {following : Option MainHash} : archive.mainNext m = .ok following ↔
    ∃ info, archive.mainHeaderInfos.tryGet m = some info ∧ mainBlock info.prevBlockHash = following := by
  simp only [mainNext,getMainHeaderInfo,mapOk,okOrOk]

theorem SideTree.leads (sides : SideTree lib world archive) : archive.links.Leads archive.sideNext := by
  constructor
  · intro b known
    obtain ⟨header,stored⟩ := sides.heights.only (heightOk.mp known)
    obtain ⟨h,height,count⟩ := sides.heights.counted stored
    cases (heightOk.mp known).symm.trans height
    rcases sideCounts count with ⟨first,_⟩ | ⟨p,k,_,_,positive⟩
    · exact sideNextOk.mpr ⟨header,stored,first⟩
    · cases positive
  · intro b h p _ isParent
    obtain ⟨header,stored,isPrev⟩ := parentOk.mp isParent
    exact sideNextOk.mpr ⟨header,stored,isPrev⟩

theorem MainTree.leads (tree : MainTree world archive) : archive.mainLinks.Leads archive.mainNext := by
  constructor
  · intro m known
    obtain ⟨info,stored⟩ := tree.heights.only (mainHeightOk.mp known)
    obtain ⟨h,height,count⟩ := tree.heights.counted stored
    cases (mainHeightOk.mp known).symm.trans height
    rcases mainCounts count with ⟨zero,_⟩ | ⟨k,_,_,positive⟩
    · exact mainNextOk.mpr ⟨info,stored,mainBlockNone.mpr zero⟩
    · cases positive
  · intro m h p known isParent
    obtain ⟨info,stored,rfl⟩ := mainParentOk.mp isParent
    obtain ⟨h',height,count⟩ := tree.heights.counted stored
    cases (mainHeightOk.mp known).symm.trans height
    rcases mainCounts count with ⟨_,none⟩ | ⟨k,nonZero,_,_⟩
    · cases none
    · exact mainNextOk.mpr ⟨info,stored,mainBlockSome.mpr ⟨nonZero,rfl⟩⟩

theorem Grown.mainWalk (grown : Grown archive archive') {start : Option MainHash} {line : List MainHash}
    (walk : Walk archive.mainNext start line) : Walk archive'.mainNext start line := by
  induction walk with
  | ended => exact .ended
  | step isNext _ ih =>
      obtain ⟨info,stored,isPrev⟩ := mainNextOk.mp isNext
      exact .step (mainNextOk.mpr ⟨info,grown.mainHeaders _ _ stored,isPrev⟩) ih

theorem MainTree.walkOn (tree : MainTree world archive) {line : List MainHash} (walk : Walk archive.mainNext (some m) line) :
    ∃ h, archive.mainLinks.height m = .ok h ∧ line.length = h + 1 ∧ ∀ n, n ∈ line ↔ archive.mainLinks.Descends n m := by
  obtain ⟨info,stored⟩ : ∃ info, archive.mainHeaderInfos.tryGet m = some info := by
    cases walk with
    | step isNext _ =>
        obtain ⟨info,stored,_⟩ := mainNextOk.mp isNext
        exact ⟨info,stored⟩
  obtain ⟨h,height,_⟩ := tree.heights.counted stored
  have known := mainHeightOk.mpr height
  obtain ⟨whole,isWhole,length,ancestors⟩ := tree.sound.walk tree.leads known
  cases walk.unique isWhole
  exact ⟨h,known,length,ancestors⟩

/- The headers bound the walk, so its lazy form keeps what comes before the first block to stop at. -/
theorem MainTree.ancestorsKept {β : Type} (tree : MainTree world archive) {line : List MainHash}
    (walk : Walk archive.mainNext (mainBlock m) line) (stop : MainHash → Bool) (g : MainHash → Option β) :
    archive.mainAncestorsUntil stop (fun m => .ok (g m)) m =
      .ok ((line.takeWhile (fun m => !stop m)).filterMap g) := by
  have short : line.length ≤ archive.mainHeaderInfos.entries.length := by
    cases isStart : mainBlock m with
    | none =>
        rw [isStart] at walk
        cases walk
        exact Nat.zero_le _
    | some start =>
        rw [isStart] at walk
        obtain ⟨h,known,length,_⟩ := tree.walkOn walk
        rw [length]
        exact tree.heightBound known
  exact walk.kept short (fun _ _ => rfl)

end Archive

namespace NetTask
open Archive

variable {ctxt : BatchVerificationContext} {prove : F → List Hash → Except Text UtreexoProof} {rpc : BlockHash → RpcReplies}
  {db db' : Db F} {header : Header} {body : Body} {data : TwoWayPegData}

section Chain

inductive OnTop (lib : Externals F) : List Connected → Option BlockHash → Prop
  | empty : OnTop lib [] none
  | next {c below tip} (rest : OnTop lib below tip) (parent : c.header.prevSideHash = tip) :
      OnTop lib (c :: below) (some (c.header.hash lib))

/- The connected blocks are the chain below the tip, as high as the state has it, and their headers are stored. -/
structure Active (lib : Externals F) (world : World) (db : Db F) : Prop where
  trees : db.archive.Trees lib world
  chain : OnTop lib db.connected db.state.tip
  height : db.state.nextHeight = db.connected.length
  stored : ∀ c ∈ db.connected, db.archive.headers.tryGet (c.header.hash lib) = some c.header

theorem Active.tipStored (active : Active lib world db) {c : Connected} {below : List Connected}
    (isTop : db.connected = c :: below) : db.state.tip = some (c.header.hash lib) ∧
      db.archive.headers.tryGet (c.header.hash lib) = some c.header ∧ db.state.height = some below.length := by
  have chain := active.chain
  have height := active.height
  have stored := active.stored c (by rw [isTop]; exact List.mem_cons_self)
  rw [isTop] at chain height
  refine ⟨?_,stored,?_⟩
  · generalize db.state.tip = tip at chain
    cases chain
    rfl
  · rw [State.nextHeight,List.length_cons] at height
    cases isHeight : db.state.height with
    | none =>
        rw [isHeight] at height
        cases height
    | some h =>
        rw [isHeight] at height
        exact congrArg some (Nat.succ.inj height)

theorem Active.noTip (active : Active lib world db) : db.state.tip = none ↔ db.connected = [] := by
  have chain := active.chain
  constructor
  · intro none
    rw [none] at chain
    cases isList : db.connected with
    | nil => rfl
    | cons c below =>
        rw [isList] at chain
        cases chain
  · intro empty
    rw [empty] at chain
    generalize db.state.tip = tip at chain
    cases chain
    rfl

/- The connected blocks are the walk back from the tip, so none comes twice. -/
theorem Active.walk (active : Active lib world db) :
    Walk db.archive.sideNext db.state.tip (db.connected.map (·.header.hash lib)) := by
  have stored := active.stored
  have chain := active.chain
  generalize db.connected = connected at stored chain
  generalize db.state.tip = tip at chain
  induction chain with
  | empty => exact .ended
  | @next c below tip rest parent ih =>
      exact .step (sideNextOk.mpr ⟨c.header,stored c List.mem_cons_self,parent⟩)
        (ih (fun d mem => stored d (List.mem_cons_of_mem c mem)))

theorem Active.learn (active : Active lib world db) {archive : Archive F} (trees : archive.Trees lib world)
    (grown : db.archive.Grown archive) : Active lib world { db with archive } :=
  ⟨trees,active.chain,active.height,fun c mem => grown.headers _ _ (active.stored c mem)⟩

theorem ConnectTipSource.stored {rpc : RpcReplies} (source : ConnectTipSource lib ctxt db header body data rpc db') :
    db'.archive.headers.tryGet (header.hash lib) = some header := by
  obtain ⟨stored,kept,isHeader,isBody,isArchive⟩ := source.archive
  obtain ⟨_,tips,rfl⟩ := putBodyFrame isBody
  rw [isArchive]
  show stored.headers.tryGet (header.hash lib) = some header
  rw [putHeaderHeaders isHeader,Table.tryGetPutSelf]

theorem ConnectTipSource.grown {rpc : RpcReplies} (source : ConnectTipSource lib ctxt db header body data rpc db')
    (trees : db.archive.Trees lib world) (names : header = world.header (header.hash lib)) :
    db'.archive.Trees lib world ∧ db.archive.Grown db'.archive := by
  obtain ⟨stored,kept,isHeader,isBody,isArchive⟩ := source.archive
  have first := trees.putHeader names isHeader
  have second := first.putBody isBody
  have named : ArchiveOp.Names lib world (.putBody (header.hash lib) body) := trivial
  have grown := (trees.addsHeader names isHeader).grown.trans (first.stepGrown named isBody)
  rw [isArchive]
  exact ⟨second.putAccumulator,grown.trans .bodies⟩

theorem Active.connect {rpc : RpcReplies} (active : Active lib world db) (names : header = world.header (header.hash lib))
    (source : ConnectTipSource lib ctxt db header body data rpc db') :
    Active lib world db' ∧ header.prevSideHash = db.state.tip ∧ db'.state.height = some db.connected.length := by
  obtain ⟨trees,grown⟩ := source.grown active.trees names
  obtain ⟨middle,connected,pegs⟩ := source.state
  obtain ⟨pre,block⟩ := connectBlockSource connected
  have height : db'.state.height = some db.connected.length := by
    rw [(connectPegSource pegs).height,block.connected.height,active.height]
  refine ⟨⟨trees,?_,?_,fun c mem => ?_⟩,block.validated.parent,height⟩
  · rw [source.connected,source.tip]
    exact .next active.chain block.validated.parent
  · rw [State.nextHeight,height,source.connected]
    rfl
  · rw [source.connected] at mem
    rcases List.mem_cons.mp mem with rfl | earlier
    · exact source.stored
    · exact grown.headers _ _ (active.stored c earlier)

theorem Active.disconnectBlock {s : State F} (active : Active lib world db) {tip : BlockHash}
    (isTip : db.state.tip = some tip) (isHeader : db.archive.headers.tryGet tip = some header)
    (previous : ∃ height, db.state.height = some height ∧ previousTip header height = .ok (s.tip,s.height)) :
    ∃ c below, db.connected = c :: below ∧ c.header = header ∧ header.hash lib = tip ∧
      Active lib world { db with state := s, connected := below } := by
  have own := (active.trees.sides.named isHeader).2
  cases isList : db.connected with
  | nil =>
      rw [active.noTip.mpr isList] at isTip
      cases isTip
  | cons c below =>
      obtain ⟨isTop,stored,isHeight⟩ := active.tipStored isList
      cases isTop.symm.trans isTip
      cases stored.symm.trans isHeader
      obtain ⟨height,heightIs,back⟩ := previous
      cases isHeight.symm.trans heightIs
      have chain := active.chain
      rw [isList,isTip] at chain
      obtain ⟨isPrevious,heights⟩ := previousTipOk.mp back
      refine ⟨c,below,rfl,rfl,rfl,active.trees,?_,?_,fun d mem => active.stored d (by rw [isList]; exact List.mem_cons_of_mem c mem)⟩
      · cases chain with
        | next rest parent =>
            show OnTop lib below s.tip
            rw [isPrevious,parent]
            exact rest
      · show s.nextHeight = below.length
        rcases heights with ⟨_,zero,none⟩ | ⟨_,k,positive,some⟩
        · rw [State.nextHeight,none,zero]
        · rw [State.nextHeight,some,positive]

theorem Active.disconnect (active : Active lib world db) (done : disconnectTip_ lib prove db = .ok db') :
    ∃ c below body, db.connected = c :: below ∧ db'.connected = below ∧ DisconnectTipSource lib db c.header body db' ∧
      Active lib world db' := by
  obtain ⟨header,body,source⟩ := disconnectTipSource done
  obtain ⟨tip,isTip,isHeader,_⟩ := source.stored
  obtain ⟨height,data,middle,last,accumulator,isHeight,_,pegs,block,_,isState⟩ := source.state
  have still := disconnectPegSource pegs
  obtain ⟨height',isHeight',back⟩ := (disconnectSource block).previous
  obtain ⟨c,below,isList,rfl,_,continues⟩ := active.disconnectBlock (s := db'.state) isTip isHeader
    ⟨height',still.height.symm.trans isHeight',by rw [isState]; exact back⟩
  have isBelow : db'.connected = below := by rw [source.connected,isList]; rfl
  refine ⟨c,below,body,isList,isBelow,source,?_⟩
  have same : db' = { db with state := db'.state, connected := below, mempool := db'.mempool } := by
    rw [← isBelow,← source.archive]
  rw [same]
  exact ⟨continues.trees,continues.chain,continues.height,continues.stored⟩

theorem Active.disconnects {count : Nat} (active : Active lib world db) (done : disconnectTips lib prove db count = .ok db') :
    Active lib world db' ∧ db'.connected <:+ db.connected := by
  induction count generalizing db with
  | zero =>
      cases done
      exact ⟨active,List.suffix_rfl⟩
  | succ count ih =>
      simp only [disconnectTips,bindOk] at done
      obtain ⟨middle,first,rest⟩ := done
      obtain ⟨c,below,_,isTop,isBelow,_,continues⟩ := active.disconnect first
      obtain ⟨ends,isSuffix⟩ := ih continues rest
      refine ⟨ends,isSuffix.trans ?_⟩
      rw [isTop,isBelow]
      exact List.suffix_cons c below

end Chain

section Loop

variable {committed working next : Db F} {batch : List (Hash × List BlockEvent)} {block : Block} {blocks : List Block}
  {newTip : Tip}

def connectRound (lib : Externals F) (ctxt : BatchVerificationContext) (prove : F → List Hash → Except Text UtreexoProof)
    (rpc : BlockHash → RpcReplies) (working : Db F) (batch : List (Hash × List BlockEvent)) (block : Block) :
    Except NodeError (Db F) :=
  connectTip_ lib ctxt prove working block.1 block.2 ⟨(fillTwoWayPegData block.1.prevMainHash batch).1⟩
    (rpc (block.1.hash lib))

/- What holds of the committed database and the open transaction in every round of the loop, and what follows for the
database that is left: `P` says it with the data and the blocks still to come, `Q` of a database alone. -/
structure LoopRule (lib : Externals F) (ctxt : BatchVerificationContext) (prove : F → List Hash → Except Text UtreexoProof)
    (rpc : BlockHash → RpcReplies) (P : Db F → Db F → List (Hash × List BlockEvent) → List Block → Prop)
    (Q : Db F → Prop) : Prop where
  connect : ∀ {committed working next batch block blocks}, P committed working batch (block :: blocks) →
    connectRound lib ctxt prove rpc working batch block = .ok next →
    P committed next (fillTwoWayPegData block.1.prevMainHash batch).2 blocks
  commit : ∀ {committed working batch blocks}, P committed working batch blocks → P working working batch blocks
  holds : ∀ {committed working batch blocks}, P committed working batch blocks → Q committed
  discard : ∀ {committed working batch block blocks err}, P committed working batch (block :: blocks) →
    connectRound lib ctxt prove rpc working batch block = .error err → Q (discardBody committed (block.1.hash lib) err).1

variable {P : Db F → Db F → List (Hash × List BlockEvent) → List Block → Prop} {Q : Db F → Prop}

theorem LoopRule.applyBlocks (rule : LoopRule lib ctxt prove rpc P Q) (tip : Option Tip) (start : P committed working batch blocks) :
    Q (NetTask.applyBlocks lib ctxt prove tip rpc committed working batch blocks).1 ∧
      ∀ last, (NetTask.applyBlocks lib ctxt prove tip rpc committed working batch blocks).2 = .ok last → Q last := by
  induction blocks generalizing committed working batch with
  | nil =>
      refine ⟨rule.holds start,fun last isLast => ?_⟩
      cases isLast
      exact rule.holds (rule.commit start)
  | cons block blocks ih =>
      unfold NetTask.applyBlocks
      dsimp only
      split
      · next err failed =>
          refine ⟨rule.discard start failed,fun last isLast => ?_⟩
          cases isLast
      · next next connected =>
          have continues := rule.connect start connected
          split
          · refine ⟨rule.holds start,fun last isLast => ?_⟩
            cases isLast
          · exact ih (rule.commit continues)
          · exact ih continues

def Preferred (db : Db F) (newTip : Tip) : Prop :=
  ∃ tip, stateTip db = .ok tip ∧ isBetter db.archive tip newTip = .ok true

theorem LoopRule.reorg (rule : LoopRule lib ctxt prove rpc P Q) (stays : Q db)
    (starts : ∀ reorg ancestor head count, ReorgStart lib prove db newTip reorg ancestor head count →
      P db reorg.working reorg.batch reorg.blocks) : Q (reorgToTip lib ctxt prove db newTip rpc).1 := by
  unfold reorgToTip
  cases started : startReorg lib prove db newTip with
  | error err => exact stays
  | ok plan =>
      cases plan with
      | none => exact stays
      | some reorg =>
          obtain ⟨ancestor,head,count,source⟩ := startReorgOk started
          have ends := rule.applyBlocks reorg.tip (starts reorg ancestor head count source)
          dsimp only
          cases applied : NetTask.applyBlocks lib ctxt prove reorg.tip rpc db reorg.working reorg.batch reorg.blocks with
          | mk left result =>
              rw [applied] at ends
              cases result with
              | error err => exact ends.1
              | ok working =>
                  dsimp only
                  split
                  · exact ends.2 working rfl
                  · exact ends.1

end Loop

section Blocks

variable {archive : Archive F} {newTip : Tip} {ancestor : Option BlockHash} {blocks : List Block}

def StoredBlock (archive : Archive F) (b : BlockHash) (block : Block) : Prop :=
  archive.headers.tryGet b = some block.1 ∧ archive.bodies.tryGet b = some block.2

theorem getBlockOk {b : BlockHash} {block : Block} : getBlock archive b = .ok block ↔ StoredBlock archive b block := by
  simp only [getBlock,Archive.getHeader,Archive.getBody,bindOk,okOrOk,pureOk]
  constructor
  · intro read
    obtain ⟨header,stored,body,has,rfl⟩ := read
    exact ⟨stored,has⟩
  · intro stored
    obtain ⟨header,body⟩ := block
    exact ⟨header,stored.1,body,stored.2,rfl⟩

theorem storedBlocks (sides : archive.SideTree lib world) {line : List BlockHash}
    (read : List.Forall₂ (StoredBlock archive) line blocks) :
    blocks.map (·.1.hash lib) = line ∧ ∀ block ∈ blocks, StoredBlock archive (block.1.hash lib) block := by
  induction read with
  | nil => exact ⟨rfl,fun block mem => absurd mem List.not_mem_nil⟩
  | @cons b block line blocks stored _ ih =>
      obtain ⟨_,rfl⟩ := sides.named stored.1
      refine ⟨congrArg _ ih.1,fun other mem => ?_⟩
      rcases List.mem_cons.mp mem with rfl | later
      · exact stored
      · exact ih.2 other later

theorem blocksRead (sides : archive.SideTree lib world) (ok : blocksToApply archive ancestor newTip = .ok blocks) :
    ∃ line, Walk archive.sideNext (some newTip.blockHash) (newTip.blockHash :: line) ∧
      blocks.map (·.1.hash lib) = newTip.blockHash :: line.takeWhile (fun b => !decide (some b = ancestor)) ∧
      ∀ block ∈ blocks, StoredBlock archive (block.1.hash lib) block := by
  simp only [blocksToApply,bindOk,getBlockOk] at ok
  obtain ⟨head,isHead,ok⟩ := ok
  obtain ⟨h,height,_⟩ := sides.heights.counted isHead.1
  obtain ⟨whole,walk,_⟩ := sides.sound.walk sides.leads (heightOk.mpr height)
  cases walk with
  | @step b following line isNext walked =>
      refine ⟨line,.step isNext walked,storedBlocks sides ?_⟩
      obtain ⟨header,stored,rfl⟩ := sideNextOk.mp isNext
      cases isHead.1.symm.trans stored
      cases first : head.1.prevSideHash with
      | none =>
          rw [first] at walked ok
          cases walked
          cases ok
          exact .cons isHead .nil
      | some p =>
          rw [first] at walked ok
          simp only [bindOk,pureOk] at ok
          obtain ⟨tail,isTail,rfl⟩ := ok
          exact .cons isHead ((walked.gathered isTail).imp (fun _ _ => getBlockOk.mp))

theorem stateTipOk {tip : Option Tip} (isTip : stateTip db = .ok tip) : tip.map (·.blockHash) = db.state.tip := by
  unfold stateTip at isTip
  cases stateIs : db.state.tip with
  | none =>
      rw [stateIs] at isTip
      cases isTip
      rfl
  | some b =>
      rw [stateIs] at isTip
      simp only [bindOk,pureOk] at isTip
      obtain ⟨mainBlockHash,_,rfl⟩ := isTip
      rfl

theorem Active.tipKnown (active : Active lib world db) {tip : BlockHash} (isTip : db.state.tip = some tip) :
    ∃ h, db.archive.links.height tip = .ok h := by
  cases isList : db.connected with
  | nil =>
      rw [active.noTip.mpr isList] at isTip
      cases isTip
  | cons c below =>
      obtain ⟨isTop,stored,_⟩ := active.tipStored isList
      cases isTop.symm.trans isTip
      obtain ⟨h,height,_⟩ := active.trees.sides.heights.counted stored
      exact ⟨h,heightOk.mpr height⟩

theorem Active.ancestors (active : Active lib world db) {tip b : BlockHash} (isTip : db.state.tip = some tip) :
    b ∈ db.connected.map (·.header.hash lib) ↔ db.archive.links.Descends b tip := by
  have walk := active.walk
  obtain ⟨h,height⟩ := active.tipKnown isTip
  obtain ⟨line,isLine,_,ancestors⟩ := active.trees.sides.sound.walk active.trees.sides.leads height
  rw [isTip] at walk
  rw [walk.unique isLine]
  exact ancestors b

structure Fresh (lib : Externals F) (db : Db F) (blocks : List Block) : Prop where
  stored : ∀ block ∈ blocks, StoredBlock db.archive (block.1.hash lib) block
  distinct : (blocks.map (·.1.hash lib)).Nodup
  other : ∀ block ∈ blocks, block.1.hash lib ∉ db.connected.map (·.header.hash lib)

variable {reorg : Reorg F} {head : Header} {count : Nat}

structure Meets (lib : Externals F) (db : Db F) (newTip : Tip) (ancestor : Option BlockHash) : Prop where
  highest : ∀ x, ancestor = some x → ∃ tip, db.state.tip = some tip ∧ db.archive.links.HighestCommon x tip newTip.blockHash
  apart : ancestor = none → ∀ b ∈ db.connected.map (·.header.hash lib), ¬ db.archive.links.Descends b newTip.blockHash

theorem ReorgStart.meets (start : ReorgStart lib prove db newTip reorg ancestor head count) (active : Active lib world db) :
    Meets lib db newTip ancestor := by
  have isTip := stateTipOk start.tip
  have common := start.common
  have sides := active.trees.sides
  cases tipIs : reorg.tip with
  | none =>
      rw [tipIs] at isTip common
      cases common
      constructor
      · intro x isSome
        cases isSome
      · intro _ b mem
        rw [active.noTip.mp isTip.symm] at mem
        cases mem
  | some tip =>
      rw [tipIs] at isTip common
      obtain ⟨h,height⟩ := active.tipKnown isTip.symm
      obtain ⟨h',height',_⟩ := sides.heights.counted start.isHead
      obtain ⟨result,isResult,highest,none⟩ := lastCommonTotal sides.sound height (heightOk.mpr height')
      cases common.symm.trans isResult
      refine ⟨fun x isSome => ⟨tip.blockHash,isTip.symm,highest x isSome⟩,fun isNone b mem descends => ?_⟩
      exact none.mp isNone ⟨b,(active.ancestors isTip.symm).mp mem,descends⟩

theorem ReorgStart.fresh (start : ReorgStart lib prove db newTip reorg ancestor head count) (active : Active lib world db)
    (apart : newTip.blockHash ∉ db.connected.map (·.header.hash lib)) : Fresh lib db reorg.blocks := by
  have sides := active.trees.sides
  have meets := start.meets active
  obtain ⟨line,walk,isLine,stored⟩ := blocksRead sides start.blocks
  have distinct : (newTip.blockHash :: line.takeWhile (fun b => !decide (some b = ancestor))).Nodup :=
    walk.nodup.sublist (.cons_cons _ (List.takeWhile_sublist _))
  refine ⟨fun block mem => stored block (List.mem_reverse.mpr mem),?_,fun block mem => ?_⟩
  · rw [← List.nodup_reverse,← List.map_reverse,isLine]
    exact distinct
  · have inside : block.1.hash lib ∈ newTip.blockHash :: line.takeWhile (fun b => !decide (some b = ancestor)) := by
      rw [← isLine]
      exact List.mem_map_of_mem (List.mem_reverse.mpr mem)
    rcases List.mem_cons.mp inside with same | below
    · rw [same]
      exact apart
    · cases ancestor with
      | none =>
          obtain ⟨h,height,_⟩ := sides.heights.counted start.isHead
          obtain ⟨whole,isWhole,_,ancestors⟩ := sides.sound.walk sides.leads (heightOk.mpr height)
          have descends := (ancestors (block.1.hash lib)).mp
            (walk.unique isWhole ▸ List.mem_cons_of_mem _ (List.takeWhile_subset _ below))
          exact fun connected => meets.apart rfl _ connected descends
      | some x =>
          obtain ⟨tip,isTip,highest⟩ := meets.highest x rfl
          have other : newTip.blockHash ≠ x := by
            intro same
            exact apart ((active.ancestors isTip).mpr (same ▸ highest.left))
          rw [active.ancestors isTip]
          refine highest.apart (fun b => decide (some b = some x)) sides.sound sides.leads walk (decide_eq_true rfl) ?_
          rw [List.takeWhile_cons,decide_eq_false (fun same => other (Option.some.inj same))]
          exact inside

end Blocks

end NetTask

end Coinshift
