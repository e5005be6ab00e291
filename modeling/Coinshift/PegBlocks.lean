import Coinshift.ActiveChain
import Coinshift.AncestorLookup

/-! The main-chain blocks that each block of the active chain was connected with.
They are those after the main-chain block its parent names, up to the one it names itself: a reorganisation reads them
all at once and deals them out. -/
namespace Coinshift.NetTask
open Checked Lineage Archive

variable {F : Type} {lib : Externals F} {ctxt : BatchVerificationContext}
  {prove : F → List Hash → Except Text UtreexoProof} {rpc : BlockHash → RpcReplies} {world : World}
  {db db' : Db F} {archive archive' : Archive F} {line below own belowLine : List MainHash} {header : Header} {body : Body}
  {data : TwoWayPegData}

section Given

def eventsOf (world : World) (m : MainHash) : Hash × List BlockEvent := (m,(world.mainInfo m).events)

def Complete (archive : Archive F) : Prop :=
  ∀ m, (archive.mainHeaderInfos.tryGet m).isSome = true → (archive.mainBlockInfos.tryGet m).isSome = true

def namedMain (connected : List Connected) : Option MainHash := connected.head?.map (·.header.prevMainHash)

inductive Given (world : World) (archive : Archive F) : List Connected → Prop
  | empty : Given world archive []
  | next {c rest own below} (earlier : Given world archive rest) (isBelow : Walk archive.mainNext (namedMain rest) below)
      (isLine : Walk archive.mainNext (some c.header.prevMainHash) (own ++ below))
      (data : c.twoWayPegData.blockInfo = (own.map (eventsOf world)).reverse) : Given world archive (c :: rest)

theorem Given.grow {connected : List Connected} (given : Given world archive connected) (grown : Grown archive archive') :
    Given world archive' connected := by
  induction given with
  | empty => exact .empty
  | next _ isBelow isLine data ih => exact .next ih (grown.mainWalk isBelow) (grown.mainWalk isLine) data

structure Fed (lib : Externals F) (world : World) (db : Db F) : Prop extends Active lib world db where
  complete : Complete db.archive
  given : Given world db.archive db.connected

theorem mainWalkStored {start : Option MainHash} (walk : Walk archive.mainNext start line) {m : MainHash} (mem : m ∈ line) :
    ∃ info, archive.mainHeaderInfos.tryGet m = some info := by
  obtain ⟨front,back,rfl⟩ := List.append_of_mem mem
  cases walk.suffix with
  | step isNext _ =>
      obtain ⟨info,stored,_⟩ := mainNextOk.mp isNext
      exact ⟨info,stored⟩

theorem walkEvents {start : Option MainHash} (infos : archive.InfosKept world) (complete : Complete archive)
    (walk : Walk archive.mainNext start line) {m : MainHash} (mem : m ∈ line) :
    blockEvents archive m = some (eventsOf world m) := by
  obtain ⟨info,stored⟩ := mainWalkStored walk mem
  obtain ⟨blockInfo,found⟩ := Option.isSome_iff_exists.mp (complete m (by rw [stored]; rfl))
  rw [blockEvents,found,infos.named found]
  rfl

theorem filterMapAll {α β : Type} {f : α → Option β} {g : α → β} {xs : List α} (all : ∀ x ∈ xs, f x = some (g x)) :
    xs.filterMap f = xs.map g := by
  induction xs with
  | nil => rfl
  | cons x xs ih =>
      rw [List.filterMap_cons,all x List.mem_cons_self,ih (fun y mem => all y (List.mem_cons_of_mem x mem))]
      rfl

theorem fillAt {p : MainHash} {events : List BlockEvent} {first rest : List (Hash × List BlockEvent)}
    (other : ∀ x ∈ first, x.1 ≠ p) :
    fillTwoWayPegData p (first ++ (p,events) :: rest) = (first ++ [(p,events)],rest) := by
  induction first with
  | nil => exact if_pos rfl
  | cons x first ih =>
      rw [List.cons_append,fillTwoWayPegData,if_neg (other x List.mem_cons_self),
        ih (fun y mem => other y (List.mem_cons_of_mem x mem))]
      rfl

theorem Fed.learn (fed : Fed lib world db) (trees : archive.Trees lib world) (grown : db.archive.Grown archive)
    (complete : Complete archive) : Fed lib world { db with archive } :=
  ⟨fed.toActive.learn trees grown,complete,fed.given.grow grown⟩

theorem ConnectTipSource.mains {header : Header} {body : Body} {data : TwoWayPegData} {replies : RpcReplies}
    (source : ConnectTipSource lib ctxt db header body data replies db') :
    db'.archive.mainHeaderInfos = db.archive.mainHeaderInfos ∧ db'.archive.mainBlockInfos = db.archive.mainBlockInfos := by
  obtain ⟨stored,kept,isHeader,isBody,isArchive⟩ := source.archive
  obtain ⟨_,tips,rfl⟩ := putBodyFrame isBody
  obtain ⟨_,_,_,_,_,_,_,_,_,_,rfl⟩ := (putHeaderSource isHeader).result
  rw [isArchive]
  exact ⟨rfl,rfl⟩

theorem Fed.connect {replies : RpcReplies} (fed : Fed lib world db) (names : header = world.header (header.hash lib))
    (isBelow : Walk db.archive.mainNext (namedMain db.connected) belowLine)
    (isLine : Walk db.archive.mainNext (some header.prevMainHash) (own ++ belowLine))
    (isData : data.blockInfo = (own.map (eventsOf world)).reverse)
    (source : ConnectTipSource lib ctxt db header body data replies db') : Fed lib world db' := by
  obtain ⟨active,_⟩ := fed.toActive.connect names source
  have grown := (source.grown fed.trees names).2
  refine ⟨active,fun m has => ?_,?_⟩
  · rw [source.mains.1] at has
    rw [source.mains.2]
    exact fed.complete m has
  · rw [source.connected]
    exact .next (fed.given.grow grown) (grown.mainWalk isBelow) (grown.mainWalk isLine) isData

theorem Fed.disconnect (fed : Fed lib world db) (done : disconnectTip_ lib prove db = .ok db') :
    ∃ c below body, db.connected = c :: below ∧ db'.connected = below ∧ DisconnectTipSource lib db c.header body db' ∧
      Fed lib world db' := by
  obtain ⟨c,below,body,isTop,isBelow,source,active⟩ := fed.toActive.disconnect done
  refine ⟨c,below,body,isTop,isBelow,source,active,?_,?_⟩
  · rw [source.archive]
    exact fed.complete
  · have given := fed.given
    rw [isTop] at given
    rw [source.archive,isBelow]
    cases given with
    | next earlier => exact earlier

end Given

section Reorg

variable {base : Archive F} {headMain : MainHash} {newTip : Tip} {batch : List (Hash × List BlockEvent)}
  {blocks : List Block} {block : Block} {working later : Db F}

def Coming (world : World) (base : Archive F) (headMain : MainHash) (connected : List Connected)
    (batch : List (Hash × List BlockEvent)) : Prop :=
  ∃ front below, Walk base.mainNext (some headMain) (front ++ below) ∧ Walk base.mainNext (namedMain connected) below ∧
    batch = (front.map (eventsOf world)).reverse

structure Target (lib : Externals F) (world : World) (base : Archive F) (newTip : Tip) (head : Header) : Prop where
  trees : base.Trees lib world
  committed : ∃ v, base.Committed newTip.blockHash v
  stored : base.headers.tryGet newTip.blockHash = some head
  named : ∀ c header, base.links.Descends c newTip.blockHash → base.headers.tryGet c = some header →
    header.prevMainHash ≠ MainHash.allZeros

variable {head : Header}

/- The open transaction in the loop of a reorganisation, relative to the archive at its start. -/
structure Dealing (lib : Externals F) (world : World) (base : Archive F) (newTip : Tip) (head : Header) (working : Db F)
    (batch : List (Hash × List BlockEvent)) (blocks : List Block) : Prop extends Fed lib world working where
  grown : base.Grown working.archive
  coming : Coming world base head.prevMainHash working.connected batch
  tipOn : ∀ c ∈ working.connected.head?, base.links.Descends (c.header.hash lib) newTip.blockHash ∧
    base.headers.tryGet (c.header.hash lib) = some c.header
  blocksOn : ∀ block ∈ blocks, base.links.Descends (block.1.hash lib) newTip.blockHash ∧
    base.headers.tryGet (block.1.hash lib) = some block.1

theorem Target.namedOn (target : Target lib world base newTip head) {b : BlockHash} {header : Header}
    (onChain : base.links.Descends b newTip.blockHash) (stored : base.headers.tryGet b = some header) :
    (∃ k, base.mainLinks.height header.prevMainHash = .ok k) ∧
      base.mainLinks.Descends header.prevMainHash head.prevMainHash := by
  obtain ⟨v,committed⟩ := target.committed
  obtain ⟨n,isCommitted⟩ := target.trees.committedOn committed onChain
  obtain ⟨own,commits,_⟩ := isCommitted.commits
  cases stored.symm.trans commits.stored
  obtain ⟨k,known⟩ := target.trees.main.namedKnown commits (target.named b header onChain stored)
  exact ⟨⟨k,known⟩,target.trees.namedAbove committed target.stored onChain stored known⟩

theorem Target.namedAfter (target : Target lib world base newTip head) {b p : BlockHash} {header parent : Header}
    (onChain : base.links.Descends b newTip.blockHash) (stored : base.headers.tryGet b = some header)
    (isParent : header.prevSideHash = some p) (parentStored : base.headers.tryGet p = some parent) :
    ¬ base.mainLinks.Descends header.prevMainHash parent.prevMainHash := by
  intro before
  have sound := target.trees.sides.sound
  have above := target.trees.sides.parentOn stored isParent
  obtain ⟨v,committed⟩ := target.committed
  obtain ⟨n,isCommitted⟩ := target.trees.committedOn committed onChain
  obtain ⟨⟨k,known⟩,_⟩ := target.namedOn (sound.descentTrans above onChain) parentStored
  have after := target.trees.namedAbove isCommitted stored above parentStored known
  have same := target.trees.main.sound.descentAntisymm after before
  have isOne := namesOnce target.trees isCommitted stored above parentStored same
  exact target.trees.sides.parentOther stored (isOne ▸ isParent)

theorem Target.deal (target : Target lib world base newTip head) {connected : List Connected} {header : Header} {tip : Option BlockHash}
    (coming : Coming world base head.prevMainHash connected batch) (chain : OnTop lib connected tip)
    (onChain : base.links.Descends (header.hash lib) newTip.blockHash)
    (stored : base.headers.tryGet (header.hash lib) = some header) (isParent : header.prevSideHash = tip)
    (tipStored : ∀ c ∈ connected.head?, base.headers.tryGet (c.header.hash lib) = some c.header) :
    ∃ own later below, Walk base.mainNext (namedMain connected) below ∧
      Walk base.mainNext (some header.prevMainHash) (own ++ below) ∧
      Walk base.mainNext (some head.prevMainHash) (later ++ (own ++ below)) ∧
      fillTwoWayPegData header.prevMainHash batch = ((own.map (eventsOf world)).reverse,(later.map (eventsOf world)).reverse) := by
  obtain ⟨front,below,isLine,isBelow,rfl⟩ := coming
  obtain ⟨⟨k,known⟩,namedOn⟩ := target.namedOn onChain stored
  have sound := target.trees.main.sound
  obtain ⟨h,_,headKnown,_⟩ := id namedOn
  obtain ⟨line,walk,_,ancestors⟩ := sound.walk target.trees.main.leads headKnown
  have inside := (ancestors _).mpr namedOn
  rw [walk.unique isLine] at inside
  have notBelow : header.prevMainHash ∉ below := by
    intro mem
    cases chain with
    | empty =>
        cases isBelow
        cases mem
    | @next c rest tip earlier parent =>
        have parentStored := tipStored c rfl
        obtain ⟨⟨j,parentKnown⟩,_⟩ := target.namedOn
          (target.trees.sides.sound.descentTrans (target.trees.sides.parentOn stored isParent) onChain) parentStored
        obtain ⟨line',walk',_,ancestors'⟩ := sound.walk target.trees.main.leads parentKnown
        rw [isBelow.unique walk'] at mem
        exact target.namedAfter onChain stored isParent parentStored ((ancestors' _).mp mem)
  obtain ⟨later,mid,rfl⟩ := List.append_of_mem ((List.mem_append.mp inside).resolve_right notBelow)
  have distinct := isLine.nodup
  rw [List.append_assoc,List.cons_append] at isLine distinct
  refine ⟨header.prevMainHash :: mid,later,below,isBelow,isLine.suffix,isLine,?_⟩
  have other : ∀ x ∈ (mid.map (eventsOf world)).reverse, x.1 ≠ header.prevMainHash := by
    intro x mem same
    obtain ⟨m,isOne,rfl⟩ := List.mem_map.mp (List.mem_reverse.mp mem)
    have apart := (List.nodup_cons.mp (List.nodup_append.mp distinct).2.1).1
    exact apart (same ▸ List.mem_append_left below isOne)
  simp only [List.map_append,List.map_cons,List.reverse_append,List.reverse_cons,List.append_assoc,List.singleton_append]
  exact fillAt other

theorem Target.mainLine (target : Target lib world base newTip head) :
    ∃ line, Walk base.mainNext (mainBlock head.prevMainHash) line ∧ Walk base.mainNext (some head.prevMainHash) line ∧
      ∀ m, m ∈ line ↔ base.mainLinks.Descends m head.prevMainHash := by
  obtain ⟨h,height,_⟩ := target.trees.sides.heights.counted target.stored
  have self := Links.Descends.refl (heightOk.mpr height)
  obtain ⟨⟨k,known⟩,_⟩ := target.namedOn self target.stored
  obtain ⟨line,walk,_,ancestors⟩ := target.trees.main.sound.walk target.trees.main.leads known
  have nonZero := mainBlockSome.mpr ⟨target.named _ _ self target.stored,rfl⟩
  exact ⟨line,nonZero ▸ walk,walk,ancestors⟩

theorem ReorgStart.batchComing {reorg : Reorg F} {ancestor : Option BlockHash} {count : Nat}
    (start : ReorgStart lib prove db newTip reorg ancestor head count) (target : Target lib world db.archive newTip head)
    (fed : Fed lib world reorg.working) (same : reorg.working.archive = db.archive)
    (tipOn : ∀ c ∈ reorg.working.connected.head?, db.archive.links.Descends (c.header.hash lib) newTip.blockHash ∧
      db.archive.headers.tryGet (c.header.hash lib) = some c.header) :
    Coming world db.archive head.prevMainHash reorg.working.connected reorg.batch := by
  obtain ⟨line,walk,isLine,ancestors⟩ := target.mainLine
  have batch := start.batch
  have complete := fed.complete
  rw [same] at batch complete
  simp only [twoWayPegDataBatch,bindOk,pureOk] at batch
  obtain ⟨stop,isStop,kept,isKept,isBatch⟩ := batch
  have all := target.trees.main.ancestorsKept walk (fun m => decide (some m = stop)) (blockEvents db.archive)
  cases all.symm.trans isKept
  have dealt {front below : List MainHash} (split : line = front ++ below) :
      front.filterMap (blockEvents db.archive) = front.map (eventsOf world) :=
    filterMapAll (fun m mem => walkEvents target.trees.infos complete isLine (split ▸ List.mem_append_left below mem))
  cases isList : reorg.working.connected with
  | nil =>
      rw [← start.reached,fed.toActive.noTip.mpr isList] at isStop
      cases isStop
      refine ⟨line,[],by rwa [List.append_nil],.ended,?_⟩
      have goesOn : line.takeWhile (fun m => !decide (some m = none)) = line :=
        List.takeWhile_eq_self_iff.mpr (fun m _ => rfl)
      rw [← isBatch,goesOn,dealt (List.append_nil line).symm]
  | cons c rest =>
      obtain ⟨onChain,stored⟩ := tipOn c (by rw [isList]; rfl)
      rw [← start.reached,(fed.toActive.tipStored isList).1] at isStop
      simp only [ancestorPrevMainHash,getHeader,mapOk,okOrOk] at isStop
      obtain ⟨header,isHeader,rfl⟩ := isStop
      cases stored.symm.trans isHeader
      obtain ⟨front,back,split⟩ := List.append_of_mem ((ancestors _).mpr (target.namedOn onChain stored).2)
      have distinct := isLine.nodup
      rw [split] at isLine distinct
      have goesOn : ∀ m ∈ front, (!decide (some m = some c.header.prevMainHash)) = true := by
        intro m mem
        rw [Bool.not_eq_true',decide_eq_false_iff_not]
        intro isOne
        exact (List.nodup_append.mp distinct).2.2 m mem c.header.prevMainHash List.mem_cons_self (Option.some.inj isOne)
      have stops : line.takeWhile (fun m => !decide (some m = some c.header.prevMainHash)) = front := by
        rw [split,List.takeWhile_append_of_pos goesOn,List.takeWhile_cons,decide_eq_true rfl]
        exact List.append_nil front
      refine ⟨front,c.header.prevMainHash :: back,isLine,isLine.suffix,?_⟩
      rw [← isBatch,stops,dealt split]

theorem ReorgStart.dealing {reorg : Reorg F} {ancestor : Option BlockHash} {count : Nat}
    (start : ReorgStart lib prove db newTip reorg ancestor head count) (active : Active lib world db)
    (target : Target lib world db.archive newTip head) (fed : Fed lib world reorg.working)
    (same : reorg.working.archive = db.archive) :
    Dealing lib world db.archive newTip head reorg.working reorg.batch reorg.blocks := by
  have sides := target.trees.sides
  have tipOn : ∀ c ∈ reorg.working.connected.head?, db.archive.links.Descends (c.header.hash lib) newTip.blockHash ∧
      db.archive.headers.tryGet (c.header.hash lib) = some c.header := by
    intro c isTop
    obtain ⟨rest,isList⟩ := List.head?_eq_some_iff.mp isTop
    obtain ⟨isTip,stored,_⟩ := fed.toActive.tipStored isList
    obtain ⟨tip,_,highest⟩ := (start.meets active).highest _ (start.reached.symm.trans isTip)
    exact ⟨highest.right,same ▸ stored⟩
  refine ⟨fed,by rw [same]; exact .bodies,start.batchComing target fed same tipOn,tipOn,fun block mem => ?_⟩
  obtain ⟨line,walk,isLine,stored⟩ := blocksRead sides start.blocks
  obtain ⟨h,height,_⟩ := sides.heights.counted start.isHead
  obtain ⟨whole,isWhole,_,ancestors⟩ := sides.sound.walk sides.leads (heightOk.mpr height)
  refine ⟨(ancestors _).mp (walk.unique isWhole ▸ ?_),(stored block (List.mem_reverse.mpr mem)).1⟩
  have inside : block.1.hash lib ∈ newTip.blockHash :: line.takeWhile (fun b => !decide (some b = ancestor)) := by
    rw [← isLine]
    exact List.mem_map_of_mem (List.mem_reverse.mpr mem)
  rcases List.mem_cons.mp inside with here | below
  · rw [here]
    exact List.mem_cons_self
  · exact List.mem_cons_of_mem _ (List.takeWhile_subset _ below)

theorem Dealing.connect (dealing : Dealing lib world base newTip head working batch (block :: blocks))
    (target : Target lib world base newTip head) (done : connectRound lib ctxt prove rpc working batch block = .ok later) :
    Dealing lib world base newTip head later (fillTwoWayPegData block.1.prevMainHash batch).2 blocks := by
  have source := connectTipSource done
  obtain ⟨onChain,stored⟩ := dealing.blocksOn block List.mem_cons_self
  have names := (target.trees.sides.named stored).1
  obtain ⟨_,isParent,_⟩ := dealing.toActive.connect names source
  obtain ⟨own,later,below,isBelow,isLine,whole,dealt⟩ := target.deal dealing.coming dealing.chain onChain stored isParent
    (fun c isTip => (dealing.tipOn c isTip).2)
  have fed := dealing.toFed.connect names (dealing.grown.mainWalk isBelow) (dealing.grown.mainWalk isLine)
    (congrArg Prod.fst dealt) source
  refine ⟨fed,dealing.grown.trans (source.grown dealing.trees names).2,⟨later,own ++ below,whole,?_,congrArg Prod.snd dealt⟩,?_,
    fun block mem => dealing.blocksOn block (List.mem_cons_of_mem _ mem)⟩
  · rw [source.connected]
    exact isLine
  · intro c isTip
    rw [source.connected] at isTip
    cases isTip
    exact ⟨onChain,stored⟩

end Reorg

section Rule

variable {R : Db F → Prop} {newTip : Tip} {head : Header} {count : Nat}

def RootSilent (world : World) : Prop :=
  ∀ m, (world.mainHeader m).prevBlockHash = MainHash.allZeros → (world.mainInfo m).bmmCommitment = none

theorem targetVerified (trees : db.archive.Trees lib world) (silent : RootSilent world) {v : MainHash}
    (committed : db.archive.Committed newTip.blockHash v) (stored : db.archive.headers.tryGet newTip.blockHash = some head) :
    Target lib world db.archive newTip head := by
  refine ⟨trees,⟨v,committed⟩,stored,fun c header onChain isStored zero => ?_⟩
  obtain ⟨n,isCommitted⟩ := trees.committedOn committed onChain
  obtain ⟨own,commits,_⟩ := isCommitted.commits
  cases isStored.symm.trans commits.stored
  obtain ⟨blockInfo,known,isCommitment⟩ := commits.commitment
  obtain ⟨info,isInfo,isPrev⟩ := commits.next
  obtain ⟨⟨isWorld,_⟩,same⟩ := trees.main.named isInfo
  rw [trees.infos.named known,silent n] at isCommitment
  · cases isCommitment
  · rw [← same,← isWorld,isPrev,zero]

def FirstQuiet (connected : List Connected) : Prop := ∀ c, connected = [c] → c.twoWayPegData.events = []

/- A first block with events is below every tip that is reorganised to. -/
def KeepsFirst (lib : Externals F) (db : Db F) (newTip : Tip) : Prop :=
  Preferred db newTip → ∀ c ∈ db.connected.getLast?, c.twoWayPegData.events ≠ [] →
    db.archive.links.Descends (c.header.hash lib) newTip.blockHash

structure FedRule (lib : Externals F) (ctxt : BatchVerificationContext) (prove : F → List Hash → Except Text UtreexoProof)
    (world : World) (R : Db F → Prop) : Prop where
  fed : ∀ {db}, R db → Fed lib world db
  connect : ∀ {db db' header body data replies}, R db → Fed lib world db' →
    ConnectTipSource lib ctxt db header body data replies db' → R db'
  disconnect : ∀ {db db'}, R db → FirstQuiet db.connected → disconnectTip_ lib prove db = .ok db' → R db'
  learn : ∀ {db archive}, R db → Fed lib world { db with archive } → R { db with archive }

theorem FedRule.disconnects (rule : FedRule lib ctxt prove world R) (holds : R db)
    (done : disconnectTips lib prove db count = .ok db')
    (quiet : db'.connected = [] → ∀ c ∈ db.connected.getLast?, c.twoWayPegData.events = []) :
    R db' := by
  induction count generalizing db with
  | zero =>
      cases done
      exact holds
  | succ count ih =>
      simp only [disconnectTips,bindOk] at done
      obtain ⟨middle,first,rest⟩ := done
      obtain ⟨c,below,_,isTop,isBelow,_⟩ := (rule.fed holds).disconnect first
      have later : db'.connected = [] → ∀ d ∈ middle.connected.getLast?, d.twoWayPegData.events = [] := by
        intro none d isLast
        refine quiet none d ?_
        rw [isBelow] at isLast
        rw [isTop,List.getLast?_cons,isLast]
        rfl
      refine ih (rule.disconnect holds (fun d isOne => ?_) first) rest later
      rw [isTop] at isOne
      cases isOne
      obtain ⟨_,_,_,_,_,_,continues⟩ := (rule.fed holds).toActive.disconnect first
      have none := (continues.disconnects rest).2
      rw [isBelow,List.suffix_nil] at none
      exact quiet none c (by rw [isTop]; rfl)

theorem ReorgStart.quiet {reorg : Reorg F} {ancestor : Option BlockHash}
    (start : ReorgStart lib prove db newTip reorg ancestor head count) (active : Active lib world db)
    (first : KeepsFirst lib db newTip) : reorg.working.connected = [] →
    ∀ c ∈ db.connected.getLast?, c.twoWayPegData.events = [] := by
  intro none c isLast
  refine not_not.mp (fun some => ?_)
  have isTip := active.disconnects start.disconnected
  have isNone : ancestor = Option.none := start.reached.symm.trans (isTip.1.noTip.mpr none)
  refine (start.meets active).apart isNone _ (List.mem_map_of_mem (List.mem_of_getLast? isLast)) ?_
  exact first ⟨reorg.tip,start.tip,start.better⟩ c isLast some

structure Round (lib : Externals F) (world : World) (R : Db F → Prop) (base : Archive F) (newTip : Tip)
    (committed working : Db F) (batch : List (Hash × List BlockEvent)) (blocks : List Block) : Prop where
  stays : R committed
  goesOn : R working
  dealt : ∃ head, Target lib world base newTip head ∧ Dealing lib world base newTip head working batch blocks

theorem FedRule.discard (rule : FedRule lib ctxt prove world R) {committed : Db F} (holds : R committed) {b : BlockHash}
    {err : NodeError} : R (discardBody committed b err).1 := by
  have fed := rule.fed holds
  unfold discardBody
  split
  · exact holds
  · split
    · next archive deleted =>
        have trees := fed.trees.deleteBody deleted
        obtain ⟨tips,rfl⟩ := disconnectQueueFrame deleted
        exact rule.learn holds (fed.learn trees .bodies fed.complete)
    · exact holds

theorem FedRule.loop (rule : FedRule lib ctxt prove world R) (base : Archive F) (newTip : Tip) :
    LoopRule lib ctxt prove rpc (Round lib world R base newTip) R where
  connect := by
    intro committed working next batch block blocks round done
    obtain ⟨head,target,dealing⟩ := round.dealt
    have continues := dealing.connect target done
    exact ⟨round.stays,rule.connect round.goesOn continues.toFed (connectTipSource done),head,target,continues⟩
  commit := fun round => ⟨round.goesOn,round.goesOn,round.dealt⟩
  holds := fun round => round.stays
  discard := fun round _ => rule.discard round.stays

theorem FedRule.reorg (rule : FedRule lib ctxt prove world R) (holds : R db) (silent : RootSilent world) {v : MainHash}
    (committed : db.archive.Committed newTip.blockHash v) (first : KeepsFirst lib db newTip) :
    R (reorgToTip lib ctxt prove db newTip rpc).1 := by
  have fed := rule.fed holds
  refine (rule.loop db.archive newTip).reorg holds (fun reorg ancestor head count start => ?_)
  have target := targetVerified fed.trees silent committed start.isHead
  have working : R reorg.working := rule.disconnects holds start.disconnected (start.quiet fed.toActive first)
  exact ⟨holds,working,head,target,
    start.dealing fed.toActive target (rule.fed working) (disconnectTipsArchive start.disconnected)⟩

end Rule

end Coinshift.NetTask
