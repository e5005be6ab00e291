import Coinshift.TemplateParent
import Coinshift.UsableTips

/-! The tips listed in order are verified: each is entered with a main-chain block that commits to it, and the entry
that is listed last is the tip a main-chain block event leads to. -/
namespace Coinshift.NetTask
open Checked Archive

variable {F : Type} {lib : Externals F} {world : World} {archive archive' start : Archive F} {b : BlockHash} {m : MainHash}

section Ordered

variable {good : BlockHash → MainHash → Prop} {tips tips' : SideTips}

def OrderedAll (good : BlockHash → MainHash → Prop) (tips : SideTips) : Prop :=
  ∀ info b, tips.orderedSidechainTips.tryGet info = some b → good b info.mainBlockHash

theorem OrderedAll.connect (all : OrderedAll good tips) (own : good b m) {w : Nat} {prevSideHash : Option BlockHash}
    (ok : tips.connectSidechainTip m w b prevSideHash = .ok tips') : OrderedAll good tips' := by
  obtain ⟨height,_,⟨_,rfl⟩ | ⟨isNew,rfl⟩⟩ := Archive.connectTipSource ok
  · exact all
  · intro info c found
    rw [Table.tryGetPut] at found
    split at found
    · next here =>
        cases found
        rw [here]
        exact own
    · exact all info c found

theorem OrderedAll.disconnect (all : OrderedAll good tips) : OrderedAll good (tips.disconnectSidechainTip b) := by
  unfold SideTips.disconnectSidechainTip
  split
  · exact all
  · intro info c found
    rw [Table.tryGetDelete] at found
    split at found
    · cases found
    · exact all info c found

end Ordered

section Steps

def TipsCommitted (archive : Archive F) : Prop := OrderedAll archive.Committed archive.sideTips

/- While tips are listed nothing else changes, so the results to list by stay the same. -/
structure ListsVerified (start archive : Archive F) : Prop where
  tips : OrderedAll start.verifiedAt archive.sideTips
  results : archive.bmmResults = start.bmmResults

theorem ListsVerified.update (lists : ListsVerified start archive) {mainTip : MainHash} {header : Header}
    {more : List BlockHash} (ok : updateSideTips mainTip archive b header = .ok (archive',more)) :
    ListsVerified start archive' := by
  simp only [updateSideTips,bindOk] at ok
  obtain ⟨acc,listed,rest⟩ := ok
  have kept : ListsVerified start acc.1 := by
    refine foldInvariant (P := fun acc : Archive F × Bool => ListsVerified start acc.1)
      (fun acc entry acc' mem holds step => ?_) lists listed
    rcases listAtSource step with ⟨rfl,_⟩ | ⟨verified,_,_,w,tips,_,connected,rfl⟩
    · exact holds
    · refine ⟨holds.tips.connect ?_ connected,holds.results⟩
      have found := Table.memEntries.mp mem
      rw [verified] at found
      unfold verifiedAt
      unfold getBmmResults at found ⊢
      rw [← lists.results]
      exact found
  split at rest
  · simp only [bindOk,pureOk,Prod.mk.injEq] at rest
    obtain ⟨_,_,rfl,_⟩ := rest
    exact kept
  · cases rest
    exact kept

theorem ListsVerified.updateQueue (lists : ListsVerified start archive) {mainTip : MainHash} {fuel : Nat}
    {queue : List BlockHash} (ok : updateQueue mainTip fuel archive queue = .ok archive') : ListsVerified start archive' := by
  rw [updateQueueDrain] at ok
  refine Worklist.drainInvariant (P := fun archive _ => ListsVerified start archive) (fun a k queue a' more holds round => ?_)
    lists ok
  unfold updateRound at round
  split at round
  · cases round
    exact holds
  · simp only [bindOk] at round
    obtain ⟨header,_,updated⟩ := round
    exact holds.update updated

structure TipsVerified (lib : Externals F) (world : World) (archive : Archive F) : Prop where
  trees : archive.Trees lib world
  tips : TipsCommitted archive

theorem TipsVerified.putBody (verified : TipsVerified lib world archive) {body : Body}
    (ok : archive.putBody b body = .ok archive') : TipsVerified lib world archive' := by
  have trees := verified.trees.putBody ok
  refine ⟨trees,fun info c found => ?_⟩
  have same := ok
  simp only [Archive.putBody,bindOk] at ok
  obtain ⟨header,_,⟨middle,queue⟩,updated,rest⟩ := ok
  have start : ListsVerified archive { archive with bodies := archive.bodies.put b body } :=
    ⟨fun info c found => (verified.trees.results c info.mainBlockHash).mpr (verified.tips info c found),rfl⟩
  have ends := (start.update updated).updateQueue rest
  obtain ⟨_,tips,rfl⟩ := putBodyFrame same
  exact (trees.results c info.mainBlockHash).mp (ends.tips info c found)

theorem disconnectQueueOrdered {good : BlockHash → MainHash → Prop} (all : OrderedAll good archive.sideTips) {fuel : Nat}
    {queue : List BlockHash} (ok : disconnectQueue fuel archive queue = .ok archive') : OrderedAll good archive'.sideTips := by
  rw [disconnectQueueDrain] at ok
  refine Worklist.drainInvariant (P := fun archive _ => OrderedAll good archive.sideTips)
    (fun a k queue a' more holds round => ?_) all ok
  unfold disconnectRound at round
  split at round
  · cases round
    exact holds
  · simp only [bindOk,pureOk,Prod.mk.injEq] at round
    obtain ⟨_,_,rfl,_⟩ := round
    exact OrderedAll.disconnect holds

theorem TipsVerified.grow (verified : TipsVerified lib world archive) (trees : archive'.Trees lib world)
    (grown : archive.Grown archive')
    (fewer : ∀ info b, archive'.sideTips.orderedSidechainTips.tryGet info = some b →
      archive.sideTips.orderedSidechainTips.tryGet info = some b) : TipsVerified lib world archive' :=
  ⟨trees,fun info b found => (verified.tips info b (fewer info b found)).grow grown verified.trees.main⟩

theorem TipsVerified.deleteBody (verified : TipsVerified lib world archive) (ok : archive.deleteBody b = .ok archive') :
    TipsVerified lib world archive' := by
  have trees := verified.trees.deleteBody ok
  have listed : OrderedAll archive.Committed { archive with bodies := archive.bodies.delete b }.sideTips := verified.tips
  have ends := disconnectQueueOrdered listed ok
  obtain ⟨tips,rfl⟩ := disconnectQueueFrame ok
  exact ⟨trees,fun info c found => (ends info c found).grow .bodies verified.trees.main⟩

theorem TipsVerified.connectEvent (verified : TipsVerified lib world archive) {info : BlockHeaderInfo} {blockInfo : BlockInfo}
    (names : (ArchiveOp.handleBlockEvent (.connectBlock info blockInfo)).Names lib world)
    (ok : archive.handleBlockEvent (.connectBlock info blockInfo) = .ok archive') : TipsVerified lib world archive' := by
  have trees := verified.trees.step names ok
  obtain ⟨first,second,commitment,tips,isFirst,isSecond,listable,connected,rfl⟩ := connectEventSource ok
  have header := verified.trees.putMainHeader names.1 isFirst
  have contents := header.putMainInfo names.2 isSecond
  have grown := (verified.trees.addsMainHeader names.1 isFirst).grown.trans (header.addsMainInfo names.2 isSecond).grown
  have same : second.sideTips = archive.sideTips := by
    obtain ⟨_,_,_,_,_,_,_,_,_,rfl⟩ := putMainHeaderSource isFirst
    obtain ⟨_,_,_,⟨_,rfl⟩ | ⟨_,_,_,_,_,_,rfl⟩⟩ := putMainInfoSource isSecond
    · rfl
    · rfl
  have before : OrderedAll second.Committed second.sideTips := by
    intro entry b found
    rw [same] at found
    exact (verified.tips entry b found).grow grown verified.trees.main
  refine ⟨trees,fun entry b found => ?_⟩
  suffices second.Committed b entry.mainBlockHash from this.grow .bodies contents.main
  obtain ⟨_,listed,rfl,⟨_,rfl⟩ | ⟨c,prevSideHash,isCommitment,connects⟩⟩ := connectMainchainSource connected
  · exact before entry b found
  · have own := (contents.results c info.blockHash).mp ((listableSource listable).1 c prevSideHash isCommitment).1
    exact before.connect own connects entry b found

theorem TipsVerified.step (verified : TipsVerified lib world archive) {op : ArchiveOp} (names : op.Names lib world)
    (ok : op.apply lib archive = .ok archive') : TipsVerified lib world archive' := by
  have trees := verified.trees.step names ok
  have grown := verified.trees.stepGrown names ok
  cases op with
  | handleBlockEvent event =>
      cases event with
      | connectBlock info blockInfo => exact verified.connectEvent names ok
      | disconnectBlock m =>
          obtain ⟨_,_,_,_,_,_,_,disconnected,rfl⟩ := disconnectEventSource ok
          rw [disconnectParts] at disconnected
          simp only [bindOk,pureOk] at disconnected
          obtain ⟨_,_,_,_,ordered,isOrdered,rfl⟩ := disconnected
          exact verified.grow trees grown (fun info b found => orderedLess isOrdered found)
  | putMainHeaderInfo info =>
      obtain ⟨_,_,_,_,_,_,_,_,_,rfl⟩ := putMainHeaderSource ok
      exact verified.grow trees grown (fun _ _ found => found)
  | putMainBlockInfo m blockInfo =>
      obtain ⟨_,_,_,⟨_,rfl⟩ | ⟨_,_,_,_,_,_,rfl⟩⟩ := putMainInfoSource ok
      · exact verified.grow trees grown (fun _ _ found => found)
      · exact verified.grow trees grown (fun _ _ found => found)
  | putHeader header =>
      obtain ⟨_,_,_,_,_,_,_,_,_,_,rfl⟩ := putHeaderSource ok
      exact verified.grow trees grown (fun _ _ found => found)
  | putBody b body => exact verified.putBody ok
  | deleteBody b => exact verified.deleteBody ok

theorem verifiedClosed : ReorgClosed lib start (fun archive => start.Grown archive ∧ TipsVerified lib world archive) where
  putHeader := by
    intro archive archive' header ⟨grown,verified⟩ stored put
    have names := (verified.trees.sides.named (grown.headers _ _ stored)).1
    have isNamed : (ArchiveOp.putHeader header).Names lib world := names
    exact ⟨grown.trans (verified.trees.stepGrown isNamed put),verified.step isNamed put⟩
  putBody := by
    intro archive archive' b body ⟨grown,verified⟩ put
    have isNamed : (ArchiveOp.putBody b body).Names lib world := trivial
    exact ⟨grown.trans (verified.trees.stepGrown isNamed put),verified.putBody put⟩
  deleteBody := by
    intro archive archive' b ⟨grown,verified⟩ deleted
    have isNamed : (ArchiveOp.deleteBody b).Names lib world := trivial
    exact ⟨grown.trans (verified.trees.stepGrown isNamed deleted),verified.deleteBody deleted⟩
  putAccumulator := by
    intro archive b accumulator ⟨grown,verified⟩
    exact ⟨grown.trans .bodies,verified.grow verified.trees.putAccumulator .bodies (fun _ _ found => found)⟩

end Steps

end Coinshift.NetTask
