import Coinshift.BmmResults

/-! Runs of archive operations.
Bodies and side tips come and go; the trees and the results under them only grow. -/
namespace Coinshift
open Checked Lineage

variable {F : Type} {lib : Externals F} {world : World} {ops : List ArchiveOp}

namespace Archive

variable {archive archive' : Archive F} {b : BlockHash}

section Frames

def SameButTips (archive archive' : Archive F) : Prop := ∃ sideTips, archive' = { archive with sideTips }

theorem SameButTips.refl : SameButTips archive archive := ⟨archive.sideTips,rfl⟩

theorem SameButTips.trans {archive'' : Archive F} (first : SameButTips archive archive')
    (second : SameButTips archive' archive'') : SameButTips archive archive'' := by
  obtain ⟨tips,rfl⟩ := first
  obtain ⟨tips',rfl⟩ := second
  exact ⟨tips',rfl⟩

theorem listAtFrame {mainTip : MainHash} {header : Header} {acc acc' : Archive F × Bool} {entry : MainHash × BmmResult}
    (ok : listAt mainTip b header acc entry = .ok acc') : SameButTips acc.1 acc'.1 := by
  unfold listAt at ok
  dsimp only at ok
  split at ok
  · cases ok
    exact .refl
  · split at ok
    · cases ok
      exact .refl
    · simp only [bindOk] at ok
      obtain ⟨on,_,ok⟩ := ok
      split at ok
      · cases ok
        exact .refl
      · simp only [bindOk,pureOk] at ok
        obtain ⟨work,_,tips,_,rfl⟩ := ok
        exact ⟨tips,rfl⟩

theorem updateSideTipsFrame {mainTip : MainHash} {header : Header} {more : List BlockHash}
    (ok : updateSideTips mainTip archive b header = .ok (archive',more)) : SameButTips archive archive' := by
  simp only [updateSideTips,bindOk] at ok
  obtain ⟨acc,listed,ok⟩ := ok
  have frame : SameButTips archive acc.1 :=
    foldInvariant (P := fun acc => SameButTips archive acc.1) (fun _ _ _ _ same step => same.trans (listAtFrame step)) .refl
      listed
  split at ok
  · simp only [bindOk,pureOk,Prod.mk.injEq] at ok
    obtain ⟨_,_,rfl,_⟩ := ok
    exact frame
  · cases ok
    exact frame

theorem updateQueueFrame {mainTip : MainHash} {fuel : Nat} {queue : List BlockHash}
    (ok : updateQueue mainTip fuel archive queue = .ok archive') : SameButTips archive archive' := by
  induction fuel generalizing archive queue with
  | zero =>
      cases queue with
      | nil =>
          cases ok
          exact .refl
      | cons => cases ok
  | succ fuel ih =>
      cases queue with
      | nil =>
          cases ok
          exact .refl
      | cons b queue =>
          unfold updateQueue at ok
          split at ok
          · exact ih ok
          · simp only [bindOk] at ok
            obtain ⟨header,_,⟨middle,more⟩,updated,rest⟩ := ok
            exact (updateSideTipsFrame updated).trans (ih rest)

theorem putBodyFrame {body : Body} (ok : archive.putBody b body = .ok archive') :
    (archive.headers.tryGet b).isSome = true ∧
      SameButTips { archive with bodies := archive.bodies.put b body } archive' := by
  simp only [putBody,getHeader,bindOk,okOrOk] at ok
  obtain ⟨header,stored,⟨middle,queue⟩,updated,rest⟩ := ok
  exact ⟨Option.isSome_iff_exists.mpr ⟨header,stored⟩,(updateSideTipsFrame updated).trans (updateQueueFrame rest)⟩

theorem disconnectQueueFrame {fuel : Nat} {queue : List BlockHash}
    (ok : disconnectQueue fuel archive queue = .ok archive') : SameButTips archive archive' := by
  induction fuel generalizing archive queue with
  | zero =>
      cases queue with
      | nil =>
          cases ok
          exact .refl
      | cons => cases ok
  | succ fuel ih =>
      cases queue with
      | nil =>
          cases ok
          exact .refl
      | cons b queue =>
          unfold disconnectQueue at ok
          split at ok
          · exact ih ok
          · simp only [bindOk] at ok
            obtain ⟨successors,_,rest⟩ := ok
            exact SameButTips.trans ⟨_,rfl⟩ (ih rest)

theorem Trees.bodies (trees : Trees lib world archive) {bodies : Table BlockHash Body} {sideTips : SideTips}
    {accumulators : Table BlockHash F}
    (stored : ∀ b, (bodies.tryGet b).isSome = true → (archive.headers.tryGet b).isSome = true) :
    Trees lib world { archive with bodies,sideTips,accumulators } := by
  refine ⟨{ trees.main with },{ trees.sides with bodies := stored _ },{ trees.infos with },fun b m => ?_⟩
  have grown : Grown archive { archive with bodies,sideTips,accumulators } :=
    ⟨fun _ _ found => found,fun _ _ found => found,fun _ _ found => found,fun _ _ found => found⟩
  refine (trees.results b m).trans ⟨fun committed => committed.grow grown trees.main,fun committed => ?_⟩
  obtain ⟨header,_,stored,_,known⟩ := committed.known
  exact committed.back grown trees.main trees.sides trees.infos (Option.isSome_iff_exists.mpr ⟨header,stored⟩) known

theorem Trees.tips (trees : Trees lib world archive) {sideTips : SideTips} : Trees lib world { archive with sideTips } :=
  trees.bodies (fun _ stored => trees.sides.bodies stored)

theorem Trees.putBody (trees : Trees lib world archive) {body : Body} (ok : archive.putBody b body = .ok archive') :
    Trees lib world archive' := by
  obtain ⟨header,tips,rfl⟩ := putBodyFrame ok
  refine trees.bodies (fun c stored => ?_)
  rw [Table.tryGetPut] at stored
  split at stored
  · next here => rw [here,header]
  · exact trees.sides.bodies stored

theorem Trees.putAccumulator (trees : Trees lib world archive) {accumulator : F} :
    Trees lib world (archive.putAccumulator b accumulator) :=
  trees.bodies (fun _ stored => trees.sides.bodies stored)

theorem Trees.deleteBody (trees : Trees lib world archive) (ok : archive.deleteBody b = .ok archive') :
    Trees lib world archive' := by
  obtain ⟨tips,rfl⟩ := disconnectQueueFrame ok
  refine trees.bodies (fun c stored => ?_)
  rw [Table.tryGetDelete] at stored
  split at stored
  · cases stored
  · exact trees.sides.bodies stored

structure ConnectEventSource (archive : Archive F) (info : BlockHeaderInfo) (blockInfo : BlockInfo) (archive' : Archive F) :
    Prop where
  steps : ∃ first second commitment tips, archive.putMainHeaderInfo info = .ok first ∧
    first.putMainBlockInfo info.blockHash blockInfo = .ok second ∧
    second.listableCommitment info.blockHash blockInfo = .ok commitment ∧
    second.sideTips.connectMainchainTip info commitment = .ok tips ∧ archive' = { second with sideTips := tips }

theorem connectEventSource {info : BlockHeaderInfo} {blockInfo : BlockInfo}
    (ok : archive.handleBlockEvent (.connectBlock info blockInfo) = .ok archive') :
    ConnectEventSource archive info blockInfo archive' := by
  simp only [handleBlockEvent,bindOk,mapErrorOk,pureOk] at ok
  obtain ⟨first,header,second,contents,commitment,listable,tips,connected,rfl⟩ := ok
  exact ⟨first,second,commitment,tips,header,contents,listable,connected,rfl⟩

structure DisconnectEventSource (archive : Archive F) (m : MainHash) (archive' : Archive F) : Prop where
  steps : ∃ info blockInfo parent tips, archive.mainHeaderInfos.tryGet m = some info ∧
    archive.mainBlockInfos.tryGet m = some blockInfo ∧ archive.mainParentHeaderInfo info = .ok parent ∧
    archive.sideTips.disconnectMainchainTip parent blockInfo.bmmCommitment = .ok tips ∧
    archive' = { archive with sideTips := tips }

theorem disconnectEventSource {m : MainHash} (ok : archive.handleBlockEvent (.disconnectBlock m) = .ok archive') :
    DisconnectEventSource archive m archive' := by
  simp only [handleBlockEvent,getMainHeaderInfo,getMainBlockInfo,bindOk,okOrOk,mapErrorOk,pureOk] at ok
  obtain ⟨info,stored,blockInfo,known,parent,isParent,tips,disconnected,rfl⟩ := ok
  exact ⟨info,blockInfo,parent,tips,stored,known,isParent,disconnected,rfl⟩

end Frames

section Runs

theorem Trees.step (trees : Trees lib world archive) {op : ArchiveOp} (names : op.Names lib world)
    (ok : op.apply lib archive = .ok archive') : Trees lib world archive' := by
  cases op with
  | handleBlockEvent event =>
      cases event with
      | connectBlock info blockInfo =>
          obtain ⟨first,second,_,_,header,contents,_,_,rfl⟩ := connectEventSource ok
          exact ((trees.putMainHeader names.1 header).putMainInfo names.2 contents).tips
      | disconnectBlock m =>
          obtain ⟨_,_,_,_,_,_,_,_,rfl⟩ := disconnectEventSource ok
          exact trees.tips
  | putMainHeaderInfo info => exact trees.putMainHeader names ok
  | putMainBlockInfo m blockInfo => exact trees.putMainInfo names ok
  | putHeader header => exact trees.putHeader names ok
  | putBody b body => exact trees.putBody ok
  | deleteBody b => exact trees.deleteBody ok

theorem soundUnknown {ε K : Type} {links : Links ε K} (unknown : ∀ b h, links.height b ≠ .ok h) : links.Sound :=
  ⟨fun known => absurd known (unknown _ _),fun known => absurd known (unknown _ _)⟩

theorem keptEmpty {I : Type} {counting : Counting I} : counting.Kept ∅ ∅ := by
  constructor
  · intro b info found
    cases Table.tryGetEmpty.symm.trans found
  · intro b n found
    cases Table.tryGetEmpty.symm.trans found

theorem followsEmpty {Q : Type} [DbKey Q] [DecidableEq Q] {parent : Hash → Option Q} (alone : ∀ m, parent m = none)
    (q : Q) : Follows ((∅ : Table Q HashSet).put q ∅) parent := by
  intro q' set m found
  rw [Table.tryGetPut] at found
  split at found
  · cases found
    rw [alone m,Table.tryGetEmpty]
    simp
  · cases Table.tryGetEmpty.symm.trans found

theorem Trees.new : Trees lib world (Archive.new F) := by
  have nothing {K V : Type} [DbKey K] {k : K} {v : V} : ¬ (∅ : Table K V).tryGet k = some v := by simp
  refine ⟨?_,?_,?_,?_⟩
  · refine ⟨soundUnknown (fun b h known => nothing (mainHeightOk.mp known)),fun found => absurd found nothing,keptEmpty,
      keptEmpty,followsEmpty (fun _ => by simp [Archive.new]) _,?_⟩
    intro m known
    rcases known with stored | rfl
    · simp [Archive.new] at stored
    · simp [Archive.new]
  · refine ⟨soundUnknown (fun b h known => nothing (heightOk.mp known)),fun found => absurd found nothing,keptEmpty,
      followsEmpty (fun _ => by simp [Archive.new]) _,?_,?_⟩
    · intro k stored
      cases k with
      | none => simp [Archive.new]
      | some b => simpa [Archive.new] using stored b rfl
    · intro b stored
      simp [Archive.new] at stored
  · exact ⟨fun found => absurd found nothing,fun found => absurd found nothing⟩
  · intro b m
    constructor
    · intro verified
      simp [verifiedAt,getBmmResults,Archive.new] at verified
    · intro committed
      obtain ⟨header,_,stored,_⟩ := committed.known
      exact absurd stored nothing

end Runs

end Archive

def runArchive (lib : Externals F) (ops : List ArchiveOp) : Except ArchiveError (Archive F) :=
  ops.foldlM (ArchiveOp.apply lib) (Archive.new F)

def runsTo (lib : Externals F) (ops : List ArchiveOp) (check : Archive F → Bool) : Bool :=
  match runArchive lib ops with
  | .ok archive => check archive
  | .error _ => false

theorem runsToRun {check : Archive F → Bool} (runs : runsTo lib ops check = true) :
    ∃ archive, runArchive lib ops = .ok archive ∧ check archive = true := by
  unfold runsTo at runs
  cases ran : runArchive lib ops with
  | error e =>
      rw [ran] at runs
      cases runs
  | ok archive =>
      rw [ran] at runs
      exact ⟨archive,rfl,runs⟩

theorem runTrees {archive : Archive F} (names : ∀ op ∈ ops, op.Names lib world) (ok : runArchive lib ops = .ok archive) :
    archive.Trees lib world :=
  foldInvariant (P := fun archive => archive.Trees lib world)
    (fun _ op _ mem trees applied => trees.step (names op mem) applied) Archive.Trees.new ok

end Coinshift
