import Coinshift.ForkChoice
import Coinshift.SideTipRuns

/-! The best side tip and the choice between two tips.
The table of tips is ordered by height and then by work, the greater last; along one main chain the choice takes the
higher of two tips, but of two as high the one with less work. -/
namespace Coinshift
open Checked Lineage

variable {F : Type} {lib : Externals F} {world : World} {ops : List ArchiveOp}

def World.Heavy (world : World) : Prop := ∀ m, 0 < (world.mainHeader m).work

namespace Archive

variable {archive : Archive F} {t u : Tip} {top m n : MainHash}

structure Words (archive : Archive F) : Prop where
  heights : ∀ {b h}, archive.blockHashToHeight.tryGet b = some h → h < 2 ^ 32
  works : ∀ {m w}, archive.totalWork.tryGet m = some w → w < 2 ^ 256

def TipsOnLine (archive : Archive F) (top : MainHash) (tips : SideTips) : Prop :=
  ∀ info b, tips.orderedSidechainTips.tryGet info = some b → OnLine archive top ⟨b,info.mainBlockHash⟩ ∧
    ∃ h w, archive.blockHashToHeight.tryGet b = some h ∧ archive.totalWork.tryGet info.mainBlockHash = some w ∧
      info.sidechainHeight = wordHeight h ∧ info.work = BitVec.ofNat 256 w

theorem SideTipsRight.onLine (right : SideTipsRight archive) : TipsOnLine archive archive.mainTip archive.sideTips := by
  intro info b found
  obtain ⟨_,m,h,w,included,height,work,rfl⟩ := (right.listed b info).mp ((right.inverse b info).mp found)
  exact ⟨⟨included.verified,included.onChain⟩,h,w,height,work,rfl,rfl⟩

section Work

theorem MainTree.workBelow (tree : MainTree world archive) (heavy : world.Heavy) (above : archive.mainLinks.Descends m n)
    (apart : m ≠ n) {w w' : Nat} (work : archive.totalWork.tryGet m = some w) (work' : archive.totalWork.tryGet n = some w') :
    w < w' := by
  obtain ⟨h,k,height,bound,up⟩ := above
  cases k with
  | zero =>
      cases up
      exact absurd rfl apart
  | succ k =>
      obtain ⟨j,rfl⟩ := Nat.exists_eq_add_of_le' (Nat.lt_of_lt_of_le (Nat.succ_pos k) bound)
      obtain ⟨q,isParent,parentHeight⟩ := tree.sound.step height
      rw [Links.up,isParent] at up
      obtain ⟨info,stored,rfl⟩ := mainParentOk.mp isParent
      obtain ⟨w'',known,count⟩ := tree.works.counted stored
      cases work'.symm.trans known
      cases count with
      | root zero =>
          obtain ⟨parent,isStored⟩ := tree.heights.only (mainHeightOk.mp parentHeight)
          obtain ⟨⟨_,nonZero⟩,own⟩ := tree.named isStored
          exact absurd (own.trans (mainBlockNone.mp zero)) nonZero
      | @child p wp isParent' parentWork =>
          obtain ⟨_,rfl⟩ := mainBlockSome.mp isParent'
          obtain ⟨w0,found,le⟩ := tree.workAbove ⟨j,k,parentHeight,Nat.le_of_succ_le_succ bound,up⟩ parentWork
          cases work.symm.trans found
          have adds : 0 < info.work := by
            rw [(tree.named stored).1.1]
            exact heavy _
          exact Nat.lt_of_le_of_lt le (Nat.lt_add_of_pos_right adds)

end Work

section Choice

variable {h w k w' k' : Nat}

theorem Trees.prefersLighter (trees : Trees lib world archive) (lineT : OnLine archive top t) (lineU : OnLine archive top u)
    (measuresT : Measures archive t h w k) (measuresU : Measures archive u h w' k') (later : h ≠ 0) (less : w' < w) :
    archive.Prefers t u := by
  have different : t ≠ u := by
    rintro rfl
    cases measuresT.work.symm.trans measuresU.work
    exact Nat.lt_irrefl _ less
  have heightT := mainHeightOk.mpr measuresT.mainHeight
  have heightU := mainHeightOk.mpr measuresU.mainHeight
  have line : archive.mainLinks.Descends t.mainBlockHash u.mainBlockHash ∨
      archive.mainLinks.Descends u.mainBlockHash t.mainBlockHash := by
    rcases Nat.le_total k k' with le | le
    · exact .inl (trees.main.sound.descentLine lineT.onChain lineU.onChain heightT heightU le)
    · exact .inr (trees.main.sound.descentLine lineU.onChain lineT.onChain heightU heightT le)
  obtain ⟨answer,shared,holds⟩ := trees.main.sharedTotal heightT heightU
  cases holds.mpr line
  have works : compare w w' = .gt := Nat.compare_eq_gt.mpr less
  unfold Prefers betterTip
  rw [if_neg different,getHeight,okOrOk.mpr measuresT.height,okBind,getHeight,okOrOk.mpr measuresU.height,okBind,
    if_neg (fun both => later both.1),if_neg later,if_neg later,getTotalWork,okOrOk.mpr measuresT.work,okBind,
    getTotalWork,okOrOk.mpr measuresU.work,okBind,works,Nat.compare_eq_eq.mpr rfl]
  simp only [shared,okBind]
  rfl

end Choice

section Best

variable {tips : SideTips} {best b : BlockHash} {info entry : SidechainTipInfo}

theorem wordHeightToNat {h : Nat} (small : h < 2 ^ 32) : (wordHeight h).toNat = h := by
  have least : min h 0xffffffff = h := Nat.min_eq_left (by omega)
  rw [wordHeight,least]
  exact UInt32.toNat_ofNat_of_lt' small

theorem Trees.entryMeasures (trees : Trees lib world archive) (words : archive.Words) (tipsOn : TipsOnLine archive top tips)
    (found : tips.orderedSidechainTips.tryGet info = some b) : OnLine archive top ⟨b,info.mainBlockHash⟩ ∧
      ∃ k, Measures archive ⟨b,info.mainBlockHash⟩ info.sidechainHeight.toNat info.work.toNat k := by
  obtain ⟨line,h,w,height,work,isHeight,isWork⟩ := tipsOn info b found
  obtain ⟨_,_,k,_,_,mainHeight⟩ := trees.measures line
  refine ⟨line,k,?_,?_,mainHeight⟩
  · rw [isHeight,wordHeightToNat (words.heights height)]
    exact height
  · rw [isWork,BitVec.toNat_ofNat,Nat.mod_eq_of_lt (words.works work)]
    exact work

theorem bestHighest (isBest : tips.bestSideTip = some (best,info)) (found : tips.orderedSidechainTips.tryGet entry = some b) :
    tips.orderedSidechainTips.tryGet info = some best ∧ entry.sidechainHeight.toNat ≤ info.sidechainHeight.toNat := by
  obtain ⟨⟨key,value⟩,isLast,same⟩ := Option.map_eq_some_iff.mp isBest
  cases same
  refine ⟨Table.lastFound isLast,?_⟩
  have ranks : entry.rank ≤ key.rank := Table.lastRanks isLast found
  have := entry.work.isLt
  have := key.work.isLt
  have := entry.mainBlockHash.isLt
  have := key.mainBlockHash.isLt
  unfold SidechainTipInfo.rank at ranks
  change entry.sidechainHeight.toNat ≤ key.sidechainHeight.toNat
  omega

theorem bestTipMaximalIff {archive : Archive F} (names : ∀ op ∈ ops, op.Names lib world) (heavy : world.Heavy)
    (ok : runArchive lib ops = .ok archive) (words : archive.Words) (tipsOn : TipsOnLine archive top tips)
    (isBest : tips.bestSideTip = some (best,info)) :
    (∀ entry b, tips.orderedSidechainTips.tryGet entry = some b →
      ¬ archive.Prefers ⟨best,info.mainBlockHash⟩ ⟨b,entry.mainBlockHash⟩) ↔
    ∀ entry b, tips.orderedSidechainTips.tryGet entry = some b →
      entry.sidechainHeight = info.sidechainHeight → info.sidechainHeight ≠ 0 → ¬ entry.work.toNat < info.work.toNat := by
  have trees := runTrees names ok
  constructor
  · intro maximal entry b found sameHeight later less
    obtain ⟨isListed,_⟩ := bestHighest isBest found
    obtain ⟨lineBest,k,measuresBest⟩ := trees.entryMeasures words tipsOn isListed
    obtain ⟨line,k',measures⟩ := trees.entryMeasures words tipsOn found
    rw [sameHeight] at measures
    refine maximal entry b found (trees.prefersLighter lineBest line measuresBest measures ?_ less)
    exact fun zero => later (UInt32.toNat_inj.mp zero)
  · intro lightest entry b found prefers
    obtain ⟨isListed,highest⟩ := bestHighest isBest found
    obtain ⟨lineBest,k,measuresBest⟩ := trees.entryMeasures words tipsOn isListed
    obtain ⟨line,k',measures⟩ := trees.entryMeasures words tipsOn found
    obtain ⟨h0,w0,k0,h1,w1,k1,first,second,earlier⟩ := trees.prefersEarlier lineBest line prefers
    obtain ⟨rfl,rfl,rfl⟩ := measuresBest.unique first
    obtain ⟨rfl,rfl,rfl⟩ := measures.unique second
    rcases earlier with higher | ⟨sameHeight,lighter | ⟨sameWork,lower⟩⟩
    · omega
    · refine lightest entry b found (UInt32.toNat_inj.mp sameHeight.symm) (fun zero => ?_) lighter
      -- two genesis blocks are never compared further
      obtain ⟨_,h0,h1,height0,height1,reason⟩ := prefersSource prefers
      cases (heightOk.mpr measuresBest.height).symm.trans height0
      cases (heightOk.mpr measures.height).symm.trans height1
      rw [← sameHeight,zero] at reason
      cases reason with
      | overGenesis _ later => exact later rfl
      | ranked later => exact later rfl
    · -- a block above the best one's has less work
      have above := trees.main.sound.descentLine line.onChain lineBest.onChain (mainHeightOk.mpr measures.mainHeight)
        (mainHeightOk.mpr measuresBest.mainHeight) (Nat.le_of_lt lower)
      have apart : entry.mainBlockHash ≠ info.mainBlockHash := by
        intro same
        have there := measures.mainHeight
        rw [show (⟨b,entry.mainBlockHash⟩ : Tip).mainBlockHash = info.mainBlockHash from same] at there
        cases there.symm.trans measuresBest.mainHeight
        exact Nat.lt_irrefl _ lower
      have less := trees.main.workBelow heavy above apart measures.work measuresBest.work
      omega

end Best

section Siblings

open Reference

/- Two blocks after the genesis block, the second committed to by a later main-chain block: first the bodies of the
genesis block and of one of the two, then that of the other. -/
def oneChild : List ArchiveOp :=
  (forkMain.take 4).map (fun entry => .handleBlockEvent (.connectBlock entry.1 (forkInfo entry.2))) ++
    (forkHeaders.take 2).flatMap (fun header => [.putHeader header,.putBody (header.hash externals) ⟨[],[],[]⟩])

def siblings : List ArchiveOp :=
  oneChild ++ [.putHeader (forkChild 2 3),.putBody ((forkChild 2 3).hash externals) ⟨[],[],[]⟩]

def siblingWorld : World :=
  { forkWorld with mainHeader m := ((forkMain.find? (fun entry => entry.1.blockHash = m)).map (·.1)).getD ⟨0,0,0,1⟩ }

theorem siblingHeavy : siblingWorld.Heavy := by
  intro m
  unfold siblingWorld
  dsimp only
  cases found : forkMain.find? (fun entry => entry.1.blockHash = m) with
  | none => exact Nat.one_pos
  | some entry =>
      have positive : ∀ entry ∈ forkMain, 0 < entry.1.work := by decide
      exact positive entry (List.mem_of_find?_eq_some found)

def wordsCheck (archive : Archive Forest) : Bool :=
  archive.blockHashToHeight.entries.all (fun entry => entry.2 < 2 ^ 32) &&
    archive.totalWork.entries.all (fun entry => entry.2 < 2 ^ 256)

theorem wordsCheckSound {archive : Archive Forest} (checked : wordsCheck archive = true) : archive.Words := by
  obtain ⟨heights,works⟩ := (Bool.and_eq_true _ _).mp checked
  constructor
  · intro b h found
    exact of_decide_eq_true (List.all_eq_true.mp heights (b,h) (Table.memEntries.mpr found))
  · intro m w found
    exact of_decide_eq_true (List.all_eq_true.mp works (m,w) (Table.memEntries.mpr found))

theorem runOnLine {ops : List ArchiveOp} {archive : Archive Forest} (names : ∀ op ∈ ops, op.Names externals world)
    (undisturbed : undisturbedCheck ops = true) (ok : runArchive externals ops = .ok archive) :
    TipsOnLine archive archive.mainTip archive.sideTips := by
  have kept : archive.Kept externals world := runTipsKept names
    (fun before op after u _ split ran _ _ => undisturbedCheckSound undisturbed before op after u split ran) ok
  exact (kept.tips.right kept.trees).onLine

theorem bestByEntries {tips : SideTips} {best : BlockHash} {info : SidechainTipInfo}
    (isLast : tips.orderedSidechainTips.entries.getLast? = some (info,best)) : tips.bestSideTip = some (best,info) := by
  rw [SideTips.bestSideTip,Table.last,isLast]
  rfl

/- The tip with the greater work is listed last, and the choice takes the other. -/
theorem lighterSiblingPreferred : ∃ (world : World) (archive : Archive Forest) (best b : BlockHash)
    (info entry : SidechainTipInfo), (∀ op ∈ siblings, op.Names externals world) ∧ world.Heavy ∧
    runArchive externals siblings = .ok archive ∧ archive.Words ∧
    TipsOnLine archive archive.mainTip archive.sideTips ∧ archive.sideTips.bestSideTip = some (best,info) ∧
    archive.sideTips.orderedSidechainTips.tryGet entry = some b ∧
    archive.Prefers ⟨best,info.mainBlockHash⟩ ⟨b,entry.mainBlockHash⟩ := by
  have names : ∀ op ∈ siblings, op.Names externals siblingWorld := by decide +kernel
  have undisturbed : undisturbedCheck siblings = true := by decide +kernel
  have checked : runsTo externals siblings (fun archive => wordsCheck archive &&
      (archive.sideTips.orderedSidechainTips.entries.getLast? = some (⟨1,5,4⟩,(forkTip 2 3 4).blockHash) &&
        (archive.sideTips.orderedSidechainTips.tryGet ⟨1,3,3⟩ = some (forkTip 1 2 3).blockHash &&
          prefersCheck archive (forkTip 2 3 4) (forkTip 1 2 3)))) = true := by decide +kernel
  obtain ⟨archive,ran,holds⟩ := runsToRun checked
  simp only [Bool.and_eq_true,decide_eq_true_eq] at holds
  obtain ⟨words,isLast,isListed,prefers⟩ := holds
  exact ⟨siblingWorld,archive,_,_,_,_,names,siblingHeavy,ran,wordsCheckSound words,runOnLine names undisturbed ran,
    bestByEntries isLast,isListed,prefersCheckSound prefers⟩

theorem onlyChildBest : ∃ archive, runArchive externals oneChild = .ok archive ∧
    archive.sideTips.bestSideTip = some ((forkTip 1 2 3).blockHash,⟨1,3,3⟩) ∧
    ∀ entry b, archive.sideTips.orderedSidechainTips.tryGet entry = some b →
      ¬ archive.Prefers (forkTip 1 2 3) ⟨b,entry.mainBlockHash⟩ := by
  have names : ∀ op ∈ oneChild, op.Names externals siblingWorld := by decide +kernel
  have undisturbed : undisturbedCheck oneChild = true := by decide +kernel
  have checked : runsTo externals oneChild (fun archive => wordsCheck archive &&
      (archive.sideTips.orderedSidechainTips.entries.getLast? = some (⟨1,3,3⟩,(forkTip 1 2 3).blockHash) &&
        archive.sideTips.orderedSidechainTips.entries.all (fun entry =>
          entry.1.sidechainHeight ≠ 1 || decide (entry.1.work = 3)))) = true := by decide +kernel
  obtain ⟨archive,ran,holds⟩ := runsToRun checked
  simp only [Bool.and_eq_true,decide_eq_true_eq] at holds
  obtain ⟨words,isLast,alone⟩ := holds
  have isBest := bestByEntries isLast
  refine ⟨archive,ran,isBest,?_⟩
  refine (bestTipMaximalIff names siblingHeavy ran (wordsCheckSound words) (runOnLine names undisturbed ran) isBest).mpr ?_
  intro entry b found sameHeight _ less
  have entryAlone := List.all_eq_true.mp alone (entry,b) (Table.memEntries.mpr found)
  rw [Bool.or_eq_true,decide_eq_true_eq,decide_eq_true_eq] at entryAlone
  rcases entryAlone with other | same
  · exact other sameHeight
  · rw [show entry.work = 3 from same] at less
    exact Nat.lt_irrefl _ less

end Siblings

end Archive

end Coinshift
