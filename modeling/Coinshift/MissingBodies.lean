import Coinshift.ChainIteration
import Coinshift.HeaderStore

/-! The blocks without a body, forwards.
Going forward from the block after an ancestor asks for the same bodies, in the same order, as going back to it. -/
namespace Coinshift
open Checked Lineage

variable {F : Type} {lib : Externals F} {world : World} {ops : List ArchiveOp}

namespace Archive

/- The headers bound what the iterator gives out. -/
def iterMissingBodies (archive : Archive F) (blockHash : BlockHash) (startHeight : Nat) :
    Except ArchiveError (List BlockHash) := do
  let ancestors ← archive.ancestorsRev.take (archive.headers.entries.length + 1) (Position.new blockHash startHeight)
  pure (ancestors.filterMap (fun ancestor => if archive.containsBody ancestor.1 then none else some ancestor.1))

variable {archive : Archive F} {a b : BlockHash} {h : Nat}

section Missing

theorem SideTree.walkMissing (tree : SideTree lib world archive) (n : Nat) {fuel : Nat} (known : archive.links.height b = .ok h)
    (bound : n ≤ h) (above : archive.links.up n b = some a) (enough : n < fuel) :
    ∃ taken, archive.ancestorsRev.takeBack n (some b) = .ok taken ∧
      walkUntil (fun b => (archive.getHeader b).map (·.prevSideHash)) (fun b => some b = some a)
        (fun b => .ok (if archive.containsBody b then none else some b)) ArchiveError.endless fuel (some b) =
        .ok (taken.filterMap (fun taken => if archive.containsBody taken.1 then none else some taken.1)) := by
  induction n generalizing b h fuel with
  | zero =>
      obtain ⟨fuel,rfl⟩ := Nat.exists_eq_add_of_le' enough
      obtain ⟨header,stored⟩ := tree.heights.only (heightOk.mp known)
      have isHeader : archive.getHeader b = .ok header := okOrOk.mpr stored
      cases above
      refine ⟨[],rfl,?_⟩
      rw [walkUntil,isHeader]
      simp only [Except.map,okBind,decide_true,if_true]
      rfl
  | succ n ih =>
      obtain ⟨k,rfl⟩ := Nat.exists_eq_add_of_le' (Nat.lt_of_lt_of_le (Nat.succ_pos n) bound)
      obtain ⟨p,isParent,parentKnown⟩ := tree.sound.step known
      have further := above
      rw [Links.up,isParent] at further
      obtain ⟨header,stored,isPrev⟩ := parentOk.mp isParent
      have isHeader : archive.getHeader b = .ok header := okOrOk.mpr stored
      obtain ⟨fuel,rfl⟩ := Nat.exists_eq_add_of_le' (Nat.lt_of_le_of_lt (Nat.zero_le _) enough)
      have left : n < fuel := Nat.lt_of_succ_lt_succ enough
      obtain ⟨taken,isTaken,walked⟩ := ih parentKnown (Nat.le_of_succ_le_succ bound) further left
      obtain ⟨a',above',height⟩ := tree.sound.upHeight known bound
      cases above.symm.trans above'
      have other : b ≠ a := by
        rintro rfl
        have same := Except.ok.inj (known.symm.trans height)
        omega
      refine ⟨(b,header) :: taken,?_,?_⟩
      · have isItem : archive.ancestorsRev.item b = .ok (b,header) := by
          simp only [ancestorsRev,headerOf,isHeader,okBind]
          rfl
        have follows : archive.ancestorsRev.follows (b,header) = some p := isPrev
        rw [Forward.takeBack,isItem,okBind,follows,isTaken]
        rfl
      · have isNext : (archive.getHeader b).map (·.prevSideHash) = .ok (some p) := by
          rw [isHeader,← isPrev]
          rfl
        have goesOn : ¬ decide (some b = some a) = true := by simpa using other
        rw [walkUntil,isNext,okBind,if_neg goesOn,okBind,walked,okBind,List.filterMap_cons]
        cases archive.containsBody b <;> rfl

theorem SideTree.missingForward (tree : SideTree lib world archive) (known : archive.links.height b = .ok h)
    (fits : h ≤ maxU32) (descends : archive.links.Descends a b) {k : Nat} (heightA : archive.links.height a = .ok k) :
    ∃ missing, NetTask.getMissingBodies archive b (some a) = .ok missing ∧ archive.iterMissingBodies b (k + 1) = .ok missing := by
  obtain ⟨k',below,heightA',above⟩ := tree.sound.descent descends known
  obtain rfl : k' = k := Except.ok.inj (heightA'.symm.trans heightA)
  have bounded := tree.heightBound (heightOk.mp known)
  obtain ⟨taken,isTaken,walked⟩ := tree.walkMissing (h - k') known (Nat.sub_le h k') above (Nat.lt_of_le_of_lt (Nat.sub_le h k') bounded)
  obtain ⟨line,isLine,forward⟩ := tree.forward known fits (k' + 1)
  have back := isLine.back 0 (Nat.zero_le h) b rfl (h - k')
  obtain rfl := Except.ok.inj (isTaken.symm.trans back)
  have short : (line.take (h - k')).reverse.length ≤ archive.headers.entries.length + 1 := by
    rw [List.length_reverse,List.length_take]
    omega
  refine ⟨_,by rw [NetTask.getMissingBodies,ancestorsUntil,walked]; rfl,?_⟩
  rw [iterMissingBodies,forward,okBind,show h + 1 - (k' + 1) = h - k' by omega,List.take_of_length_le short]
  simp only [List.drop_zero,List.filterMap_reverse]
  rfl

end Missing

end Archive

open Archive Reference

/- Both iterators give out exactly the blocks from the start height up to the end block, lowest first. -/
theorem forwardIterationExact {archive : Archive F} (names : ∀ op ∈ ops, op.Names lib world)
    (ok : runArchive lib ops = .ok archive) :
    (∀ b h start, archive.getHeight b = .ok h → h ≤ maxU32 → ∃ items : List (BlockHash × Header), items.length = h + 1 - start ∧
      (∀ i, start + i ≤ h → ∃ a header, items[i]? = some (a,header) ∧ archive.links.up (h - (start + i)) b = some a ∧
        archive.getHeight a = .ok (start + i) ∧ archive.headers.tryGet a = some header) ∧
      ∀ count, archive.ancestorsRev.take count (Position.new b start) = .ok (items.take count)) ∧
    (∀ m h info start, archive.getMainHeight m = .ok h → archive.mainHeaderInfos.tryGet m = some info → info.height = h →
      h ≤ maxU32 → ∃ items : List BlockHeaderInfo, items.length = h + 1 - start ∧
      (∀ i, start + i ≤ h → ∃ a item, items[i]? = some item ∧ archive.mainLinks.up (h - (start + i)) m = some a ∧
        archive.getMainHeight a = .ok (start + i) ∧ archive.mainHeaderInfos.tryGet a = some item) ∧
      ∀ count, archive.mainchainAncestorsRev.take count (Position.new m start) = .ok (items.take count)) ∧
    ∀ a b h k, archive.links.Descends a b → archive.getHeight b = .ok h → h ≤ maxU32 → archive.getHeight a = .ok k →
      ∃ missing, NetTask.getMissingBodies archive b (some a) = .ok missing ∧
        archive.iterMissingBodies b (k + 1) = .ok missing := by
  have trees := runTrees names ok
  refine ⟨fun b h start known fits => ?_,fun m h info start known stored same fits => ?_,fun a b h k descends known fits heightA =>
    trees.sides.missingForward known fits descends heightA⟩
  · obtain ⟨line,isLine,taken⟩ := trees.sides.forward known fits start
    obtain ⟨length,places⟩ := lineForward isLine start
    refine ⟨_,length,fun i bound => ?_,taken⟩
    obtain ⟨a,item,atIndex,above,isItem⟩ := places i bound
    obtain ⟨a',above',height⟩ := trees.sides.sound.upHeight known (Nat.sub_le h (start + i))
    cases above.symm.trans above'
    simp only [ancestorsRev,headerOf,getHeader,bindOk,okOrOk,pureOk] at isItem
    obtain ⟨header,isHeader,rfl⟩ := isItem
    rw [Nat.sub_sub_self bound] at height
    exact ⟨a,header,atIndex,above,height,isHeader⟩
  · subst same
    have reach : info.height - start < info.height + maxBatchSize := by
      unfold maxBatchSize
      omega
    obtain ⟨line,isLine,taken⟩ := trees.main.forward known stored fits reach
    obtain ⟨length,places⟩ := lineForward isLine start
    refine ⟨_,length,fun i bound => ?_,taken⟩
    obtain ⟨a,item,atIndex,above,isItem⟩ := places i bound
    obtain ⟨a',above',height⟩ := trees.main.sound.upHeight known (Nat.sub_le info.height (start + i))
    cases above.symm.trans above'
    rw [Nat.sub_sub_self bound] at height
    exact ⟨a,item,atIndex,above,height,okOrOk.mp isItem⟩

theorem forkForward : ∃ archive, runArchive externals forkOps = .ok archive ∧
    (∃ items : List BlockHeaderInfo, items.length = 3 ∧
      ∀ count, archive.mainchainAncestorsRev.take count (Position.new 4 1) = .ok (items.take count)) ∧
    (∃ items : List (BlockHash × Header), items.length = 2 ∧
      ∀ count, archive.ancestorsRev.take count (Position.new ((forkChild 1 2).hash externals) 0) = .ok (items.take count)) ∧
    ∃ missing, NetTask.getMissingBodies archive ((forkChild 1 2).hash externals) (some (forkGenesis.hash externals)) = .ok missing ∧
      archive.iterMissingBodies ((forkChild 1 2).hash externals) 1 = .ok missing := by
  have checked : runsTo externals forkOps (fun archive =>
      ((archive.getMainHeight 4).toOption = some 3 && archive.mainHeaderInfos.tryGet 4 = some ⟨4,3,3,2⟩) &&
      ((archive.getHeight ((forkChild 1 2).hash externals)).toOption = some 1 &&
        ((archive.getHeight (forkGenesis.hash externals)).toOption = some 0 &&
          archive.links.up 1 ((forkChild 1 2).hash externals) = some (forkGenesis.hash externals)))) = true := by decide +kernel
  obtain ⟨archive,ran,holds⟩ := runsToRun checked
  simp only [Bool.and_eq_true,decide_eq_true_eq] at holds
  obtain ⟨⟨isThree,isInfo⟩,isOne,isZero,above⟩ := holds
  obtain ⟨sides,mains,missing⟩ := forwardIterationExact forkNames ran
  have known := toOptionOk isOne
  have descends : archive.links.Descends (forkGenesis.hash externals) ((forkChild 1 2).hash externals) :=
    ⟨1,1,known,Nat.le_refl 1,above⟩
  obtain ⟨items,length,_,taken⟩ := mains 4 3 ⟨4,3,3,2⟩ 1 (toOptionOk isThree) isInfo rfl (by decide)
  obtain ⟨items',length',_,taken'⟩ := sides _ 1 0 known (by decide)
  exact ⟨archive,ran,⟨items,length,taken⟩,⟨items',length',taken'⟩,
    missing _ _ 1 0 descends known (by decide) (toOptionOk isZero)⟩

end Coinshift
