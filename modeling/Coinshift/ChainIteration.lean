import Coinshift.AncestorLookup
import Coinshift.ForwardWalk

/-! The two iterators that go forwards along a chain.
`AncestorsRev` asks the height index where its chain ends; `MainchainAncestorsRev` believes the header. -/
namespace Coinshift
open Checked Lineage

variable {F : Type} {lib : Externals F} {world : World}

namespace Archive

section Iterators

variable (archive : Archive F)

def headerOf (blockHash : BlockHash) : Except ArchiveError (BlockHash × Header) := do
  let header ← archive.getHeader blockHash
  pure (blockHash,header)

def ancestorsRev : Forward ArchiveError BlockHash (BlockHash × Header) where
  endHeight := archive.getHeight
  nth := archive.getNthAncestor
  begins := some
  item := archive.headerOf
  follows item := item.2.prevSideHash
  limit := maxU32

def mainchainAncestorsRev : Forward ArchiveError MainHash BlockHeaderInfo where
  endHeight mainHash := (archive.getMainHeaderInfo mainHash).map (·.height)
  nth := archive.getNthMainAncestor
  begins := mainBlock
  item := archive.getMainHeaderInfo
  follows info := mainBlock info.prevBlockHash
  limit := maxU32

end Iterators

variable {archive : Archive F} {b : BlockHash} {m : MainHash} {h : Nat}

section Reads

theorem SideTree.reads (tree : SideTree lib world archive) : Forward.Reads archive.ancestorsRev archive.links := by
  refine ⟨rfl,fun {b h} known => ⟨rfl,?_⟩⟩
  obtain ⟨header,stored⟩ := tree.heights.only (heightOk.mp known)
  obtain ⟨n,isHeight,count⟩ := tree.heights.counted stored
  obtain rfl : n = h := Option.some.inj (isHeight.symm.trans (heightOk.mp known))
  refine ⟨(b,header),?_,fun zero => ?_,fun k child => ?_⟩
  · simp only [ancestorsRev,headerOf,getHeader,stored]
    rfl
  · rcases sideCounts count with ⟨first,_⟩ | ⟨_,k,_,_,child⟩
    · exact first
    · exact absurd (child.symm.trans zero) (Nat.succ_ne_zero k)
  · rcases sideCounts count with ⟨_,zero⟩ | ⟨p,_,isParent,_,_⟩
    · exact absurd (child.symm.trans zero) (Nat.succ_ne_zero k)
    · exact ⟨p,parentOk.mpr ⟨header,stored,isParent⟩,isParent⟩

theorem MainTree.reads (tree : MainTree world archive) : Forward.Reads archive.mainchainAncestorsRev archive.mainLinks := by
  refine ⟨rfl,fun {m h} known => ?_⟩
  obtain ⟨info,stored⟩ := tree.heights.only (mainHeightOk.mp known)
  obtain ⟨n,isHeight,count⟩ := tree.heights.counted stored
  obtain rfl : n = h := Option.some.inj (isHeight.symm.trans (mainHeightOk.mp known))
  obtain ⟨⟨_,nonZero⟩,own⟩ := tree.named stored
  refine ⟨mainBlockSome.mpr ⟨own ▸ nonZero,rfl⟩,info,okOrOk.mpr stored,fun zero => ?_,fun k child => ?_⟩
  · rcases mainCounts count with ⟨first,_⟩ | ⟨k,_,_,child⟩
    · exact mainBlockNone.mpr first
    · exact absurd (child.symm.trans zero) (Nat.succ_ne_zero k)
  · rcases mainCounts count with ⟨_,zero⟩ | ⟨_,inner,_,_⟩
    · exact absurd (child.symm.trans zero) (Nat.succ_ne_zero k)
    · exact ⟨info.prevBlockHash,mainParentOk.mpr ⟨info,stored,rfl⟩,mainBlockSome.mpr ⟨inner,rfl⟩⟩

theorem SideTree.forward (tree : SideTree lib world archive) (known : archive.links.height b = .ok h) (fits : h ≤ maxU32)
    (start : Nat) : ∃ line, Forward.Line archive.ancestorsRev archive.links b h line ∧
      ∀ count, archive.ancestorsRev.take count (Position.new b start) = .ok ((line.take (h + 1 - start)).reverse.take count) := by
  obtain ⟨line,isLine⟩ := tree.reads.line tree.sound known
  have reach : h - start < h + maxBatchSize := by
    unfold maxBatchSize
    omega
  exact ⟨line,isLine,tree.reads.take tree.sound known isLine known fits reach⟩

theorem MainTree.forward (tree : MainTree world archive) (known : archive.mainLinks.height m = .ok h)
    {info : BlockHeaderInfo} (stored : archive.mainHeaderInfos.tryGet m = some info) (fits : info.height ≤ maxU32)
    {start : Nat} (reach : info.height - start < h + maxBatchSize) :
    ∃ line, Forward.Line archive.mainchainAncestorsRev archive.mainLinks m h line ∧
      ∀ count, archive.mainchainAncestorsRev.take count (Position.new m start) =
        .ok ((line.take (info.height + 1 - start)).reverse.take count) := by
  obtain ⟨line,isLine⟩ := tree.reads.line tree.sound known
  have endHeight : archive.mainchainAncestorsRev.endHeight m = .ok info.height := by
    simp only [mainchainAncestorsRev,getMainHeaderInfo,stored]
    rfl
  exact ⟨line,isLine,tree.reads.take tree.sound known isLine endHeight fits reach⟩

end Reads

section Places

variable {ε K I : Type} {walk : Forward ε K I} {links : Links ε K} {line : List I}

theorem lineForward {end_ : K} (isLine : Forward.Line walk links end_ h line) (start : Nat) :
    (line.take (h + 1 - start)).reverse.length = h + 1 - start ∧ ∀ i, start + i ≤ h → ∃ a item,
      (line.take (h + 1 - start)).reverse[i]? = some item ∧ links.up (h - (start + i)) end_ = some a ∧
      walk.item a = .ok item := by
  have length : (line.take (h + 1 - start)).length = h + 1 - start := by
    rw [List.length_take,isLine.length]
    exact Nat.min_eq_left (Nat.sub_le _ _)
  refine ⟨by rw [List.length_reverse,length],fun i bound => ?_⟩
  obtain ⟨a,item,above,isItem,atIndex⟩ := isLine.items (h - (start + i)) (Nat.sub_le _ _)
  refine ⟨a,item,?_,above,isItem⟩
  have inside : i < (line.take (h + 1 - start)).length := by omega
  have index : (line.take (h + 1 - start)).length - 1 - i = h - (start + i) := by omega
  rw [List.getElem?_reverse inside,index,List.getElem?_take_of_lt (by omega)]
  exact atIndex

end Places

end Archive

end Coinshift
