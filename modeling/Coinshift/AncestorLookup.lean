import Coinshift.Ancestry
import Coinshift.ForkChoice
import Coinshift.Woods

/-! The ancestor lookups of an archive that operations have built.
Both trees keep the jumps that fit below each block and no others, so that every lookup is exact. -/
namespace Coinshift
open Checked Lineage

variable {F : Type} {lib : Externals F} {world : World} {ops : List ArchiveOp}

namespace Archive

variable {archive archive' : Archive F} {b c : BlockHash} {m : MainHash}

section Jumps

theorem Woods.trim (woods : Woods lib world archive) : archive.links.Trim :=
  fun _ _ _ known isJumps => woods.jumps (heightOk.mp known) (okOrOk.mp isJumps)

theorem MainTree.trimPut {info : BlockHeaderInfo} (trim : archive.mainLinks.Trim)
    (source : PutMainHeaderSource archive info archive') : archive'.mainLinks.Trim := by
  obtain ⟨_,height,work,set,js,_,_,_,found,rfl⟩ := source
  intro m h stored known isJumps
  have known := mainHeightOk.mp known
  have isJumps := okOrOk.mp isJumps
  rw [Table.tryGetPut] at known isJumps
  split at known
  · next here =>
      rw [if_pos here] at isJumps
      cases known
      cases isJumps
      exact Links.exponentialFit found
  · next other =>
      rw [if_neg other] at isJumps
      exact trim m h stored (mainHeightOk.mpr known) (okOrOk.mpr isJumps)

theorem putMainInfoTrim {blockInfo : BlockInfo} (trim : archive.mainLinks.Trim)
    (ok : archive.putMainBlockInfo m blockInfo = .ok archive') : archive'.mainLinks.Trim := by
  obtain ⟨_,_,_,⟨_,rfl⟩ | ⟨_,_,_,_,_,_,rfl⟩⟩ := putMainInfoSource ok
  · exact trim
  · exact trim

structure Trimmed (lib : Externals F) (world : World) (archive : Archive F) : Prop where
  woods : Woods lib world archive
  main : archive.mainLinks.Trim

theorem Trimmed.new : Trimmed lib world (Archive.new F) := by
  refine ⟨Woods.new,fun m h js known => ?_⟩
  cases Table.tryGetEmpty.symm.trans (mainHeightOk.mp known)

theorem Trimmed.step (trimmed : Trimmed lib world archive) {op : ArchiveOp} (names : op.Names lib world)
    (ok : op.apply lib archive = .ok archive') : Trimmed lib world archive' := by
  refine ⟨trimmed.woods.step names ok,?_⟩
  cases op with
  | handleBlockEvent event =>
      cases event with
      | connectBlock info blockInfo =>
          obtain ⟨first,second,_,_,header,contents,_,_,rfl⟩ := connectEventSource ok
          have trim : second.mainLinks.Trim :=
            putMainInfoTrim (MainTree.trimPut trimmed.main (putMainHeaderSource header)) contents
          exact trim
      | disconnectBlock m =>
          obtain ⟨_,_,_,_,_,_,_,_,rfl⟩ := disconnectEventSource ok
          exact trimmed.main
  | putMainHeaderInfo info => exact MainTree.trimPut trimmed.main (putMainHeaderSource ok)
  | putMainBlockInfo m blockInfo => exact putMainInfoTrim trimmed.main ok
  | putHeader header =>
      obtain ⟨_,_,_,_,_,_,_,_,_,_,rfl⟩ := putHeaderSource ok
      exact trimmed.main
  | putBody b body =>
      obtain ⟨_,_,rfl⟩ := putBodyFrame ok
      exact trimmed.main
  | deleteBody b =>
      obtain ⟨_,rfl⟩ := disconnectQueueFrame ok
      exact trimmed.main

end Jumps

section Heights

theorem SideTree.stored (tree : SideTree lib world archive) (stored : (archive.headers.tryGet b).isSome = true) :
    ∃ h, archive.links.height b = .ok h := by
  obtain ⟨header,isHeader⟩ := Option.isSome_iff_exists.mp stored
  obtain ⟨h,known,_⟩ := tree.heights.counted isHeader
  exact ⟨h,heightOk.mpr known⟩

theorem MainTree.stored (tree : MainTree world archive) (stored : (archive.mainHeaderInfos.tryGet m).isSome = true) :
    ∃ h, archive.mainLinks.height m = .ok h := by
  obtain ⟨info,isInfo⟩ := Option.isSome_iff_exists.mp stored
  obtain ⟨h,known,_⟩ := tree.heights.counted isInfo
  exact ⟨h,mainHeightOk.mpr known⟩

theorem SideTree.generations (tree : SideTree lib world archive) {h : Nat} (known : archive.links.height b = .ok h) :
    ∃ root header, archive.links.up h b = some root ∧ archive.headers.tryGet root = some header ∧
      header.prevSideHash = none := by
  obtain ⟨root,above,height⟩ := tree.sound.rootAbove known
  obtain ⟨header,stored⟩ := tree.heights.only (heightOk.mp height)
  obtain ⟨n,isHeight,count⟩ := tree.heights.counted stored
  obtain rfl : n = 0 := Option.some.inj (isHeight.symm.trans (heightOk.mp height))
  rcases sideCounts count with ⟨first,_⟩ | ⟨_,k,_,_,child⟩
  · exact ⟨root,header,above,stored,first⟩
  · exact absurd child.symm (Nat.succ_ne_zero k)

theorem MainTree.generations (tree : MainTree world archive) {h : Nat} (known : archive.mainLinks.height m = .ok h) :
    ∃ root info, archive.mainLinks.up h m = some root ∧ archive.mainHeaderInfos.tryGet root = some info ∧
      info.prevBlockHash = MainHash.allZeros := by
  obtain ⟨root,above,height⟩ := tree.sound.rootAbove known
  obtain ⟨info,stored⟩ := tree.heights.only (mainHeightOk.mp height)
  obtain ⟨n,isHeight,count⟩ := tree.heights.counted stored
  obtain rfl : n = 0 := Option.some.inj (isHeight.symm.trans (mainHeightOk.mp height))
  rcases mainCounts count with ⟨zero,_⟩ | ⟨k,_,_,child⟩
  · exact ⟨root,info,above,stored,zero⟩
  · exact absurd child.symm (Nat.succ_ne_zero k)

end Heights

section Common

theorem lastCommonNone (sound : archive.links.Sound) {hb hc : Nat} (heightB : archive.links.height b = .ok hb)
    (heightC : archive.links.height c = .ok hc) (apart : ¬ ∃ a, archive.links.Descends a b ∧ archive.links.Descends a c) :
    archive.lastCommonAncestor b c = .ok none := by
  obtain ⟨b',c',evened,aboveB,aboveC,heightB',heightC'⟩ := sound.equalize heightB heightC
  obtain ⟨oldest0,found0,above0,_⟩ := sound.nth heightB' (Nat.le_refl _)
  obtain ⟨oldest1,found1,above1,_⟩ := sound.nth heightC' (Nat.le_refl _)
  have rootB : archive.links.up hb b = some oldest0 := by
    rw [show hb = (hb - hc) + min hb hc by omega,Links.upAdd,aboveB]
    exact above0
  have rootC : archive.links.up hc c = some oldest1 := by
    rw [show hc = (hc - hb) + min hb hc by omega,Links.upAdd,aboveC]
    exact above1
  have others : oldest0 ≠ oldest1 := by
    rintro rfl
    exact apart ((sound.oneRoot heightB heightC).mp (rootB.trans rootC.symm))
  have other : b' ≠ c' := by
    rintro rfl
    exact others (Option.some.inj (above0.symm.trans above1))
  unfold lastCommonAncestor getNthAncestor
  rw [evened,okBind]
  simp only [if_neg other,found0,found1,okBind,if_pos others]
  rfl

theorem lastCommonShared (sound : archive.links.Sound) {hb hc : Nat} (heightB : archive.links.height b = .ok hb)
    (heightC : archive.links.height c = .ok hc) (shared : ∃ a, archive.links.Descends a b ∧ archive.links.Descends a c) :
    archive.lastCommonAncestor b c = (archive.links.lastCommon b c).map some := by
  obtain ⟨b',c',evened,aboveB,aboveC,heightB',heightC'⟩ := sound.equalize heightB heightC
  obtain ⟨oldest0,found0,above0,_⟩ := sound.nth heightB' (Nat.le_refl _)
  obtain ⟨oldest1,found1,above1,_⟩ := sound.nth heightC' (Nat.le_refl _)
  have roots := (sound.oneRoot heightB heightC).mpr shared
  have same : oldest0 = oldest1 := by
    rw [show hb = (hb - hc) + min hb hc by omega,Links.upAdd,aboveB,Option.bind_some,above0] at roots
    rw [show hc = (hc - hb) + min hb hc by omega,Links.upAdd,aboveC] at roots
    exact Option.some.inj (roots.trans above1)
  unfold lastCommonAncestor getNthAncestor Links.lastCommon
  rw [evened,okBind,okBind]
  by_cases line : b' = c'
  · simp only [if_pos line]
    rfl
  · simp only [if_neg line,found0,found1,okBind,same,ne_eq,not_true_eq_false,if_false]
    cases archive.links.meet b' c' (min hb hc) 1 (min hb hc) with
    | error e => rfl
    | ok depth =>
        simp only [okBind]
        cases archive.links.nthAncestor b' depth <;> rfl

theorem lastCommonTotal (sound : archive.links.Sound) {hb hc : Nat} (heightB : archive.links.height b = .ok hb)
    (heightC : archive.links.height c = .ok hc) : ∃ result, archive.lastCommonAncestor b c = .ok result ∧
      (∀ x, result = some x → archive.links.HighestCommon x b c) ∧
      (result = none ↔ ¬ ∃ a, archive.links.Descends a b ∧ archive.links.Descends a c) := by
  by_cases shared : ∃ a, archive.links.Descends a b ∧ archive.links.Descends a c
  · obtain ⟨x,_,common,_⟩ := sound.lastCommon heightB heightC
    refine ⟨some x,?_,fun y isSome => ?_,fun isNone => (nomatch isNone),fun apart => absurd shared apart⟩
    · rw [lastCommonShared sound heightB heightC shared,common]
      rfl
    · cases isSome
      obtain ⟨a,first,second⟩ := shared
      exact sound.lastCommonHighest first second common
  · exact ⟨none,lastCommonNone sound heightB heightC shared,fun _ isSome => (nomatch isSome),fun _ => shared,fun _ => rfl⟩

end Common

end Archive

section Exact

open Archive Reference

theorem runTrimmed {archive : Archive F} (names : ∀ op ∈ ops, op.Names lib world) (ok : runArchive lib ops = .ok archive) :
    Trimmed lib world archive :=
  foldInvariant (P := fun archive => Trimmed lib world archive)
    (fun _ op _ mem trimmed applied => trimmed.step (names op mem) applied) Trimmed.new ok

theorem ancestorLookupExact {archive : Archive F} (names : ∀ op ∈ ops, op.Names lib world)
    (ok : runArchive lib ops = .ok archive) :
    (∀ b, (archive.headers.tryGet b).isSome = true → ∃ h root header, archive.getHeight b = .ok h ∧
      archive.links.up h b = some root ∧ archive.headers.tryGet root = some header ∧ header.prevSideHash = none ∧
      (∀ n ≤ h, ∃ a, archive.getNthAncestor b n = .ok a ∧ archive.links.up n b = some a) ∧
      (∀ n, h < n → archive.getNthAncestor b n = .error (.noAncestor b n)) ∧
      ∃ js, archive.exponentialAncestors.tryGet b = some js ∧ js.length = Nat.log2 h ∧
        ∀ i, js[i]? = if 2 ^ (i + 1) ≤ h then archive.links.up (2 ^ (i + 1)) b else none) ∧
    ∀ m, (archive.mainHeaderInfos.tryGet m).isSome = true → ∃ h root info, archive.getMainHeight m = .ok h ∧
      archive.mainLinks.up h m = some root ∧ archive.mainHeaderInfos.tryGet root = some info ∧
      info.prevBlockHash = MainHash.allZeros ∧
      (∀ n ≤ h, ∃ a, archive.getNthMainAncestor m n = .ok a ∧ archive.mainLinks.up n m = some a) ∧
      (∀ n, h < n → archive.getNthMainAncestor m n = .error (.noMainAncestor m n)) ∧
      ∃ js, archive.exponentialMainAncestors.tryGet m = some js ∧ js.length = Nat.log2 h ∧
        ∀ i, js[i]? = if 2 ^ (i + 1) ≤ h then archive.mainLinks.up (2 ^ (i + 1)) m else none := by
  have trimmed := runTrimmed names ok
  constructor
  · intro b stored
    obtain ⟨h,known⟩ := trimmed.woods.sides.stored stored
    obtain ⟨root,header,above,isHeader,first⟩ := trimmed.woods.sides.generations known
    obtain ⟨within,beyond,js,isJumps,length,entries⟩ := trimmed.woods.sides.sound.exactAt trimmed.woods.trim known
    exact ⟨h,root,header,known,above,isHeader,first,within,beyond,js,okOrOk.mp isJumps,length,entries⟩
  · intro m stored
    obtain ⟨h,known⟩ := trimmed.woods.main.stored stored
    obtain ⟨root,info,above,isInfo,first⟩ := trimmed.woods.main.generations known
    obtain ⟨within,beyond,js,isJumps,length,entries⟩ := trimmed.woods.main.sound.exactAt trimmed.main known
    exact ⟨h,root,info,known,above,isInfo,first,within,beyond,js,okOrOk.mp isJumps,length,entries⟩

theorem forkLookups : ∃ archive, runArchive externals forkOps = .ok archive ∧
    archive.getMainHeight 4 = .ok 3 ∧ archive.getNthMainAncestor 4 4 = .error (.noMainAncestor 4 4) ∧
    ∃ js, archive.exponentialMainAncestors.tryGet 4 = some js ∧ js.length = 1 := by
  have checked : runsTo externals forkOps (fun archive =>
      (archive.mainHeaderInfos.tryGet 4).isSome && (archive.getMainHeight 4).toOption = some 3) = true := by decide +kernel
  obtain ⟨archive,ran,holds⟩ := runsToRun checked
  simp only [Bool.and_eq_true,decide_eq_true_eq] at holds
  obtain ⟨stored,isThree⟩ := holds
  have known := toOptionOk isThree
  obtain ⟨h,_,_,height,_,_,_,_,beyond,js,isJumps,length,_⟩ := (ancestorLookupExact forkNames ran).2 4 stored
  obtain rfl : h = 3 := Except.ok.inj (height.symm.trans known)
  exact ⟨archive,ran,known,beyond 4 (by decide),js,isJumps,length⟩

/- Both searches answer with the highest common ancestor, and end before they run out of rounds. -/
theorem lastCommonExact {archive : Archive F} (names : ∀ op ∈ ops, op.Names lib world)
    (ok : runArchive lib ops = .ok archive) :
    (∀ b c, (archive.headers.tryGet b).isSome = true → (archive.headers.tryGet c).isSome = true →
      ∃ result, archive.lastCommonAncestor b c = .ok result ∧
        (∀ x, result = some x → archive.links.HighestCommon x b c) ∧
        (result = none ↔ ¬ ∃ a, archive.links.Descends a b ∧ archive.links.Descends a c)) ∧
    (∀ m n, (archive.mainHeaderInfos.tryGet m).isSome = true → (archive.mainHeaderInfos.tryGet n).isSome = true →
      ∃ x, archive.lastCommonMainAncestor m n = .ok x ∧
        ((∃ a, archive.mainLinks.Descends a m ∧ archive.mainLinks.Descends a n) → archive.mainLinks.HighestCommon x m n)) ∧
    (∀ b c height more, archive.links.meet b c (height + more) 1 height = archive.links.meet b c height 1 height) ∧
    ∀ m n height more, archive.mainLinks.meet m n (height + more) 1 height = archive.mainLinks.meet m n height 1 height := by
  have trees := runTrees names ok
  refine ⟨fun b c storedB storedC => ?_,fun m n storedM storedN => ?_,fun b c height more => ?_,fun m n height more => ?_⟩
  · obtain ⟨hb,heightB⟩ := trees.sides.stored storedB
    obtain ⟨hc,heightC⟩ := trees.sides.stored storedC
    exact lastCommonTotal trees.sides.sound heightB heightC
  · obtain ⟨hm,heightM⟩ := trees.main.stored storedM
    obtain ⟨hn,heightN⟩ := trees.main.stored storedN
    obtain ⟨x,_,common,_⟩ := trees.main.sound.lastCommon heightM heightN
    exact ⟨x,common,fun ⟨a,first,second⟩ => trees.main.sound.lastCommonHighest first second common⟩
  · exact Links.meetEnough height more 1 (Nat.le_add_left height 1)
  · exact Links.meetEnough height more 1 (Nat.le_add_left height 1)

theorem forkCommonAncestors : ∃ archive, runArchive externals forkOps = .ok archive ∧
    (∃ x, archive.lastCommonMainAncestor 4 5 = .ok x) ∧
    ∃ result, archive.lastCommonAncestor ((forkChild 1 2).hash externals) ((forkChild 3 2).hash externals) = .ok result ∧
      ∀ x, result = some x →
        archive.links.HighestCommon x ((forkChild 1 2).hash externals) ((forkChild 3 2).hash externals) := by
  have checked : runsTo externals forkOps (fun archive =>
      ((archive.mainHeaderInfos.tryGet 4).isSome && (archive.mainHeaderInfos.tryGet 5).isSome) &&
      ((archive.headers.tryGet ((forkChild 1 2).hash externals)).isSome &&
        (archive.headers.tryGet ((forkChild 3 2).hash externals)).isSome)) = true := by decide +kernel
  obtain ⟨archive,ran,holds⟩ := runsToRun checked
  simp only [Bool.and_eq_true] at holds
  obtain ⟨⟨fourth,fifth⟩,first,third⟩ := holds
  obtain ⟨sides,mains,_⟩ := lastCommonExact forkNames ran
  obtain ⟨x,common,_⟩ := mains 4 5 fourth fifth
  obtain ⟨result,found,highest,_⟩ := sides _ _ first third
  exact ⟨archive,ran,⟨x,common⟩,result,found,highest⟩

end Exact

end Coinshift
