import Coinshift.ListedTips
import Coinshift.Woods

/-! The invalidation of a block: its header and body go, with those of its descendants, and all of them are marked.
Taking a block away leaves its children without a parent until their turn comes; they wait on the stack. -/
namespace Coinshift
open Checked Lineage

structure Marked (F : Type) where
  archive : Archive F
  invalidBlocks : HashSet

namespace Marked

variable {F : Type}

def invalidatedBlock (marked : Marked F) (blockHash : BlockHash) : Bool := (marked.invalidBlocks.tryGet blockHash).isSome

def withoutSuccessor (archive : Archive F) (blockHash : BlockHash) : Table (Option BlockHash) HashSet :=
  match archive.headers.tryGet blockHash with
  | none => archive.successors
  | some header =>
      match archive.successors.tryGet header.prevSideHash with
      | none => archive.successors
      | some predSuccessors => archive.successors.put header.prevSideHash (predSuccessors.delete blockHash)

def invalidateRound (marked : Marked F) (blockHash : BlockHash) : Marked F × List BlockHash :=
  let archive := marked.archive
  let successors := withoutSuccessor archive blockHash
  (⟨{ archive with
      accumulators := archive.accumulators.delete blockHash
      blockHashToHeight := archive.blockHashToHeight.delete blockHash
      bodies := archive.bodies.delete blockHash
      exponentialAncestors := archive.exponentialAncestors.delete blockHash
      headers := archive.headers.delete blockHash
      successors := successors.delete (some blockHash) },
    marked.invalidBlocks.insert blockHash⟩,
    ((successors.tryGet (some blockHash)).map HashSet.items).getD [])

def successorCount (marked : Marked F) : Nat := marked.archive.successors.weigh (fun _ set => set.items.length)

/- Every block comes onto the stack as a successor, and its entry goes at once. -/
def invalidateBlock (marked : Marked F) (blockHash : BlockHash) : Except ArchiveError (Marked F) :=
  Worklist.unwind (fun marked blockHash => .ok (invalidateRound marked blockHash)) .endless (marked.successorCount + 1) marked
    [blockHash]

variable {marked marked' : Marked F} {b c p root : BlockHash} {lib : Externals F} {world : World}

section Total

theorem deleteItems {set : HashSet} {hash : Hash} : (HashSet.items (set.delete hash)).length ≤ set.items.length := by
  simp only [HashSet.items,List.length_map]
  cases found : set.tryGet hash with
  | none => rw [Table.deleteAbsent found]
  | some u =>
      rw [(Table.foundEntries found).length_eq]
      exact Nat.le_succ _

theorem withoutSuccessorWeight {archive : Archive F} :
    (withoutSuccessor archive b).weigh (fun _ set => set.items.length) ≤
      archive.successors.weigh (fun _ set => set.items.length) := by
  unfold withoutSuccessor
  split
  · exact Nat.le_refl _
  · next header _ =>
      split
      · exact Nat.le_refl _
      · next predSuccessors found =>
          have weights : (archive.successors.put header.prevSideHash (predSuccessors.delete b)).weigh
                (fun _ set => set.items.length) +
              archive.successors.weightAt (fun _ set => set.items.length) header.prevSideHash =
                archive.successors.weigh (fun _ set => set.items.length) +
                  (HashSet.items (predSuccessors.delete b)).length := Table.weighPut
          have less : (HashSet.items (predSuccessors.delete b)).length ≤ predSuccessors.items.length := deleteItems
          rw [Table.weightAt,found,Option.elim_some] at weights
          omega

theorem invalidateRoundPaid (marked : Marked F) (b : BlockHash) :
    (invalidateRound marked b).1.successorCount + (invalidateRound marked b).2.length ≤ marked.successorCount := by
  have gone : ((withoutSuccessor marked.archive b).delete (some b)).weigh (fun _ set => set.items.length) +
      (withoutSuccessor marked.archive b).weightAt (fun _ set => set.items.length) (some b) =
        (withoutSuccessor marked.archive b).weigh (fun _ set => set.items.length) := Table.weighDelete
  have less : (withoutSuccessor marked.archive b).weigh (fun _ set => set.items.length) ≤ marked.successorCount :=
    withoutSuccessorWeight
  have added : (invalidateRound marked b).2.length =
      (withoutSuccessor marked.archive b).weightAt (fun _ set => set.items.length) (some b) := by
    rw [invalidateRound,Table.weightAt]
    cases (withoutSuccessor marked.archive b).tryGet (some b) <;> rfl
  rw [added]
  exact gone.symm ▸ less

theorem invalidateTotal (marked : Marked F) (b : BlockHash) : ∃ marked', marked.invalidateBlock b = .ok marked' :=
  @Worklist.unwindPaid _ _ _ _ _ _ _ successorCount _ (fun marked b => ⟨_,_,rfl,invalidateRoundPaid marked b⟩) (Nat.le_refl _)

end Total

section Pruning

def Below (archive : Archive F) (root b : BlockHash) : Prop := b = root ∨ archive.links.Descends root b

structure Untouched (before after : Marked F) (b : BlockHash) : Prop where
  header : after.archive.headers.tryGet b = before.archive.headers.tryGet b
  height : after.archive.blockHashToHeight.tryGet b = before.archive.blockHashToHeight.tryGet b
  jumps : after.archive.exponentialAncestors.tryGet b = before.archive.exponentialAncestors.tryGet b
  body : after.archive.bodies.tryGet b = before.archive.bodies.tryGet b
  mark : after.invalidBlocks.tryGet b = before.invalidBlocks.tryGet b

structure Gone (marked : Marked F) (b : BlockHash) : Prop where
  header : marked.archive.headers.tryGet b = none
  height : marked.archive.blockHashToHeight.tryGet b = none
  body : marked.archive.bodies.tryGet b = none
  mark : marked.invalidatedBlock b = true

theorem Untouched.refl : Untouched marked marked b := ⟨rfl,rfl,rfl,rfl,rfl⟩

def SameButBlocks (archive archive' : Archive F) : Prop :=
  ∃ accumulators blockHashToHeight bodies exponentialAncestors headers successors,
    archive' = { archive with accumulators, blockHashToHeight, bodies, exponentialAncestors, headers, successors }

/- On the way: every block is as it was or gone, and a block without its parent is on the stack. -/
structure Pruning (before : Marked F) (root : BlockHash) (after : Marked F) (stack : List BlockHash) : Prop where
  each : ∀ b, Untouched before after b ∨ Gone after b ∧ Below before.archive root b
  rest : SameButBlocks before.archive after.archive
  follows : Follows after.archive.successors (fun b => (after.archive.headers.tryGet b).map (·.prevSideHash))
  followed : ∀ {k}, (∀ b, k = some b → (after.archive.headers.tryGet b).isSome = true) →
    (after.archive.successors.tryGet k).isSome = true
  orphans : ∀ {c p header}, after.archive.headers.tryGet c = some header → header.prevSideHash = some p →
    (after.archive.headers.tryGet p).isSome = true ∨ c ∈ stack
  below : ∀ k ∈ stack, Below before.archive root k
  started : root ∈ stack ∨ Gone after root

theorem Pruning.start {before : Marked F} (tree : before.archive.SideTree lib world) : Pruning before root before [root] := by
  refine ⟨fun b => .inl .refl,⟨_,_,_,_,_,_,rfl⟩,tree.follows,tree.followed,?_,?_,.inl List.mem_cons_self⟩
  · intro c p header stored isParent
    obtain ⟨n,_,count⟩ := tree.heights.counted stored
    rcases Archive.sideCounts count with ⟨first,_⟩ | ⟨q,h,isChild,known,_⟩
    · cases first.symm.trans isParent
    · cases isChild.symm.trans isParent
      obtain ⟨old,isOld⟩ := tree.heights.only known
      exact .inl (Option.isSome_iff_exists.mpr ⟨old,isOld⟩)
  · intro k mem
    exact .inl (List.mem_singleton.mp mem)

theorem withoutSome {archive : Archive F} {k : Option BlockHash} :
    ((withoutSuccessor archive b).tryGet k).isSome = (archive.successors.tryGet k).isSome := by
  unfold withoutSuccessor
  split
  · rfl
  · next header _ =>
      split
      · rfl
      · next predSuccessors found =>
          rw [Table.tryGetPut]
          split
          · next here => rw [here,found]; rfl
          · rfl

theorem withoutFollows {archive : Archive F}
    (follows : Follows archive.successors (fun c => (archive.headers.tryGet c).map (·.prevSideHash))) :
    Follows (withoutSuccessor archive b) (fun c => ((archive.headers.delete b).tryGet c).map (·.prevSideHash)) := by
  intro q set m found
  have before (found : archive.successors.tryGet q = some set) : (set.tryGet m).isSome = true ↔
      (archive.headers.tryGet m).map (·.prevSideHash) = some q := follows q set m found
  dsimp only
  rw [Table.tryGetDelete]
  unfold withoutSuccessor at found
  split at found
  · next missing =>
      rw [before found]
      split
      · next here => rw [here,missing]
      · rfl
  · next header stored =>
      have own (p : Option BlockHash) : Option.map (·.prevSideHash) (archive.headers.tryGet b) = some p ↔
          header.prevSideHash = p := by rw [stored,Option.map_some,Option.some.injEq]
      split at found
      · next missing =>
          rw [before found]
          split
          · next here =>
              rw [here,own q]
              refine iff_of_false (fun isParent => ?_) (by simp)
              rw [isParent,found] at missing
              cases missing
          · rfl
      · next predSuccessors isPred =>
          rw [Table.tryGetPut] at found
          split at found
          · next here =>
              cases found
              rw [Table.tryGetDelete]
              split
              · simp
              · rw [here]
                exact follows _ _ m isPred
          · next other =>
              rw [before found]
              split
              · next here =>
                  rw [here,own q]
                  exact iff_of_false (fun isParent => other isParent.symm) (by simp)
              · rfl

theorem roundUntouched (other : c ≠ b) : Untouched marked (invalidateRound marked b).1 c := by
  refine ⟨?_,?_,?_,?_,?_⟩
  · exact Table.tryGetDeleteOther other
  · exact Table.tryGetDeleteOther other
  · exact Table.tryGetDeleteOther other
  · exact Table.tryGetDeleteOther other
  · exact Table.tryGetPutOther other

theorem roundGone : Gone (invalidateRound marked b).1 b := by
  refine ⟨Table.tryGetDeleteSelf,Table.tryGetDeleteSelf,Table.tryGetDeleteSelf,?_⟩
  rw [invalidatedBlock,invalidateRound,HashSet.insert,Table.tryGetPutSelf]
  rfl

theorem Untouched.trans {first second third : Marked F} (before : Untouched first second b) (after : Untouched second third b) :
    Untouched first third b :=
  ⟨after.header.trans before.header,after.height.trans before.height,after.jumps.trans before.jumps,
    after.body.trans before.body,after.mark.trans before.mark⟩

theorem Untouched.gone {first second : Marked F} (same : Untouched first second b) (gone : Gone first b) : Gone second b := by
  refine ⟨same.header.trans gone.header,same.height.trans gone.height,same.body.trans gone.body,?_⟩
  rw [invalidatedBlock,same.mark]
  exact gone.mark

theorem Below.child {archive : Archive F} (tree : archive.SideTree lib world) {header : Header} (above : Below archive root p)
    (stored : archive.headers.tryGet c = some header) (isParent : header.prevSideHash = some p) : Below archive root c := by
  obtain ⟨n,height,count⟩ := tree.heights.counted stored
  rcases Archive.sideCounts count with ⟨first,_⟩ | ⟨q,h,isChild,known,rfl⟩
  · cases first.symm.trans isParent
  · cases isChild.symm.trans isParent
    have up : archive.links.up 1 c = some p := by
      rw [Links.up,Archive.parentOk.mpr ⟨header,stored,isParent⟩]
      rfl
    have step : archive.links.Descends p c := ⟨h + 1,1,Archive.heightOk.mpr height,Nat.le_add_left 1 h,up⟩
    rcases above with rfl | descends
    · exact .inr step
    · exact .inr (tree.sound.descentTrans descends step)

theorem Pruning.header {before after : Marked F} {stack : List BlockHash} {header : Header}
    (pruning : Pruning before root after stack) (stored : after.archive.headers.tryGet b = some header) :
    Untouched before after b ∧ before.archive.headers.tryGet b = some header := by
  rcases pruning.each b with same | ⟨gone,_⟩
  · exact ⟨same,same.header.symm.trans stored⟩
  · cases gone.header.symm.trans stored

theorem SameButBlocks.trans {first second third : Archive F} (before : SameButBlocks first second)
    (after : SameButBlocks second third) : SameButBlocks first third := by
  obtain ⟨_,_,_,_,_,_,rfl⟩ := before
  obtain ⟨_,_,_,_,_,_,rfl⟩ := after
  exact ⟨_,_,_,_,_,_,rfl⟩

theorem Pruning.next {before after : Marked F} {stack : List BlockHash} (tree : before.archive.SideTree lib world)
    (pruning : Pruning before root after (b :: stack)) :
    Pruning before root (invalidateRound after b).1 ((invalidateRound after b).2.reverse ++ stack) := by
  have isBelow := pruning.below b List.mem_cons_self
  have follows := withoutFollows (b := b) pruning.follows
  have stored {c : BlockHash} {header : Header} (isStored : (after.archive.headers.delete b).tryGet c = some header) :
      c ≠ b ∧ after.archive.headers.tryGet c = some header := by
    rw [Table.tryGetDelete] at isStored
    split at isStored
    · cases isStored
    · next other => exact ⟨other,isStored⟩
  have successors {c : BlockHash} {k : Option BlockHash} {set : HashSet} (found : (withoutSuccessor after.archive b).tryGet k = some set) :
      c ∈ set.items ↔ ∃ header, (after.archive.headers.delete b).tryGet c = some header ∧ header.prevSideHash = k := by
    rw [Archive.itemsMem,follows _ _ c found,Option.map_eq_some_iff]
  refine ⟨fun c => ?_,pruning.rest.trans ⟨_,_,_,_,_,_,rfl⟩,?_,?_,?_,?_,?_⟩
  · by_cases here : c = b
    · exact .inr ⟨here ▸ roundGone,here ▸ isBelow⟩
    · rcases pruning.each c with same | ⟨gone,isBelow⟩
      · exact .inl (same.trans (roundUntouched here))
      · exact .inr ⟨(roundUntouched here).gone gone,isBelow⟩
  · intro q set m found
    refine follows q set m ?_
    rw [invalidateRound,Table.tryGetDelete] at found
    split at found
    · cases found
    · exact found
  · intro k isStored
    have other : k ≠ some b := by
      intro same
      have there := isStored b same
      rw [invalidateRound,Table.tryGetDeleteSelf] at there
      cases there
    rw [invalidateRound,Table.tryGetDeleteOther other,withoutSome]
    refine pruning.followed (fun c same => ?_)
    obtain ⟨header,isHeader⟩ := Option.isSome_iff_exists.mp (isStored c same)
    exact Option.isSome_iff_exists.mpr ⟨header,(stored isHeader).2⟩
  -- a child of the block that goes is among its successors, or was on the stack already
  · intro c p header isStored isParent
    obtain ⟨other,isStored'⟩ := stored isStored
    by_cases here : p = b
    · subst here
      right
      cases found : (withoutSuccessor after.archive p).tryGet (some p) with
      | some set =>
          refine List.mem_append_left _ (List.mem_reverse.mpr ?_)
          rw [invalidateRound,found]
          exact (successors found).mpr ⟨header,isStored,isParent⟩
      | none =>
          refine List.mem_append_right _ ?_
          rcases pruning.orphans isStored' isParent with parentStored | onStack
          · have there : ((withoutSuccessor after.archive p).tryGet (some p)).isSome =
                (after.archive.successors.tryGet (some p)).isSome := withoutSome
            rw [found,pruning.followed (fun c same => Option.some.inj same ▸ parentStored)] at there
            cases there
          · exact (List.mem_cons.mp onStack).resolve_left other
    · rcases pruning.orphans isStored' isParent with parentStored | onStack
      · left
        rw [invalidateRound,Table.tryGetDeleteOther here]
        exact parentStored
      · exact .inr (List.mem_append_right _ ((List.mem_cons.mp onStack).resolve_left other))
  · intro k mem
    rcases List.mem_append.mp mem with isMore | inStack
    · rw [List.mem_reverse,invalidateRound] at isMore
      cases found : (withoutSuccessor after.archive b).tryGet (some b) with
      | none =>
          rw [found] at isMore
          cases isMore
      | some set =>
          rw [found] at isMore
          obtain ⟨header,isStored,isParent⟩ := (successors found).mp isMore
          exact isBelow.child tree (pruning.header (stored isStored).2).2 isParent
    · exact pruning.below k (List.mem_cons_of_mem _ inStack)
  · rcases pruning.started with inStack | gone
    · rcases List.mem_cons.mp inStack with rfl | inRest
      · exact .inr roundGone
      · exact .inl (List.mem_append_right _ inRest)
    · by_cases here : root = b
      · exact .inr (here ▸ roundGone)
      · exact .inr ((roundUntouched here).gone gone)

theorem invalidatePrunes {before after : Marked F} (tree : before.archive.SideTree lib world)
    (ok : before.invalidateBlock root = .ok after) : Pruning before root after [] := by
  refine Worklist.unwindInvariant (P := Pruning before root) (fun marked k stack marked' more pruning round => ?_)
    (.start tree) ok
  have done : invalidateRound marked k = (marked',more) := Except.ok.inj round
  have next := pruning.next tree
  rw [done] at next
  exact next

theorem Pruning.untouched {before after : Marked F} (pruning : Pruning before root after []) {h : Nat}
    (known : after.archive.blockHashToHeight.tryGet b = some h) : Untouched before after b := by
  rcases pruning.each b with same | ⟨gone,_⟩
  · exact same
  · cases gone.height.symm.trans known

theorem Pruning.parentHeight {before after : Marked F} (pruning : Pruning before root after []) {header : Header} {h : Nat}
    (stored : after.archive.headers.tryGet b = some header) (isParent : header.prevSideHash = some p)
    (known : before.archive.blockHashToHeight.tryGet p = some h) : after.archive.blockHashToHeight.tryGet p = some h := by
  rcases pruning.orphans stored isParent with parentStored | onStack
  · obtain ⟨parent,isStored⟩ := Option.isSome_iff_exists.mp parentStored
    exact (pruning.header isStored).1.height.trans known
  · cases onStack

theorem Pruning.heights {before after : Marked F} (tree : before.archive.SideTree lib world)
    (pruning : Pruning before root after []) : Archive.sideHeights.Kept after.archive.headers after.archive.blockHashToHeight := by
  constructor
  · intro b header stored
    obtain ⟨same,isStored⟩ := pruning.header stored
    obtain ⟨n,known,count⟩ := tree.heights.counted isStored
    refine ⟨n,same.height.trans known,?_⟩
    cases count with
    | root first => exact .root first
    | child isParent parentKnown => exact .child isParent (pruning.parentHeight stored isParent parentKnown)
  · intro b n known
    have same := pruning.untouched known
    obtain ⟨header,stored⟩ := tree.heights.only (same.height.symm.trans known)
    exact ⟨header,same.header.trans stored⟩

theorem Pruning.sound {before after : Marked F} (tree : before.archive.SideTree lib world)
    (pruning : Pruning before root after []) : after.archive.links.Sound := by
  refine tree.sound.restrict ?_ ?_ ?_
  · intro b h known
    have same := pruning.untouched (Archive.heightOk.mp known)
    refine ⟨Archive.heightOk.mpr (same.height.symm.trans (Archive.heightOk.mp known)),?_⟩
    simp only [Archive.links,Archive.getHeader,same.header]
  · intro b h known
    have same := pruning.untouched (Archive.heightOk.mp known)
    simp only [Archive.links,same.jumps]
  · intro b p h known isParent
    obtain ⟨header,stored,isPrev⟩ := Archive.parentOk.mp isParent
    obtain ⟨same,isStored⟩ := pruning.header stored
    obtain ⟨q,isParent',parentKnown⟩ := tree.sound.step
      (Archive.heightOk.mpr (same.height.symm.trans (Archive.heightOk.mp known)))
    obtain ⟨header',stored',isPrev'⟩ := Archive.parentOk.mp isParent'
    cases isStored.symm.trans stored'
    cases isPrev.symm.trans isPrev'
    exact Archive.heightOk.mpr (pruning.parentHeight stored isPrev (Archive.heightOk.mp parentKnown))

theorem Pruning.sideTree {before after : Marked F} (tree : before.archive.SideTree lib world)
    (pruning : Pruning before root after []) : after.archive.SideTree lib world := by
  refine ⟨pruning.sound tree,?_,pruning.heights tree,pruning.follows,pruning.followed,?_⟩
  · intro b header stored
    exact tree.named (pruning.header stored).2
  · intro b hasBody
    rcases pruning.each b with same | ⟨gone,_⟩
    · rw [same.body] at hasBody
      rw [same.header]
      exact tree.bodies hasBody
    · rw [gone.body] at hasBody
      cases hasBody

theorem Pruning.woods {before after : Marked F} (woods : before.archive.Woods lib world)
    (pruning : Pruning before root after []) : after.archive.Woods lib world := by
  have sides := pruning.sideTree woods.sides
  refine ⟨?_,fun {b h js} known isJumps => ?_⟩
  · obtain ⟨_,_,_,_,_,_,rest⟩ := pruning.rest
    rw [rest] at sides ⊢
    exact ⟨{ woods.main with },sides,{ woods.infos with },woods.results⟩
  · have same := pruning.untouched known
    exact woods.jumps (same.height.symm.trans known) (same.jumps.symm.trans isJumps)

def Apart (marked : Marked F) : Prop := ∀ b, marked.invalidatedBlock b = true → marked.archive.headers.tryGet b = none

theorem Pruning.apart {before after : Marked F} (apart : before.Apart) (pruning : Pruning before root after []) :
    after.Apart := by
  intro b isMarked
  rcases pruning.each b with same | ⟨gone,_⟩
  · rw [same.header]
    refine apart b ?_
    rw [invalidatedBlock,← same.mark]
    exact isMarked
  · exact gone.header

end Pruning

end Marked

end Coinshift
