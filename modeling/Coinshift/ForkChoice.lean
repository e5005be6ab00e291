import Coinshift.ArchiveRuns
import Coinshift.Reference

/-! The choice between two tips.
Which of the two is better depends on heights, on work and on how the main-chain blocks of the tips are related.
Along one main chain the choice follows an order; across a fork of the main chain it need not. -/
namespace Coinshift
open Checked Lineage

variable {F : Type} {lib : Externals F} {world : World} {ops : List ArchiveOp}

namespace Archive

variable {archive : Archive F} {t u : Tip} {h0 h1 w0 w1 : Nat}

def Prefers (archive : Archive F) (t u : Tip) : Prop := archive.betterTip t u = .ok (some u)

section Reasons

inductive Ranked (archive : Archive F) (t u : Tip) (h0 h1 w0 w1 : Nat) : Prop
  | higher (work : w0 ≤ w1) (height : h0 < h1)
  | heavier (work : w0 < w1) (height : h0 = h1)
      (apart : archive.sharedMainchainLineage t.mainBlockHash u.mainBlockHash = .ok false)
  | lighter (work : w1 < w0) (height : h0 = h1)
      (shared : archive.sharedMainchainLineage t.mainBlockHash u.mainBlockHash = .ok true)
  | overtakes {x : MainHash} {before : Option Nat} (work : w0 < w1) (height : h1 < h0)
      (common : archive.lastCommonMainAncestor t.mainBlockHash u.mainBlockHash = .ok x)
      (found : archive.heightBefore x t.blockHash = .ok before) (less : place before < place (some h1))
  | staysAhead {x : MainHash} {before : Option Nat} (work : w1 < w0) (height : h0 < h1)
      (common : archive.lastCommonMainAncestor t.mainBlockHash u.mainBlockHash = .ok x)
      (found : archive.heightBefore x u.blockHash = .ok before) (more : place (some h0) ≤ place before)
  | wasAhead {x : MainHash} {h : Nat} {before0 before1 : Option (Nat × Nat)} (work : w0 = w1) (height : h0 = h1)
      (different : t.blockHash ≠ u.blockHash)
      (common : archive.lastCommonMainAncestor t.mainBlockHash u.mainBlockHash = .ok x)
      (mainHeight : archive.getMainHeight x = .ok h)
      (found0 : archive.heightAndWorkBefore x h t.blockHash = .ok before0)
      (found1 : archive.heightAndWorkBefore x h u.blockHash = .ok before1)
      (more : place (before0.map (·.1)) < place (before1.map (·.1)) ∨
        place (before0.map (·.1)) = place (before1.map (·.1)) ∧
          place (before1.map (·.2)) < place (before0.map (·.2)))

inductive Reason (archive : Archive F) (t u : Tip) (h0 h1 : Nat) : Prop
  | overGenesis (first : h0 = 0) (later : h1 ≠ 0)
  | ranked {w0 w1 : Nat} (later0 : h0 ≠ 0) (later1 : h1 ≠ 0) (work0 : archive.getTotalWork t.mainBlockHash = .ok w0)
      (work1 : archive.getTotalWork u.mainBlockHash = .ok w1) (rank : Ranked archive t u h0 h1 w0 w1)

theorem prefersSource (prefers : archive.Prefers t u) : t ≠ u ∧ ∃ h0 h1, archive.getHeight t.blockHash = .ok h0 ∧
    archive.getHeight u.blockHash = .ok h1 ∧ Reason archive t u h0 h1 := by
  unfold Prefers betterTip at prefers
  split at prefers
  · cases prefers
  next different =>
  simp only [bindOk] at prefers
  obtain ⟨h0,height0,h1,height1,prefers⟩ := prefers
  refine ⟨different,h0,h1,height0,height1,?_⟩
  have notFirst : ¬ some t = some u := fun same => different (Option.some.inj same)
  split at prefers
  · cases prefers
  next notBoth =>
  split at prefers
  · next zero => exact .overGenesis zero (fun other => notBoth ⟨zero,other⟩)
  next later0 =>
  split at prefers
  · exact absurd (pureOk.mp prefers) notFirst
  next later1 =>
  simp only [bindOk] at prefers
  obtain ⟨w0,work0,w1,work1,prefers⟩ := prefers
  refine .ranked later0 later1 work0 work1 ?_
  split at prefers
  · next work height => exact .higher (Nat.le_of_lt (Nat.compare_eq_lt.mp work)) (Nat.compare_eq_lt.mp height)
  · next work height => exact .higher (Nat.le_of_eq (Nat.compare_eq_eq.mp work)) (Nat.compare_eq_lt.mp height)
  · exact absurd (pureOk.mp prefers) notFirst
  · exact absurd (pureOk.mp prefers) notFirst
  · next work height =>
      simp only [bindOk,pureOk] at prefers
      obtain ⟨shared,isShared,chosen⟩ := prefers
      cases shared with
      | true => exact absurd chosen notFirst
      | false => exact .heavier (Nat.compare_eq_lt.mp work) (Nat.compare_eq_eq.mp height) isShared
  · next work height =>
      simp only [bindOk,pureOk] at prefers
      obtain ⟨shared,isShared,chosen⟩ := prefers
      cases shared with
      | true => exact .lighter (Nat.compare_eq_gt.mp work) (Nat.compare_eq_eq.mp height) isShared
      | false => exact absurd chosen notFirst
  · next work height =>
      simp only [bindOk,pureOk] at prefers
      obtain ⟨x,common,before,found,chosen⟩ := prefers
      split at chosen
      · exact absurd chosen notFirst
      · next less =>
          exact .overtakes (Nat.compare_eq_lt.mp work) (Nat.compare_eq_gt.mp height) common found (Nat.not_le.mp less)
  · next work height =>
      simp only [bindOk,pureOk] at prefers
      obtain ⟨x,common,before,found,chosen⟩ := prefers
      split at chosen
      · exact absurd chosen notFirst
      · next more =>
          exact .staysAhead (Nat.compare_eq_gt.mp work) (Nat.compare_eq_lt.mp height) common found (Nat.not_lt.mp more)
  · next work height =>
      split at prefers
      · exact absurd (pureOk.mp prefers) notFirst
      next apart =>
      simp only [bindOk] at prefers
      obtain ⟨x,common,h,mainHeight,before0,found0,before1,found1,chosen⟩ := prefers
      refine .wasAhead (Nat.compare_eq_eq.mp work) (Nat.compare_eq_eq.mp height) apart common mainHeight found0 found1 ?_
      split at chosen
      · exact absurd (pureOk.mp chosen) notFirst
      · exact absurd (pureOk.mp chosen) notFirst
      · exact absurd (pureOk.mp chosen) notFirst
      · next works heights => exact .inr ⟨Nat.compare_eq_eq.mp heights,Nat.compare_eq_gt.mp works⟩
      · next heights => exact .inl (Nat.compare_eq_lt.mp heights)

end Reasons

section Asymmetry

variable {m n x y : MainHash}

theorem MainTree.workKnown (tree : MainTree world archive) {w : Nat} (work : archive.getTotalWork m = .ok w) :
    ∃ info h, archive.mainHeaderInfos.tryGet m = some info ∧ archive.mainLinks.height m = .ok h := by
  obtain ⟨info,stored⟩ := tree.works.only (okOrOk.mp work)
  obtain ⟨h,known,_⟩ := tree.heights.counted stored
  exact ⟨info,h,stored,mainHeightOk.mpr known⟩

theorem MainTree.shared (tree : MainTree world archive) {h k : Nat} {answer : Bool}
    (heightM : archive.mainLinks.height m = .ok h) (heightN : archive.mainLinks.height n = .ok k)
    (ok : archive.sharedMainchainLineage m n = .ok answer) :
    answer = true ↔ archive.mainLinks.Descends m n ∨ archive.mainLinks.Descends n m := by
  simp only [sharedMainchainLineage,bindOk,pureOk] at ok
  obtain ⟨⟨m',n',_⟩,evened,rfl⟩ := ok
  rw [decide_eq_true_eq]
  exact tree.sound.equalizeLine heightM heightN evened

theorem MainTree.sharedTotal (tree : MainTree world archive) {h k : Nat} (heightM : archive.mainLinks.height m = .ok h)
    (heightN : archive.mainLinks.height n = .ok k) : ∃ answer, archive.sharedMainchainLineage m n = .ok answer ∧
      (answer = true ↔ archive.mainLinks.Descends m n ∨ archive.mainLinks.Descends n m) := by
  obtain ⟨m',n',evened,_⟩ := tree.sound.equalize heightM heightN
  have ok : archive.sharedMainchainLineage m n = .ok (decide (m' = n')) := by
    rw [sharedMainchainLineage,evened]
    rfl
  exact ⟨_,ok,tree.shared heightM heightN ok⟩

section Before

variable {β : Type} {f : BlockHash → Header → Except ArchiveError β} {b : BlockHash} {header : Header}

theorem MainTree.ifBefore (tree : MainTree world archive) {h : Nat} (height : archive.mainLinks.height x = .ok h)
    {answer : Option β} (stored : archive.headers.tryGet b = some header)
    (ok : archive.ifBefore x f b = .ok answer) :
    (∃ k, archive.mainLinks.height header.prevMainHash = .ok k) ∧
      (answer = none ∧ ¬ (archive.mainLinks.Descends header.prevMainHash x ∧ header.prevMainHash ≠ x) ∨
      (archive.mainLinks.Descends header.prevMainHash x ∧ header.prevMainHash ≠ x) ∧
        ∃ found, f b header = .ok found ∧ answer = some found) := by
  simp only [Archive.ifBefore,getHeader,bindOk,okOrOk] at ok
  obtain ⟨header',stored',before,isBefore,ok⟩ := ok
  cases stored.symm.trans stored'
  have known : ∃ k, archive.mainLinks.height header.prevMainHash = .ok k := by
    by_cases same : header.prevMainHash = x
    · exact ⟨h,same ▸ height⟩
    · simp only [isMainDescendant,Links.isDescendant,if_neg same,bindOk] at isBefore
      obtain ⟨k,isKnown,_⟩ := isBefore
      exact ⟨k,isKnown⟩
  obtain ⟨k,isKnown⟩ := known
  obtain ⟨before',isBefore',holds⟩ := tree.sound.isDescendant isKnown height
  obtain rfl : before' = before := Except.ok.inj (isBefore'.symm.trans isBefore)
  refine ⟨⟨k,isKnown⟩,?_⟩
  split at ok
  · next fails =>
      refine .inl ⟨(pureOk.mp ok).symm,fun above => ?_⟩
      rw [holds.mpr above.1] at fails
      cases fails
  · next succeeds =>
      rw [Bool.not_eq_false] at succeeds
      split at ok
      · next same => exact .inl ⟨(pureOk.mp ok).symm,fun above => above.2 same⟩
      · next other =>
          simp only [bindOk,pureOk] at ok
          obtain ⟨found,isFound,rfl⟩ := ok
          exact .inr ⟨⟨holds.mp succeeds,other⟩,found,isFound,rfl⟩

theorem MainTree.beforeRoot (tree : MainTree world archive) (root : archive.mainLinks.height x = .ok 0)
    {result : Option β} (ok : archive.ancestorBefore x f b = .ok result) : result = none := by
  refine walkFindNone (fun c answer isAnswer => ?_) ok
  have stored := isAnswer
  simp only [Archive.ifBefore,getHeader,bindOk,okOrOk] at stored
  obtain ⟨header,isStored,_⟩ := stored
  obtain ⟨_,⟨none,_⟩ | ⟨⟨above,other⟩,_⟩⟩ := tree.ifBefore root isStored isAnswer
  · exact none
  · obtain ⟨k,below,known,up⟩ := tree.sound.descent above root
    obtain rfl : k = 0 := Nat.le_zero.mp below
    exact absurd (Option.some.inj up).symm other

end Before

theorem MainTree.commonPair (tree : MainTree world archive) {h k : Nat} (heightM : archive.mainLinks.height m = .ok h)
    (heightN : archive.mainLinks.height n = .ok k) (common : archive.lastCommonMainAncestor m n = .ok x)
    (common' : archive.lastCommonMainAncestor n m = .ok y) :
    x = y ∨ archive.mainLinks.height x = .ok 0 ∧ archive.mainLinks.height y = .ok 0 := by
  obtain ⟨x',y',isX,isY,_,same⟩ := tree.sound.lastCommon heightM heightN
  obtain rfl : x' = x := Except.ok.inj (isX.symm.trans common)
  obtain rfl : y' = y := Except.ok.inj (isY.symm.trans common')
  exact same

theorem MainTree.samePlace {β : Type} (tree : MainTree world archive) {h k : Nat}
    (heightM : archive.mainLinks.height m = .ok h) (heightN : archive.mainLinks.height n = .ok k)
    (common : archive.lastCommonMainAncestor m n = .ok x) (common' : archive.lastCommonMainAncestor n m = .ok y)
    {f g : BlockHash → Header → Except ArchiveError β} (same : x = y → f = g) {b : BlockHash} {before before' : Option β}
    (found : archive.ancestorBefore x f b = .ok before) (found' : archive.ancestorBefore y g b = .ok before') :
    before = before' := by
  rcases tree.commonPair heightM heightN common common' with here | ⟨rootX,rootY⟩
  · cases same here
    subst here
    exact Except.ok.inj (found.symm.trans found')
  · rw [tree.beforeRoot rootX found,tree.beforeRoot rootY found']

theorem MainTree.rankedAsymm (tree : MainTree world archive) {h k : Nat}
    (heightM : archive.mainLinks.height t.mainBlockHash = .ok h) (heightN : archive.mainLinks.height u.mainBlockHash = .ok k)
    (first : Ranked archive t u h0 h1 w0 w1) (second : Ranked archive u t h1 h0 w1 w0) : False := by
  have unshared {answer answer' : Bool}
      (one : archive.sharedMainchainLineage t.mainBlockHash u.mainBlockHash = .ok answer)
      (other : archive.sharedMainchainLineage u.mainBlockHash t.mainBlockHash = .ok answer') : answer = answer' := by
    have there := tree.shared heightM heightN one
    have back := tree.shared heightN heightM other
    rw [or_comm] at back
    exact Bool.eq_iff_iff.mpr (there.trans back.symm)
  cases first with
  | higher work height => cases second <;> omega
  | heavier work height apart =>
      cases second with
      | lighter work' height' shared => cases unshared apart shared
      | _ => omega
  | lighter work height shared =>
      cases second with
      | heavier work' height' apart => cases unshared shared apart
      | _ => omega
  | overtakes work height common found less =>
      cases second with
      | staysAhead work' height' common' found' more =>
          have same := tree.samePlace heightM heightN common common' (fun _ => rfl) found found'
          rw [same] at less
          omega
      | _ => omega
  | staysAhead work height common found more =>
      cases second with
      | overtakes work' height' common' found' less =>
          have same := tree.samePlace heightM heightN common common' (fun _ => rfl) found found'
          rw [same] at more
          omega
      | _ => omega
  | @wasAhead x h before0 before1 work height different common mainHeight found0 found1 more =>
      cases second with
      | @wasAhead y h' before1' before0' work' height' different' common' mainHeight' found1' found0' more' =>
          have heights (same : x = y) : h = h' := by
            subst same
            exact Except.ok.inj (mainHeight.symm.trans mainHeight')
          have same0 : before0 = before0' := tree.samePlace heightM heightN common common'
            (fun same => by rw [same,heights same]) found0 found0'
          have same1 : before1 = before1' := tree.samePlace heightM heightN common common'
            (fun same => by rw [same,heights same]) found1 found1'
          subst same0 same1
          omega
      | _ => omega

theorem MainTree.prefersAsymm (tree : MainTree world archive) (prefers : archive.Prefers t u) : ¬ archive.Prefers u t := by
  intro back
  obtain ⟨_,h0,h1,height0,height1,reason⟩ := prefersSource prefers
  obtain ⟨_,h1',h0',height1',height0',reason'⟩ := prefersSource back
  obtain rfl : h0 = h0' := Except.ok.inj (height0.symm.trans height0')
  obtain rfl : h1 = h1' := Except.ok.inj (height1.symm.trans height1')
  cases reason with
  | overGenesis first later =>
      cases reason' with
      | overGenesis first' later' => exact later first'
      | ranked later1 later0 => exact later0 first
  | ranked later0 later1 work0 work1 rank =>
      cases reason' with
      | overGenesis first' later' => exact later1 first'
      | ranked _ _ work1' work0' rank' =>
          cases work0.symm.trans work0'
          cases work1.symm.trans work1'
          obtain ⟨_,_,_,heightM⟩ := tree.workKnown work0
          obtain ⟨_,_,_,heightN⟩ := tree.workKnown work1
          exact tree.rankedAsymm heightM heightN rank rank'

end Asymmetry

section OneLine

variable {m n x : MainHash}

structure OnLine (archive : Archive F) (top : MainHash) (t : Tip) : Prop where
  verified : archive.verifiedAt t.blockHash t.mainBlockHash
  onChain : archive.mainLinks.Descends t.mainBlockHash top

theorem MainTree.workAbove (tree : MainTree world archive) (above : archive.mainLinks.Descends m n) {w : Nat}
    (work : archive.totalWork.tryGet n = some w) : ∃ w', archive.totalWork.tryGet m = some w' ∧ w' ≤ w := by
  obtain ⟨h,k,height,bound,up⟩ := above
  induction k generalizing n h w with
  | zero =>
      cases up
      exact ⟨w,work,Nat.le_refl w⟩
  | succ k ih =>
      obtain ⟨j,rfl⟩ := Nat.exists_eq_add_of_le' (Nat.lt_of_lt_of_le (Nat.succ_pos k) bound)
      obtain ⟨q,isParent,parentHeight⟩ := tree.sound.step height
      rw [Links.up,isParent] at up
      obtain ⟨info,stored,rfl⟩ := mainParentOk.mp isParent
      obtain ⟨w',work',count⟩ := tree.works.counted stored
      cases work.symm.trans work'
      cases count with
      | root zero =>
          obtain ⟨parent,isStored⟩ := tree.heights.only (mainHeightOk.mp parentHeight)
          obtain ⟨⟨_,nonZero⟩,own⟩ := tree.named isStored
          exact absurd (own.trans (mainBlockNone.mp zero)) nonZero
      | child isParent' known =>
          obtain ⟨_,rfl⟩ := mainBlockSome.mp isParent'
          obtain ⟨w',found,less⟩ := ih known j parentHeight (Nat.le_of_succ_le_succ bound) up
          exact ⟨w',found,Nat.le_trans less (Nat.le_add_right _ _)⟩

theorem Trees.commits (trees : Trees lib world archive) {b : BlockHash} (verified : archive.verifiedAt b m) :
    ∃ header, CommitsTo archive m b header := by
  obtain ⟨header,commits,_⟩ := ((trees.results b m).mp verified).commits
  exact ⟨header,commits⟩

theorem MainTree.ownBefore {β : Type} (tree : MainTree world archive) {b : BlockHash} {header : Header}
    (commits : CommitsTo archive m b header) {f : BlockHash → Header → Except ArchiveError β} {before : Option β}
    (found : archive.ancestorBefore m f b = .ok before) : ∃ value, f b header = .ok value ∧ before = some value := by
  obtain ⟨info,stored,next⟩ := commits.next
  obtain ⟨h,height,_⟩ := tree.heights.counted stored
  obtain ⟨answer,isAnswer,first⟩ := walkFindHere found
  obtain ⟨⟨k,known⟩,here⟩ := tree.ifBefore (mainHeightOk.mpr height) commits.stored isAnswer
  rw [← next] at known here
  obtain ⟨_,_,above,apart⟩ := tree.parentAbove stored known
  rcases here with ⟨_,notAbove⟩ | ⟨_,value,isValue,rfl⟩
  · exact absurd ⟨above,apart⟩ notAbove
  · exact ⟨value,isValue,first value rfl⟩

theorem Trees.foundBelow {β : Type} (trees : Trees lib world archive) {b : BlockHash} {header : Header}
    (commits : CommitsTo archive m b header) (after : archive.mainLinks.Descends x m) (apart : x ≠ m) {h : Nat}
    (height : archive.blockHashToHeight.tryGet b = some h) {f : BlockHash → Header → Except ArchiveError β} {value : β}
    (found : archive.ancestorBefore x f b = .ok (some value)) :
    ∃ c header' k, f c header' = .ok value ∧ archive.blockHashToHeight.tryGet c = some k ∧ k < h := by
  obtain ⟨info,stored,next⟩ := commits.next
  obtain ⟨hm,heightM,_⟩ := trees.main.heights.counted stored
  obtain ⟨hx,below,heightX,up⟩ := trees.main.sound.descent after (mainHeightOk.mpr heightM)
  have descend (c : BlockHash) (hc : Nat) (isHeight : archive.blockHashToHeight.tryGet c = some hc) (d : BlockHash)
      (isNext : (archive.getHeader c).map (·.prevSideHash) = .ok (some d)) :
      ∃ k, archive.blockHashToHeight.tryGet d = some k ∧ k < hc := by
    obtain ⟨headerC,isStored,isParent⟩ := mapOk.mp isNext
    obtain ⟨_,isHeight',count⟩ := trees.sides.heights.counted (okOrOk.mp isStored)
    cases isHeight.symm.trans isHeight'
    rcases sideCounts count with ⟨first,_⟩ | ⟨p,k,isChild,known,rfl⟩
    · cases first.symm.trans isParent
    · cases isChild.symm.trans isParent
      exact ⟨k,known,Nat.lt_succ_self k⟩
  rcases walkFindSome found with here | ⟨_,fuel,p,isNext,rest⟩
  · obtain ⟨⟨k,known⟩,⟨none,_⟩ | ⟨⟨above,other⟩,_⟩⟩ := trees.main.ifBefore heightX commits.stored here
    · cases none
    · rw [← next] at above known other
      obtain ⟨heightM',_⟩ := trees.main.parentAbove stored known
      cases (mainHeightOk.mpr heightM).symm.trans heightM'
      obtain ⟨k',belowX,known',upX⟩ := trees.main.sound.descent above heightX
      cases known.symm.trans known'
      -- `x` lies strictly between the parent of `m` and `m`
      have notParent : k ≠ hx := by
        rintro rfl
        rw [Nat.sub_self] at upX
        exact other (Option.some.inj upX).symm
      have notM : hx ≠ k + 1 := by
        rintro rfl
        rw [Nat.sub_self] at up
        exact apart (Option.some.inj up).symm
      omega
  · obtain ⟨k,known,less⟩ := descend b h height p isNext
    obtain ⟨c,⟨k',known',less'⟩,isFound⟩ := walkFindAlong
      (P := fun c => ∃ k', archive.blockHashToHeight.tryGet c = some k' ∧ k' < h) (by
        rintro c d ⟨kc,isKc,lessC⟩ isNext
        obtain ⟨kd,isKd,lessD⟩ := descend c kc isKc d isNext
        exact ⟨kd,isKd,Nat.lt_trans lessD lessC⟩) ⟨k,known,less⟩ rest
    have stored' := isFound
    simp only [Archive.ifBefore,getHeader,bindOk,okOrOk] at stored'
    obtain ⟨header',isStored,_⟩ := stored'
    obtain ⟨_,⟨none,_⟩ | ⟨_,value',isValue,same⟩⟩ := trees.main.ifBefore heightX isStored isFound
    · cases none
    · cases same
      exact ⟨c,header',k',isValue,known',less'⟩

structure Measures (archive : Archive F) (t : Tip) (h w k : Nat) : Prop where
  height : archive.blockHashToHeight.tryGet t.blockHash = some h
  work : archive.totalWork.tryGet t.mainBlockHash = some w
  mainHeight : archive.mainBlockHashToHeight.tryGet t.mainBlockHash = some k

def Earlier (archive : Archive F) (t u : Tip) : Prop :=
  ∃ h w k h' w' k', Measures archive t h w k ∧ Measures archive u h' w' k' ∧
    (h < h' ∨ h = h' ∧ (w' < w ∨ w = w' ∧ k' < k))

theorem Measures.unique {h w k h' w' k' : Nat} (first : Measures archive t h w k) (second : Measures archive t h' w' k') :
    h = h' ∧ w = w' ∧ k = k' :=
  ⟨Option.some.inj (first.height.symm.trans second.height),Option.some.inj (first.work.symm.trans second.work),
    Option.some.inj (first.mainHeight.symm.trans second.mainHeight)⟩

theorem Earlier.trans {v : Tip} (first : Earlier archive t u) (second : Earlier archive u v) : Earlier archive t v := by
  obtain ⟨h,w,k,h1,w1,k1,measuresT,measuresU,less⟩ := first
  obtain ⟨h2,w2,k2,h',w',k',measuresU',measuresV,less'⟩ := second
  obtain ⟨rfl,rfl,rfl⟩ := measuresU.unique measuresU'
  exact ⟨h,w,k,h',w',k',measuresT,measuresV,by omega⟩

theorem Earlier.irrefl : ¬ Earlier archive t t := by
  rintro ⟨h,w,k,h',w',k',measures,measures',less⟩
  obtain ⟨rfl,rfl,rfl⟩ := measures.unique measures'
  omega

theorem Trees.measures (trees : Trees lib world archive) {top : MainHash} (onLine : OnLine archive top t) :
    ∃ h w k, Measures archive t h w k := by
  obtain ⟨header,commits⟩ := trees.commits onLine.verified
  obtain ⟨info,stored,_⟩ := commits.next
  obtain ⟨h,height,_⟩ := trees.sides.heights.counted commits.stored
  obtain ⟨w,work,_⟩ := trees.main.works.counted stored
  obtain ⟨k,mainHeight,_⟩ := trees.main.heights.counted stored
  exact ⟨h,w,k,height,work,mainHeight⟩

theorem Trees.rankedEarlier (trees : Trees lib world archive) {top : MainHash} (lineT : OnLine archive top t)
    (lineU : OnLine archive top u) {k0 k1 : Nat} (measuresT : Measures archive t h0 w0 k0)
    (measuresU : Measures archive u h1 w1 k1) (rank : Ranked archive t u h0 h1 w0 w1) :
    h0 < h1 ∨ h0 = h1 ∧ (w1 < w0 ∨ w0 = w1 ∧ k1 < k0) := by
  have tree := trees.main
  have heightT := mainHeightOk.mpr measuresT.mainHeight
  have heightU := mainHeightOk.mpr measuresU.mainHeight
  have ordered : archive.mainLinks.Descends t.mainBlockHash u.mainBlockHash ∨
      k1 < k0 ∧ archive.mainLinks.Descends u.mainBlockHash t.mainBlockHash := by
    by_cases le : k0 ≤ k1
    · exact .inl (tree.sound.descentLine lineT.onChain lineU.onChain heightT heightU le)
    · have less := Nat.not_le.mp le
      exact .inr ⟨less,tree.sound.descentLine lineU.onChain lineT.onChain heightU heightT (Nat.le_of_lt less)⟩
  obtain ⟨headerT,commitsT⟩ := trees.commits lineT.verified
  obtain ⟨headerU,commitsU⟩ := trees.commits lineU.verified
  cases rank with
  | higher work height => exact .inl height
  | staysAhead work height => exact .inl height
  | lighter work height => exact .inr ⟨height,.inl work⟩
  | heavier work height apart =>
      have unshared := (tree.shared heightT heightU apart).not.mp Bool.false_ne_true
      exact absurd (ordered.imp id And.right) unshared
  | overtakes work height common found less =>
      rcases ordered with above | ⟨_,above⟩
      · -- the first tip is on the way to the common ancestor, which is its own main-chain block
        cases (tree.sound.lastCommonLine heightT heightU above).symm.trans common
        obtain ⟨own,isOwn,rfl⟩ := tree.ownBefore commitsT found
        cases (heightOk.mpr measuresT.height).symm.trans isOwn
        simp only [place] at less
        omega
      · obtain ⟨w,isWork,le⟩ := tree.workAbove above measuresT.work
        cases measuresU.work.symm.trans isWork
        omega
  | @wasAhead x hx before0 before1 work height different common mainHeight found0 found1 more =>
      rcases ordered with above | ⟨less,_⟩
      · cases (tree.sound.lastCommonLine heightT heightU above).symm.trans common
        have apart : t.mainBlockHash ≠ u.mainBlockHash := by
          intro same
          obtain ⟨info,isInfo,commitment⟩ := commitsT.commitment
          obtain ⟨info',isInfo',commitment'⟩ := commitsU.commitment
          rw [same] at isInfo
          cases isInfo.symm.trans isInfo'
          exact different (Option.some.inj (commitment.symm.trans commitment'))
        obtain ⟨own,isOwn,rfl⟩ := tree.ownBefore commitsT found0
        simp only [bindOk,pureOk] at isOwn
        obtain ⟨h,isHeight,_,_,_,_,w,_,rfl⟩ := isOwn
        cases (heightOk.mpr measuresT.height).symm.trans isHeight
        have lower : place (before1.map (·.1)) < place (some h0) := by
          cases isBefore : before1 with
          | none => simp [place]
          | some value =>
              rw [isBefore] at found1
              obtain ⟨c,_,k,isValue,known,lessC⟩ := trees.foundBelow commitsU above apart measuresU.height found1
              simp only [bindOk,pureOk] at isValue
              obtain ⟨_,isHeight,_,_,_,_,_,_,rfl⟩ := isValue
              cases (heightOk.mpr known).symm.trans isHeight
              simp only [Option.map_some,place]
              omega
        simp only [Option.map_some] at more
        omega
      · exact .inr ⟨height,.inr ⟨work,less⟩⟩

theorem Trees.prefersEarlier (trees : Trees lib world archive) {top : MainHash} (lineT : OnLine archive top t)
    (lineU : OnLine archive top u) (prefers : archive.Prefers t u) : Earlier archive t u := by
  obtain ⟨h0,w0,k0,measuresT⟩ := trees.measures lineT
  obtain ⟨h1,w1,k1,measuresU⟩ := trees.measures lineU
  obtain ⟨_,h0',h1',height0,height1,reason⟩ := prefersSource prefers
  cases (heightOk.mpr measuresT.height).symm.trans height0
  cases (heightOk.mpr measuresU.height).symm.trans height1
  refine ⟨h0,w0,k0,h1,w1,k1,measuresT,measuresU,?_⟩
  cases reason with
  | overGenesis first later => omega
  | ranked _ _ work0 work1 rank =>
      cases measuresT.work.symm.trans (okOrOk.mp work0)
      cases measuresU.work.symm.trans (okOrOk.mp work1)
      exact trees.rankedEarlier lineT lineU measuresT measuresU rank

/- What the choice never does: it does not go from a tip back to itself in one step or in two, and never in any number
of steps while the main-chain blocks of the tips lie on one main chain. -/
theorem forkChoiceAcyclicOnLine (names : ∀ op ∈ ops, op.Names lib world) (ok : runArchive lib ops = .ok archive) :
    (∀ t, ¬ archive.Prefers t t) ∧ (∀ t u, archive.Prefers t u → ¬ archive.Prefers u t) ∧
      ∀ top t, ¬ Relation.TransGen (fun t u => OnLine archive top t ∧ OnLine archive top u ∧ archive.Prefers t u) t t := by
  have trees := runTrees names ok
  refine ⟨fun t prefers => (prefersSource prefers).1 rfl,fun t u => trees.main.prefersAsymm,fun top t cycle => ?_⟩
  have climbs {t u : Tip}
      (path : Relation.TransGen (fun t u => OnLine archive top t ∧ OnLine archive top u ∧ archive.Prefers t u) t u) :
      Earlier archive t u := by
    induction path with
    | single step => exact trees.prefersEarlier step.1 step.2.1 step.2.2
    | tail _ step ih => exact ih.trans (trees.prefersEarlier step.1 step.2.1 step.2.2)
  exact (climbs cycle).irrefl

end OneLine

section Fork

open Reference

/- A main chain that forks after its second block, and what its blocks commit to. -/
def forkGenesis : Header := ⟨0,none,1,[]⟩

def forkChild (merkleRoot : MerkleRoot) (prevMainHash : MainHash) : Header :=
  ⟨merkleRoot,some (forkGenesis.hash externals),prevMainHash,[]⟩

def forkHeaders : List Header := [forkGenesis,forkChild 1 2,forkChild 2 3,forkChild 3 2]

def forkMain : List (BlockHeaderInfo × Option Header) :=
  [(⟨1,0,0,1⟩,none),(⟨2,1,1,1⟩,some forkGenesis),(⟨3,2,2,1⟩,some (forkChild 1 2)),(⟨4,3,3,2⟩,some (forkChild 2 3)),
    (⟨5,2,2,2⟩,some (forkChild 3 2))]

def forkInfo (commitment : Option Header) : BlockInfo := ⟨commitment.map (·.hash externals),[]⟩

def forkOps : List ArchiveOp :=
  forkMain.flatMap (fun entry => [.putMainHeaderInfo entry.1,.putMainBlockInfo entry.1.blockHash (forkInfo entry.2)]) ++
    forkHeaders.map .putHeader

def forkWorld : World where
  header b := (forkHeaders.find? (fun header => header.hash externals = b)).getD forkGenesis
  mainHeader m := ((forkMain.find? (fun entry => entry.1.blockHash = m)).map (·.1)).getD ⟨0,0,0,0⟩
  mainInfo m := forkInfo ((forkMain.find? (fun entry => entry.1.blockHash = m)).bind (·.2))

def forkTip (merkleRoot : MerkleRoot) (prevMainHash mainBlockHash : MainHash) : Tip :=
  ⟨(forkChild merkleRoot prevMainHash).hash externals,mainBlockHash⟩

def prefersCheck (archive : Archive Forest) (t u : Tip) : Bool :=
  match archive.betterTip t u with
  | .ok (some better) => better = u
  | _ => false

theorem prefersCheckSound {archive : Archive Forest} (checked : prefersCheck archive t u = true) : archive.Prefers t u := by
  unfold prefersCheck at checked
  split at checked
  · next better isBetter =>
      rw [decide_eq_true_eq] at checked
      rw [Prefers,isBetter,checked]
  · cases checked

theorem forkNames : ∀ op ∈ forkOps, op.Names externals forkWorld := by decide +kernel

theorem forkChoiceEarlier : ∃ archive, runArchive externals forkOps = .ok archive ∧
    archive.Prefers (forkTip 2 3 4) (forkTip 1 2 3) ∧ ¬ archive.Prefers (forkTip 1 2 3) (forkTip 2 3 4) ∧
      ¬ Relation.TransGen (fun t u => OnLine archive 4 t ∧ OnLine archive 4 u ∧ archive.Prefers t u)
        (forkTip 2 3 4) (forkTip 2 3 4) := by
  have checked : runsTo externals forkOps (fun archive => prefersCheck archive (forkTip 2 3 4) (forkTip 1 2 3)) = true := by
    decide +kernel
  obtain ⟨archive,ran,prefers⟩ := runsToRun checked
  have acyclic := forkChoiceAcyclicOnLine forkNames ran
  exact ⟨archive,ran,prefersCheckSound prefers,acyclic.2.1 _ _ (prefersCheckSound prefers),acyclic.2.2 4 _⟩

/- Across the fork the heavier main chain wins, along it the earlier block does: three tips that go round. -/
theorem forkChoiceCycles : ∃ (world : World) (archive : Archive Forest) (t : Tip),
    (∀ op ∈ forkOps, op.Names externals world) ∧ runArchive externals forkOps = .ok archive ∧
      Relation.TransGen (fun t u => archive.verifiedAt t.blockHash t.mainBlockHash ∧
        archive.verifiedAt u.blockHash u.mainBlockHash ∧ archive.Prefers t u) t t := by
  have checked : runsTo externals forkOps (fun archive =>
      [forkTip 1 2 3,forkTip 3 2 5,forkTip 2 3 4].all (fun t =>
        (archive.getBmmResults t.blockHash).tryGet t.mainBlockHash = some .verified) &&
      (prefersCheck archive (forkTip 1 2 3) (forkTip 3 2 5) && prefersCheck archive (forkTip 3 2 5) (forkTip 2 3 4) &&
        prefersCheck archive (forkTip 2 3 4) (forkTip 1 2 3))) = true := by decide +kernel
  obtain ⟨archive,ran,holds⟩ := runsToRun checked
  simp only [Bool.and_eq_true,List.all_cons,List.all_nil,Bool.and_true,decide_eq_true_eq] at holds
  obtain ⟨⟨first,second,third⟩,⟨toSecond,toThird⟩,toFirst⟩ := holds
  exact ⟨forkWorld,archive,forkTip 1 2 3,forkNames,ran,
    .tail (.tail (.single ⟨first,second,prefersCheckSound toSecond⟩) ⟨second,third,prefersCheckSound toThird⟩)
      ⟨third,first,prefersCheckSound toFirst⟩⟩

end Fork

end Archive

end Coinshift
