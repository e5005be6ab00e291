import Coinshift.UsableTips

/-! A body that is stored and deleted again.
Storing it lists the block and what follows it, as far as bodies and commitments go; deleting it takes off the list
everything below the block that is listed. Below a block that was not listed nothing was. -/
namespace Coinshift
open Checked Lineage

variable {F : Type} {lib : Externals F} {world : World}

namespace Archive

variable {before archive archive' : Archive F} {b c k p : BlockHash} {m : MainHash} {info : SidechainTipInfo}

section Between

def CommitsAt (archive : Archive F) (m : MainHash) (b : BlockHash) : Prop :=
  ∃ blockInfo, archive.mainBlockInfos.tryGet m = some blockInfo ∧ blockInfo.bmmCommitment = some b

structure Keyed (archive : Archive F) : Prop where
  results : ∀ {b m}, archive.verifiedAt b m → CommitsAt archive m b
  committed : ∀ {b info}, archive.sideTips.sidechainTips.tryGet b = some info → CommitsAt archive info.mainBlockHash b
  ordered : ∀ {b info}, archive.sideTips.orderedSidechainTips.tryGet info = some b →
    archive.sideTips.sidechainTips.tryGet b = some info

structure Between (before archive : Archive F) : Prop where
  frame : ∃ bodies sideTips, archive = { before with bodies, sideTips }
  kept : ∀ {b info}, before.sideTips.sidechainTips.tryGet b = some info →
    archive.sideTips.sidechainTips.tryGet b = some info
  committed : ∀ {b info}, archive.sideTips.sidechainTips.tryGet b = some info → CommitsAt before info.mainBlockHash b
  entered : ∀ {b info}, ¬ before.isListed b → archive.sideTips.sidechainTips.tryGet b = some info →
    archive.sideTips.orderedSidechainTips.tryGet info = some b ∧ before.sideTips.orderedSidechainTips.tryGet info = none
  others : ∀ {info}, (∀ b, ¬ before.isListed b → archive.sideTips.sidechainTips.tryGet b ≠ some info) →
    archive.sideTips.orderedSidechainTips.tryGet info = before.sideTips.orderedSidechainTips.tryGet info

theorem commitsOnce (first : CommitsAt archive m b) (second : CommitsAt archive m c) : b = c := by
  obtain ⟨blockInfo,contents,isFirst⟩ := first
  obtain ⟨blockInfo',contents',isSecond⟩ := second
  cases contents.symm.trans contents'
  exact Option.some.inj (isFirst.symm.trans isSecond)

theorem Between.start (keyed : Keyed before) {bodies : Table BlockHash Body} : Between before { before with bodies } := by
  refine ⟨⟨bodies,before.sideTips,rfl⟩,id,keyed.committed,fun unlisted found => ?_,fun _ => rfl⟩
  exact absurd (isListedSome.mpr ⟨_,found⟩) unlisted

theorem Between.listed (between : Between before archive) (listed : before.isListed b) : archive.isListed b := by
  obtain ⟨info,found⟩ := isListedSome.mp listed
  exact isListedSome.mpr ⟨info,between.kept found⟩

theorem Between.bodies (between : Between before archive) {bodies : Table BlockHash Body} :
    Between before { archive with bodies } := by
  obtain ⟨_,sideTips,rfl⟩ := between.frame
  exact ⟨⟨bodies,sideTips,rfl⟩,between.kept,between.committed,between.entered,between.others⟩

theorem Between.enter (between : Between before archive) (keyed : Keyed before) (unlisted : ¬ archive.isListed b)
    (commits : CommitsAt before info.mainBlockHash b) : Between before (archive.enterTip b info) := by
  have newly : ¬ before.isListed b := fun listed => unlisted (between.listed listed)
  have apart {c : BlockHash} {info' : SidechainTipInfo} (other : c ≠ b)
      (found : archive.sideTips.sidechainTips.tryGet c = some info') : info' ≠ info := by
    rintro rfl
    exact other (commitsOnce (between.committed found) commits)
  refine ⟨?_,fun {c info'} found => ?_,fun {c info'} found => ?_,fun {c info'} unlisted' found => ?_,fun {info'} free => ?_⟩
  · obtain ⟨bodies,sideTips,rfl⟩ := between.frame
    exact ⟨bodies,_,rfl⟩
  · have other : c ≠ b := by
      rintro rfl
      exact newly (isListedSome.mpr ⟨info',found⟩)
    rw [enterTip,Table.tryGetPutOther other]
    exact between.kept found
  · rw [enterTip,Table.tryGetPut] at found
    split at found
    · next here =>
        cases found
        rw [here]
        exact commits
    · exact between.committed found
  · rw [enterTip,Table.tryGetPut] at found
    split at found
    · next here =>
        cases found
        refine ⟨by rw [enterTip,Table.tryGetPutSelf,here],?_⟩
        cases old : before.sideTips.orderedSidechainTips.tryGet info with
        | none => rfl
        | some y =>
            have isOld := keyed.ordered old
            have same := commitsOnce (keyed.committed isOld) commits
            rw [same] at isOld
            exact absurd (isListedSome.mpr ⟨info,isOld⟩) newly
    · next other =>
        rw [enterTip,Table.tryGetPutOther (apart other found)]
        exact between.entered unlisted' found
  · have different : info' ≠ info := by
      rintro rfl
      exact free b newly (by rw [enterTip,Table.tryGetPutSelf])
    rw [enterTip,Table.tryGetPutOther different]
    refine between.others (fun c unlisted' found => ?_)
    have other : c ≠ b := fun same => unlisted (same ▸ isListedSome.mpr ⟨info',found⟩)
    exact free c unlisted' (by rw [enterTip,Table.tryGetPutOther other]; exact found)

theorem disconnectTip (found : archive.sideTips.sidechainTips.tryGet b = some info) :
    archive.sideTips.disconnectSidechainTip b = { archive.sideTips with
      sidechainTips := archive.sideTips.sidechainTips.delete b
      orderedSidechainTips := archive.sideTips.orderedSidechainTips.delete info } := by
  unfold SideTips.disconnectSidechainTip
  rw [found]

theorem Between.leave (between : Between before archive) (newly : ¬ before.isListed b)
    (found : archive.sideTips.sidechainTips.tryGet b = some info) :
    Between before { archive with sideTips := archive.sideTips.disconnectSidechainTip b } := by
  have own := (between.entered newly found).1
  rw [disconnectTip found]
  refine ⟨?_,fun {c info'} isFound => ?_,fun {c info'} isFound => ?_,fun {c info'} unlisted isFound => ?_,fun {info'} free => ?_⟩
  · obtain ⟨bodies,sideTips,rfl⟩ := between.frame
    exact ⟨bodies,_,rfl⟩
  · have other : c ≠ b := by
      rintro rfl
      exact newly (isListedSome.mpr ⟨info',isFound⟩)
    rw [Table.tryGetDeleteOther other]
    exact between.kept isFound
  · rw [Table.tryGetDelete] at isFound
    split at isFound
    · cases isFound
    · exact between.committed isFound
  · rw [Table.tryGetDelete] at isFound
    split at isFound
    · cases isFound
    · next other =>
        obtain ⟨ordered,free⟩ := between.entered unlisted isFound
        have different : info' ≠ info := by
          rintro rfl
          exact other (Option.some.inj (ordered.symm.trans own))
        exact ⟨by rw [Table.tryGetDeleteOther different]; exact ordered,free⟩
  · by_cases here : info' = info
    · rw [here,Table.tryGetDeleteSelf]
      exact (between.entered newly found).2.symm
    · rw [Table.tryGetDeleteOther here]
      refine between.others (fun c unlisted isFound => ?_)
      by_cases same : c = b
      · rw [same,found] at isFound
        exact here (Option.some.inj isFound).symm
      · exact free c unlisted (by rw [Table.tryGetDeleteOther same]; exact isFound)

theorem Between.back (between : Between before archive) (nothing : ∀ b, archive.isListed b → before.isListed b) :
    archive.sideTips.sidechainTips = before.sideTips.sidechainTips ∧
      archive.sideTips.orderedSidechainTips = before.sideTips.orderedSidechainTips := by
  constructor
  · refine Table.ext (fun b => ?_)
    cases found : archive.sideTips.sidechainTips.tryGet b with
    | some info =>
        obtain ⟨old,isOld⟩ := isListedSome.mp (nothing b (isListedSome.mpr ⟨info,found⟩))
        rw [isOld,← found]
        exact between.kept isOld
    | none =>
        cases old : before.sideTips.sidechainTips.tryGet b with
        | none => rfl
        | some info => cases found.symm.trans (between.kept old)
  · exact Table.ext (fun info => between.others (fun b unlisted found =>
      unlisted (nothing b (isListedSome.mpr ⟨info,found⟩))))

end Between

section Rounds

variable {header : Header} {mainTip : MainHash} {more queue : List BlockHash}

inductive Noted (archive : Archive F) (b : BlockHash) (header : Header) : Archive F × Bool → Prop
  | untouched : Noted archive b header (archive,false)
  | listed (parent : ParentListed archive header) (isListed : archive.isListed b) : Noted archive b header (archive,true)
  | entered {info : SidechainTipInfo} (parent : ParentListed archive header) (new : ¬ archive.isListed b)
      (commits : CommitsAt archive info.mainBlockHash b) : Noted archive b header (archive.enterTip b info,true)

theorem Noted.listAt {acc acc' : Archive F × Bool} {entry : MainHash × BmmResult} (noted : Noted archive b header acc)
    (commits : entry.2 = .verified → CommitsAt archive entry.1 b)
    (ok : Archive.listAt mainTip b header acc entry = .ok acc') : Noted archive b header acc' := by
  rcases listAtSource ok with ⟨rfl,_⟩ | ⟨verified,parent,_,w,tips,_,connected,rfl⟩
  · exact noted
  · obtain ⟨height,_,⟨isListed,rfl⟩ | ⟨new,rfl⟩⟩ := connectTipSource connected
    · cases noted with
      | untouched => exact .listed parent isListed
      | listed first isListed => exact .listed first isListed
      | entered first new commits => exact .entered first new commits
    · cases noted with
      | untouched => exact .entered parent (Bool.eq_false_iff.mp new) (commits verified)
      | listed _ isListed => exact absurd isListed (Bool.eq_false_iff.mp new)
      | entered => exact absurd (enterTipListed.mpr (.inl rfl)) (Bool.eq_false_iff.mp new)

inductive Updates (archive : Archive F) (b : BlockHash) (header : Header) : Archive F × List BlockHash → Prop
  | untouched : Updates archive b header (archive,[])
  | listed {set : HashSet} (parent : ParentListed archive header) (isListed : archive.isListed b)
      (follow : archive.successors.tryGet (some b) = some set) : Updates archive b header (archive,set.items)
  | entered {set : HashSet} {info : SidechainTipInfo} (parent : ParentListed archive header) (new : ¬ archive.isListed b)
      (commits : CommitsAt archive info.mainBlockHash b) (follow : archive.successors.tryGet (some b) = some set) :
      Updates archive b header (archive.enterTip b info,set.items)

theorem updates (results : ∀ {m}, archive.verifiedAt b m → CommitsAt archive m b)
    (ok : updateSideTips mainTip archive b header = .ok (archive',more)) : Updates archive b header (archive',more) := by
  simp only [updateSideTips,bindOk] at ok
  obtain ⟨⟨last,connected⟩,folded,ok⟩ := ok
  have noted : Noted archive b header (last,connected) := foldInvariant (P := Noted archive b header)
    (fun acc entry acc' mem noted step => noted.listAt
      (fun verified => results (Table.memEntries.mp (by rw [← verified]; exact mem))) step) .untouched folded
  cases noted with
  | untouched =>
      cases ok
      exact .untouched
  | listed parent isListed =>
      simp only [if_true,bindOk,getSuccessorsOk,pureOk,Prod.mk.injEq] at ok
      obtain ⟨set,follow,rfl,rfl⟩ := ok
      exact .listed parent isListed follow
  | entered parent new commits =>
      simp only [if_true,bindOk,getSuccessorsOk,pureOk,Prod.mk.injEq] at ok
      obtain ⟨set,follow,rfl,rfl⟩ := ok
      exact .entered parent new commits follow

theorem updateRounds (results : ∀ {m}, archive.verifiedAt b m → CommitsAt archive m b)
    (done : updateRound mainTip archive b = .ok (archive',more)) :
    ∃ header, Updates archive b header (archive',more) := by
  unfold updateRound at done
  split at done
  · cases done
    exact ⟨⟨0,none,0,[]⟩,.untouched⟩
  · simp only [getHeader,bindOk,okOrOk] at done
    obtain ⟨header,_,updated⟩ := done
    exact ⟨header,updates results updated⟩

inductive Leaves (archive : Archive F) (b : BlockHash) : Archive F × List BlockHash → Prop
  | absent (unlisted : ¬ archive.isListed b) : Leaves archive b (archive,[])
  | leaves {info : SidechainTipInfo} {set : HashSet} (found : archive.sideTips.sidechainTips.tryGet b = some info)
      (follow : archive.successors.tryGet (some b) = some set) :
      Leaves archive b ({ archive with sideTips := archive.sideTips.disconnectSidechainTip b },set.items)

theorem disconnectLeaves (done : disconnectRound archive b = .ok (archive',more)) : Leaves archive b (archive',more) := by
  unfold disconnectRound at done
  split at done
  · next missing =>
      cases done
      refine .absent (fun isListed => ?_)
      rw [Archive.isListed,Option.isNone_iff_eq_none.mp missing] at isListed
      cases isListed
  · next present =>
      simp only [bindOk,getSuccessorsOk,pureOk,Prod.mk.injEq] at done
      obtain ⟨set,follow,rfl,rfl⟩ := done
      cases found : archive.sideTips.sidechainTips.tryGet b with
      | none => simp [found] at present
      | some info => exact .leaves found follow

theorem leftListed (found : archive.sideTips.sidechainTips.tryGet b = some info) :
    isListed { archive with sideTips := archive.sideTips.disconnectSidechainTip b } c ↔ c ≠ b ∧ archive.isListed c := by
  rw [disconnectTip found]
  simp only [isListed,Table.tryGetDelete]
  split
  · next here => simp [here]
  · next other => simp [other]

end Rounds

section Undoing

variable {header : Header} {mainTip : MainHash} {more queue : List BlockHash} {body : Body}

def TipsClosed (archive : Archive F) : Prop :=
  ∀ {c p}, archive.isListed c → archive.parentOf c = some p → archive.isListed p

def Newly (before archive : Archive F) (b : BlockHash) : Prop := archive.isListed b ∧ ¬ before.isListed b

def ParentNewly (before archive : Archive F) (b : BlockHash) : Prop :=
  ∃ p, before.parentOf b = some p ∧ Newly before archive p

/- Everything that is newly listed hangs on `b`, and so does what is still in the queue. -/
structure Growing (before archive : Archive F) (b : BlockHash) (queue : List BlockHash) : Prop where
  between : Between before archive
  rooted : ∀ {c}, Newly before archive c → c = b ∨ ParentNewly before archive c
  waiting : ∀ c ∈ queue, ParentNewly before archive c

theorem ParentNewly.fresh (closed : TipsClosed before) (parent : ParentNewly before archive c) : ¬ before.isListed c := by
  obtain ⟨p,isParent,_,unlisted⟩ := parent
  exact fun listed => unlisted (closed listed isParent)

theorem Between.results (between : Between before archive) (keyed : Keyed before) {m : MainHash}
    (verified : archive.verifiedAt c m) : CommitsAt archive m c := by
  obtain ⟨bodies,sideTips,rfl⟩ := between.frame
  exact keyed.results verified

theorem Between.children (between : Between before archive) (sides : SideTree lib world before) {set : HashSet}
    (follow : archive.successors.tryGet (some k) = some set) (mem : c ∈ set.items) : before.parentOf c = some k := by
  obtain ⟨bodies,sideTips,rfl⟩ := between.frame
  obtain ⟨header,stored,isParent⟩ := (sides.successors follow).mp mem
  rw [parentOf,stored]
  exact isParent

theorem Growing.update (growing : Growing before archive b queue) (keyed : Keyed before)
    (sides : SideTree lib world before) (fresh : ¬ before.isListed k) (isRooted : k = b ∨ ParentNewly before archive k)
    (updates : Updates archive k header (archive',more)) : Growing before archive' b (queue ++ more) := by
  cases updates with
  | untouched =>
      rw [List.append_nil]
      exact growing
  | listed parent isListed follow =>
      refine ⟨growing.between,growing.rooted,fun c mem => ?_⟩
      rcases List.mem_append.mp mem with inQueue | isChild
      · exact growing.waiting c inQueue
      · exact ⟨k,growing.between.children sides follow isChild,isListed,fresh⟩
  | @entered set info parent new commits follow =>
      have grows {c : BlockHash} (newly : Newly before archive c) : Newly before (archive.enterTip k info) c :=
        ⟨enterTipListed.mpr (.inr newly.1),newly.2⟩
      have lift {c : BlockHash} : ParentNewly before archive c → ParentNewly before (archive.enterTip k info) c :=
        fun ⟨p,isParent,newly⟩ => ⟨p,isParent,grows newly⟩
      have commits' : CommitsAt before info.mainBlockHash k := by
        obtain ⟨bodies,sideTips,rfl⟩ := growing.between.frame
        exact commits
      refine ⟨growing.between.enter keyed new commits',fun {c} newly => ?_,fun c mem => ?_⟩
      · rcases enterTipListed.mp newly.1 with rfl | isListed
        · exact isRooted.imp id lift
        · exact (growing.rooted ⟨isListed,newly.2⟩).imp id lift
      · rcases List.mem_append.mp mem with inQueue | isChild
        · exact lift (growing.waiting c inQueue)
        · exact ⟨k,growing.between.children sides follow isChild,enterTipListed.mpr (.inl rfl),fresh⟩

theorem putBodyGrows (keyed : Keyed before) (sides : SideTree lib world before) (closed : TipsClosed before)
    (unlisted : ¬ before.isListed b) (ok : before.putBody b body = .ok archive) : Growing before archive b [] := by
  simp only [putBody,getHeader,bindOk,okOrOk] at ok
  obtain ⟨header,stored,⟨first,queue⟩,updated,drained⟩ := ok
  have started : Growing before { before with bodies := before.bodies.put b body } b [] :=
    ⟨.start keyed,fun newly => absurd newly.1 newly.2,fun c mem => absurd mem List.not_mem_nil⟩
  have firstGrows := started.update keyed sides unlisted (.inl rfl)
    (updates (fun verified => started.between.results keyed verified) updated)
  dsimp only at drained
  rw [updateQueueDrain] at drained
  refine Worklist.drainInvariant (P := fun a queue => Growing before a b queue) ?_ firstGrows drained
  intro a k queue a' more growing done
  obtain ⟨header,noted⟩ := updateRounds (fun verified => growing.between.results keyed verified) done
  have parent := growing.waiting k List.mem_cons_self
  have later : Growing before a b queue :=
    ⟨growing.between,growing.rooted,fun c mem => growing.waiting c (List.mem_cons_of_mem _ mem)⟩
  exact later.update keyed sides (parent.fresh closed) (.inr parent) noted

/- What is newly listed is in the queue or hangs on what is. -/
structure Shrinking (before archive : Archive F) (queue : List BlockHash) : Prop where
  between : Between before archive
  pending : ∀ {c}, Newly before archive c → c ∈ queue ∨ ParentNewly before archive c
  waiting : ∀ c ∈ queue, ¬ before.isListed c

theorem Shrinking.round (shrinking : Shrinking before archive (k :: queue)) (sides : SideTree lib world before)
    (closed : TipsClosed before) (leaves : Leaves archive k (archive',more)) : Shrinking before archive' (queue ++ more) := by
  have fresh := shrinking.waiting k List.mem_cons_self
  cases leaves with
  | absent unlisted =>
      rw [List.append_nil]
      refine ⟨shrinking.between,fun {c} newly => ?_,fun c mem => shrinking.waiting c (List.mem_cons_of_mem _ mem)⟩
      refine (shrinking.pending newly).imp (fun mem => (List.mem_cons.mp mem).resolve_left (fun here => ?_)) id
      exact unlisted (here ▸ newly.1)
  | @leaves info set found follow =>
      have isChild {c : BlockHash} (parent : before.parentOf c = some k) : c ∈ set.items := by
        obtain ⟨bodies,sideTips,rfl⟩ := shrinking.between.frame
        obtain ⟨header,stored,isParent⟩ := Option.bind_eq_some_iff.mp parent
        exact (sides.successors follow).mpr ⟨header,stored,isParent⟩
      refine ⟨shrinking.between.leave fresh found,fun {c} newly => ?_,fun c mem => ?_⟩
      · obtain ⟨other,isListed⟩ := (leftListed found).mp newly.1
        rcases shrinking.pending ⟨isListed,newly.2⟩ with mem | ⟨p,isParent,parentNewly⟩
        · exact .inl (List.mem_append_left _ ((List.mem_cons.mp mem).resolve_left other))
        · by_cases here : p = k
          · exact .inl (List.mem_append_right _ (isChild (here ▸ isParent)))
          · exact .inr ⟨p,isParent,(leftListed found).mpr ⟨here,parentNewly.1⟩,parentNewly.2⟩
      · rcases List.mem_append.mp mem with inQueue | isMore
        · exact shrinking.waiting c (List.mem_cons_of_mem _ inQueue)
        · exact fun isListed => fresh (closed isListed (shrinking.between.children sides follow isMore))

/- With an empty queue nothing new is listed: it would hang on blocks ever lower. -/
theorem Shrinking.nothing (shrinking : Shrinking before archive []) (sides : SideTree lib world before) {h : Nat}
    (height : before.heightOf c = h) : ¬ Newly before archive c := by
  induction h using Nat.strong_induction_on generalizing c with
  | _ h ih =>
      intro newly
      rcases shrinking.pending newly with mem | ⟨p,isParent,parentNewly⟩
      · cases mem
      · exact ih _ (height ▸ sides.lower isParent) rfl parentNewly

theorem deleteBodyShrinks (growing : Growing before archive b []) (sides : SideTree lib world before)
    (closed : TipsClosed before) (unlisted : ¬ before.isListed b) (ok : archive.deleteBody b = .ok archive') :
    Shrinking before archive' [] := by
  unfold deleteBody at ok
  dsimp only at ok
  rw [disconnectQueueDrain] at ok
  have started : Shrinking before { archive with bodies := archive.bodies.delete b } [b] := by
    refine ⟨growing.between.bodies,fun {c} newly => (growing.rooted newly).imp (fun here => ?_) id,fun c mem => ?_⟩
    · exact List.mem_singleton.mpr here
    · rw [List.mem_singleton.mp mem]
      exact unlisted
  exact Worklist.drainInvariant (P := fun a queue => Shrinking before a queue)
    (fun a k queue a' more shrinking done => shrinking.round sides closed (disconnectLeaves done)) started ok

theorem deleteBodyTotal (sides : SideTree lib world archive) (stored : (archive.headers.tryGet b).isSome = true) :
    ∃ archive', archive.deleteBody b = .ok archive' := by
  have sides' : SideTree lib world { archive with bodies := archive.bodies.delete b } := by
    refine { sides with bodies := fun {c} isBody => ?_ }
    rw [Table.tryGetDelete] at isBody
    split at isBody
    · cases isBody
    · exact sides.bodies isBody
  have forest := sides'.forest (List.Subset.refl _) disconnectRoundAdds
  have known : b ∈ Archive.headerHashes { archive with bodies := archive.bodies.delete b } :=
    headerHashesMem.mpr (Option.isSome_iff_exists.mp stored)
  unfold deleteBody
  dsimp only
  rw [disconnectQueueDrain]
  refine Worklist.drainTotal forest (Worklist.Progress.start known) .refl (fun {a k} same node => ?_) ?_
  · obtain ⟨tips,rfl⟩ := same
    unfold disconnectRound
    split
    · exact ⟨_,_,rfl⟩
    · have followed := sides.followed (k := some k) (fun c here =>
        Option.isSome_iff_exists.mpr (Option.some.inj here ▸ headerHashesMem.mp node))
      obtain ⟨set,follow⟩ := Option.isSome_iff_exists.mp followed
      exact ⟨_,_,bindOk.mpr ⟨set,getSuccessorsOk.mpr follow,rfl⟩⟩
  · simp [headerHashes]

structure TablesBack (before archive : Archive F) : Prop where
  bodies : archive.bodies = before.bodies
  sidechainTips : archive.sideTips.sidechainTips = before.sideTips.sidechainTips
  orderedSidechainTips : archive.sideTips.orderedSidechainTips = before.sideTips.orderedSidechainTips

theorem bodyUndone (keyed : Keyed before) (sides : SideTree lib world before) (closed : TipsClosed before)
    (noBody : before.bodies.tryGet b = none) (unlisted : ¬ before.isListed b)
    (put : before.putBody b body = .ok archive) : ∃ archive', archive.deleteBody b = .ok archive' ∧ TablesBack before archive' := by
  obtain ⟨header,tips,frame⟩ := putBodyFrame put
  have sidesPut : SideTree lib world archive := by
    rw [frame]
    refine { sides with bodies := fun {c} isBody => ?_ }
    rw [Table.tryGetPut] at isBody
    split at isBody
    · next here => rw [here,header]
    · exact sides.bodies isBody
  obtain ⟨archive',deleted⟩ := deleteBodyTotal sidesPut (b := b) (by rw [frame]; exact header)
  have shrunk := deleteBodyShrinks (putBodyGrows keyed sides closed unlisted put) sides closed unlisted deleted
  obtain ⟨same,ordered⟩ := shrunk.between.back (fun c isListed =>
    Classical.byContradiction (fun fresh => shrunk.nothing sides rfl ⟨isListed,fresh⟩))
  refine ⟨archive',deleted,?_,same,ordered⟩
  obtain ⟨tips',isDeleted⟩ := disconnectQueueFrame deleted
  rw [isDeleted,frame]
  exact Table.putDelete noBody

theorem deleteBodyUnlists (ok : archive.deleteBody b = .ok archive') : ¬ archive'.isListed b := by
  unfold deleteBody at ok
  dsimp only at ok
  rw [disconnectQueueDrain] at ok
  refine (Worklist.drainInvariant (P := fun a queue => b ∈ queue ∨ ¬ a.isListed b) ?_ (.inl (by simp)) ok).resolve_left
    List.not_mem_nil
  intro a k queue a' more waits done
  cases disconnectLeaves done with
  | absent unlisted =>
      rw [List.append_nil]
      rcases waits with mem | left
      · rcases List.mem_cons.mp mem with rfl | inQueue
        · exact .inr unlisted
        · exact .inl inQueue
      · exact .inr left
  | leaves found follow =>
      by_cases here : b = k
      · exact .inr (fun isListed => ((leftListed found).mp isListed).1 here)
      · rcases waits with mem | left
        · exact .inl (List.mem_append_left _ ((List.mem_cons.mp mem).resolve_left here))
        · exact .inr (fun isListed => left ((leftListed found).mp isListed).2)

theorem bodyUndoneIff (keyed : Keyed before) (sides : SideTree lib world before) (closed : TipsClosed before)
    (noBody : before.bodies.tryGet b = none) (put : before.putBody b body = .ok archive) :
    (∃ archive', archive.deleteBody b = .ok archive' ∧ TablesBack before archive') ↔ ¬ before.isListed b := by
  constructor
  · rintro ⟨archive',deleted,restored⟩ listed
    refine deleteBodyUnlists deleted ?_
    rw [isListed,restored.sidechainTips]
    exact listed
  · intro unlisted
    exact bodyUndone keyed sides closed noBody unlisted put

end Undoing

section Keeping

variable {header : Header} {more : List BlockHash} {body : Body}

theorem CommitsAt.grow (grows : archive.mainBlockInfos.Grows archive'.mainBlockInfos) (commits : CommitsAt archive m b) :
    CommitsAt archive' m b := by
  obtain ⟨blockInfo,known,commitment⟩ := commits
  exact ⟨blockInfo,grows _ _ known,commitment⟩

theorem Keyed.enter (keyed : Keyed archive) (unlisted : ¬ archive.isListed b)
    (commits : CommitsAt archive info.mainBlockHash b) : Keyed (archive.enterTip b info) := by
  refine ⟨keyed.results,fun {c info'} found => ?_,fun {c info'} found => ?_⟩
  · rw [enterTip,Table.tryGetPut] at found
    split at found
    · next here =>
        cases found
        exact here ▸ commits
    · exact keyed.committed found
  · rw [enterTip,Table.tryGetPut] at found
    split at found
    · next here =>
        cases found
        rw [here]
        exact Table.tryGetPutSelf
    · have before := keyed.ordered found
      rw [enterTip,Table.tryGetPutOther]
      · exact before
      · rintro rfl
        exact unlisted (isListedSome.mpr ⟨info',before⟩)

theorem Keyed.leave (keyed : Keyed archive) (found : archive.sideTips.sidechainTips.tryGet b = some info) :
    Keyed { archive with sideTips := archive.sideTips.disconnectSidechainTip b } := by
  rw [disconnectTip found]
  refine ⟨keyed.results,fun {c info'} isFound => ?_,fun {c info'} isFound => ?_⟩
  · rw [Table.tryGetDelete] at isFound
    split at isFound
    · cases isFound
    · exact keyed.committed isFound
  · rw [Table.tryGetDelete] at isFound
    split at isFound
    · cases isFound
    · next other =>
        have before := keyed.ordered isFound
        rw [Table.tryGetDeleteOther]
        · exact before
        · rintro rfl
          exact other (Option.some.inj (before.symm.trans found))

theorem Keyed.bodies (keyed : Keyed archive) {bodies : Table BlockHash Body} : Keyed { archive with bodies } :=
  ⟨keyed.results,keyed.committed,keyed.ordered⟩

theorem Keyed.update (keyed : Keyed archive) (updates : Updates archive b header (archive',more)) : Keyed archive' := by
  cases updates with
  | untouched => exact keyed
  | listed => exact keyed
  | entered parent new commits follow => exact keyed.enter new commits

theorem Keyed.putBody (keyed : Keyed archive) (ok : archive.putBody b body = .ok archive') : Keyed archive' := by
  simp only [Archive.putBody,bindOk] at ok
  obtain ⟨header,_,⟨first,queue⟩,updated,drained⟩ := ok
  have put : Keyed { archive with bodies := archive.bodies.put b body } := keyed.bodies
  dsimp only at drained
  rw [updateQueueDrain] at drained
  refine Worklist.drainInvariant (P := fun a _ => Keyed a) (fun a k queue a' more keyed done => ?_)
    (put.update (updates put.results updated)) drained
  obtain ⟨header,noted⟩ := updateRounds keyed.results done
  exact keyed.update noted

theorem Keyed.deleteBody (keyed : Keyed archive) (ok : archive.deleteBody b = .ok archive') : Keyed archive' := by
  unfold Archive.deleteBody at ok
  dsimp only at ok
  rw [disconnectQueueDrain] at ok
  have deleted : Keyed { archive with bodies := archive.bodies.delete b } := keyed.bodies
  refine Worklist.drainInvariant (P := fun a _ => Keyed a) (fun a k queue a' more keyed done => ?_) deleted ok
  cases disconnectLeaves done with
  | absent => exact keyed
  | leaves found follow => exact keyed.leave found

theorem bmmResultCommits {parentResults : Option (Table MainHash BmmResult)}
    (ok : archive.bmmResultAt header b parentResults m = .ok .verified) : CommitsAt archive m b := by
  simp only [bmmResultAt,getMainBlockInfo,bindOk,okOrOk] at ok
  obtain ⟨blockInfo,known,ok⟩ := ok
  refine ⟨blockInfo,known,?_⟩
  split at ok
  · cases ok
  · next c commitment =>
      split at ok
      · cases ok
      · next same => rw [commitment,not_not.mp same]

theorem Keyed.putHeader (keyed : Keyed archive) (ok : archive.putHeader lib header = .ok archive') : Keyed archive' := by
  obtain ⟨height,set,js,mainBlocks,results,_,_,_,_,isResults,rfl⟩ := putHeaderSource ok
  refine ⟨fun {c m} verified => ?_,keyed.committed,keyed.ordered⟩
  unfold verifiedAt getBmmResults at verified
  rw [Table.tryGetPut] at verified
  split at verified
  · next here =>
      rw [here]
      rcases foldEntered isResults m with ⟨_,result,isResult,atMain⟩ | ⟨_,same⟩
      · cases atMain.symm.trans verified
        exact bmmResultCommits isResult
      · exact keyed.results (same.symm.trans verified)
  · exact keyed.results verified

theorem Keyed.putMainHeader (keyed : Keyed archive) {info : BlockHeaderInfo}
    (ok : archive.putMainHeaderInfo info = .ok archive') : Keyed archive' := by
  obtain ⟨_,_,_,_,_,_,_,_,_,rfl⟩ := putMainHeaderSource ok
  exact ⟨keyed.results,keyed.committed,keyed.ordered⟩

theorem Keyed.putMainInfo (keyed : Keyed archive) (infos : InfosKept world archive) {blockInfo : BlockInfo}
    (names : blockInfo = world.mainInfo m) (ok : archive.putMainBlockInfo m blockInfo = .ok archive') : Keyed archive' := by
  have source := putMainInfoSource ok
  have grows := (source.grown infos names).mainInfos
  obtain ⟨_,_,_,⟨_,rfl⟩ | ⟨c,header,result,commitment,_,_,rfl⟩⟩ := source
  · exact ⟨fun verified => (keyed.results verified).grow grows,fun found => (keyed.committed found).grow grows,keyed.ordered⟩
  · refine ⟨fun {b n} verified => ?_,fun found => (keyed.committed found).grow grows,keyed.ordered⟩
    unfold verifiedAt getBmmResults at verified
    rw [Table.tryGetPut] at verified
    split at verified
    · next here =>
        rw [Option.getD_some,Table.tryGetPut] at verified
        split at verified
        · next atMain => exact ⟨blockInfo,by rw [atMain]; exact Table.tryGetPutSelf,here ▸ commitment⟩
        · exact (keyed.results (here ▸ verified)).grow grows
    · exact (keyed.results verified).grow grows

theorem Keyed.connectEvent (keyed : Keyed archive) (woods : Woods lib world archive) {info : BlockHeaderInfo}
    {blockInfo : BlockInfo} (names : world.NamesMain info ∧ blockInfo = world.mainInfo info.blockHash)
    (ok : archive.handleBlockEvent (.connectBlock info blockInfo) = .ok archive') : Keyed archive' := by
  obtain ⟨first,second,commitment,tips,header,contents,listable,connected,rfl⟩ := connectEventSource ok
  have put := (keyed.putMainHeader header).putMainInfo (woods.putMainHeader names.1 header).infos names.2 contents
  obtain ⟨_,listed,rfl,⟨_,rfl⟩ | ⟨b,prevSideHash,isCommitment,connects⟩⟩ := connectMainchainSource connected
  · exact ⟨put.results,put.committed,put.ordered⟩
  · obtain ⟨verified,_⟩ := (listableSource listable).1 b prevSideHash isCommitment
    obtain ⟨height,_,⟨_,rfl⟩ | ⟨new,rfl⟩⟩ := connectTipSource connects
    · exact ⟨put.results,put.committed,put.ordered⟩
    · have entered : Keyed (second.enterTip b
          ⟨height,BitVec.ofNat 256 (second.sideTips.mainchainTip.cumulativeWork + info.work),info.blockHash⟩) :=
        put.enter (Bool.eq_false_iff.mp new) (put.results verified)
      exact ⟨entered.results,entered.committed,entered.ordered⟩

theorem Keyed.disconnectEvent (keyed : Keyed archive)
    (ok : archive.handleBlockEvent (.disconnectBlock m) = .ok archive') : Keyed archive' := by
  obtain ⟨_,_,_,_,_,_,_,disconnected,rfl⟩ := disconnectEventSource ok
  rw [disconnectParts] at disconnected
  simp only [bindOk,pureOk] at disconnected
  obtain ⟨_,_,_,_,ordered,isOrdered,rfl⟩ := disconnected
  exact ⟨keyed.results,keyed.committed,fun found => keyed.ordered (NetTask.orderedLess isOrdered found)⟩

theorem Keyed.step (keyed : Keyed archive) (woods : Woods lib world archive) {op : ArchiveOp} (names : op.Names lib world)
    (ok : op.apply lib archive = .ok archive') : Keyed archive' := by
  cases op with
  | handleBlockEvent event =>
      cases event with
      | connectBlock info blockInfo => exact keyed.connectEvent woods names ok
      | disconnectBlock m => exact keyed.disconnectEvent ok
  | putMainHeaderInfo info => exact keyed.putMainHeader ok
  | putMainBlockInfo m blockInfo => exact keyed.putMainInfo woods.infos names ok
  | putHeader header => exact keyed.putHeader ok
  | putBody b body => exact keyed.putBody ok
  | deleteBody b => exact keyed.deleteBody ok

theorem Keyed.prune {before after : Marked F} {root : BlockHash} (keyed : Keyed before.archive)
    (pruning : Marked.Pruning before root after []) : Keyed after.archive := by
  obtain ⟨_,_,_,_,_,_,rest⟩ := pruning.rest
  rw [rest]
  exact ⟨keyed.results,keyed.committed,keyed.ordered⟩

theorem Keyed.new : Keyed (Archive.new F) := by
  refine ⟨fun verified => ?_,fun found => ?_,fun found => ?_⟩
  · simp [verifiedAt,getBmmResults,Archive.new] at verified
  · cases Table.tryGetEmpty.symm.trans found
  · cases Table.tryGetEmpty.symm.trans found

end Keeping

end Archive

namespace NetTask

variable {ctxt : BatchVerificationContext} {prove : F → List Hash → Except Text UtreexoProof} {archive archive' : Archive F}
  {b : BlockHash}

structure TipsKeyed (lib : Externals F) (world : World) (archive : Archive F) : Prop where
  woods : archive.Woods lib world
  keyed : archive.Keyed

theorem keyedClosed {start : Archive F} : ReorgClosed lib start Archive.Keyed :=
  ⟨fun keyed _ put => keyed.putHeader put,fun keyed put => keyed.putBody put,fun keyed deleted => keyed.deleteBody deleted,
    fun keyed => ⟨keyed.results,keyed.committed,keyed.ordered⟩⟩

theorem TipsKeyed.step {db : MarkedDb F} {op : TipOp} (keyed : TipsKeyed lib world db.archive) (names : op.Names lib world) :
    TipsKeyed lib world (op.apply lib ctxt prove db).archive := by
  cases op with
  | archive op =>
      simp only [TipOp.apply]
      cases applied : op.apply lib db.archive with
      | error err => exact keyed
      | ok archive => exact ⟨keyed.woods.step names applied,keyed.keyed.step keyed.woods names applied⟩
  | invalidateBlock b =>
      simp only [TipOp.apply]
      cases invalidated : NetTask.invalidateBlock lib prove db b with
      | error err => exact keyed
      | ok db' =>
          rcases invalidateSource keyed.woods invalidated with ⟨_,rfl⟩ | ⟨stored,pruning⟩
          · exact keyed
          · exact ⟨pruning.woods keyed.woods,Archive.Keyed.prune keyed.keyed pruning⟩
  | newTipReady newTip rpc =>
      have carried : Carried lib world db.archive ((TipOp.newTipReady newTip rpc).apply lib ctxt prove db).archive :=
        (submitTipCarried keyed.woods).1
      exact ⟨carried.woods,keyedClosed.reorg keyed.woods.sides keyed.keyed⟩

theorem runKeyed {ops : List TipOp} (names : ∀ op ∈ ops, op.Names lib world) :
    TipsKeyed lib world (runTips lib ctxt prove ops).archive := by
  refine foldlPrefix (P := fun db : MarkedDb F => TipsKeyed lib world db.archive) ⟨.new,.new⟩ (fun before op after split keyed => ?_)
  exact keyed.step (names op (split ▸ List.mem_append_right before List.mem_cons_self))

/- In whatever state, a body that is stored and deleted again leaves the tables as they were if and only if its block
was not listed before; a listed one leaves with the body. -/
theorem deleteUndoesPutIff {ops : List TipOp} (names : ∀ op ∈ ops, op.Names lib world)
    (closed : (runTips lib ctxt prove ops).archive.TipsClosed)
    (noBody : (runTips lib ctxt prove ops).archive.bodies.tryGet b = none) {body : Body}
    (put : (runTips lib ctxt prove ops).archive.putBody b body = .ok archive) :
    (∃ archive', archive.deleteBody b = .ok archive' ∧ (runTips lib ctxt prove ops).archive.TablesBack archive') ↔
      ¬ (runTips lib ctxt prove ops).archive.isListed b := by
  have keyed : TipsKeyed lib world (runTips lib ctxt prove ops).archive := runKeyed names
  exact Archive.bodyUndoneIff keyed.keyed keyed.woods.sides closed noBody put

open Reference Archive

def closedCheck (archive : Archive Forest) : Bool :=
  archive.sideTips.sidechainTips.entries.all (fun entry =>
    (archive.parentOf entry.1).all (fun p => (archive.sideTips.sidechainTips.tryGet p).isSome))

theorem closedCheckSound {archive : Archive Forest} (checked : closedCheck archive = true) : archive.TipsClosed := by
  intro c p isListed isParent
  obtain ⟨info,found⟩ := isListedSome.mp isListed
  have entry := List.all_eq_true.mp checked (c,info) (Table.memEntries.mpr found)
  rw [isParent] at entry
  exact entry

def awaitedOps : List TipOp :=
  ((forkMain.take 3).map (fun entry => .archive (.handleBlockEvent (.connectBlock entry.1 (forkInfo entry.2))))) ++
    [.archive (.putHeader forkGenesis),.archive (.putHeader (forkChild 1 2)),
      .archive (.putBody ((forkChild 1 2).hash externals) ⟨[],[],[]⟩)]

def putsBody (archive : Archive Forest) (b : BlockHash) (check : Archive Forest → Bool) : Bool :=
  match archive.putBody b ⟨[],[],[]⟩ with
  | .ok archive' => check archive'
  | .error _ => false

theorem putsBodyPut {archive : Archive Forest} {check : Archive Forest → Bool} (puts : putsBody archive b check = true) :
    ∃ archive', archive.putBody b ⟨[],[],[]⟩ = .ok archive' ∧ check archive' = true := by
  unfold putsBody at puts
  split at puts
  · next archive' put => exact ⟨archive',put,puts⟩
  · cases puts

theorem awaitedUndone : ∃ archive archive',
    (runTips externals context noProof awaitedOps).archive.putBody (forkGenesis.hash externals) ⟨[],[],[]⟩ = .ok archive ∧
    archive.isListed (forkGenesis.hash externals) ∧ archive.isListed ((forkChild 1 2).hash externals) ∧
    archive.deleteBody (forkGenesis.hash externals) = .ok archive' ∧
    (runTips externals context noProof awaitedOps).archive.TablesBack archive' := by
  have names : ∀ op ∈ awaitedOps, op.Names externals forkWorld := by decide +kernel
  have closed : closedCheck (runTips externals context noProof awaitedOps).archive = true := by decide +kernel
  have missing : (runTips externals context noProof awaitedOps).archive.bodies.tryGet (forkGenesis.hash externals) = none ∧
      (runTips externals context noProof awaitedOps).archive.sideTips.sidechainTips.tryGet (forkGenesis.hash externals) =
        none := by decide +kernel
  have checked : putsBody (runTips externals context noProof awaitedOps).archive (forkGenesis.hash externals)
      (fun archive => (archive.sideTips.sidechainTips.tryGet (forkGenesis.hash externals)).isSome &&
        (archive.sideTips.sidechainTips.tryGet ((forkChild 1 2).hash externals)).isSome) = true := by decide +kernel
  obtain ⟨archive,put,listed⟩ := putsBodyPut checked
  rw [Bool.and_eq_true] at listed
  have unlisted : ¬ (runTips externals context noProof awaitedOps).archive.isListed (forkGenesis.hash externals) := by
    rw [isListed,missing.2]
    exact Bool.false_ne_true
  obtain ⟨archive',deleted,restored⟩ := (deleteUndoesPutIff names (closedCheckSound closed) missing.1 put).mpr unlisted
  exact ⟨archive,archive',put,listed.1,listed.2,deleted,restored⟩

/- An invalidated block whose header is stored again is still listed; the listing goes with the next body. -/
def resubmittedOps : List TipOp :=
  listedOps ++ [.invalidateBlock (tipHeader.hash externals),.archive (.putHeader tipHeader)]

theorem resubmittedNotUndone : ∃ (world : World) (b : BlockHash) (archive : Archive Forest),
    (∀ op ∈ resubmittedOps, op.Names externals world) ∧
    (runTips externals context noProof resubmittedOps).archive.TipsClosed ∧
    ((runTips externals context noProof resubmittedOps).archive.headers.tryGet b).isSome = true ∧
    (runTips externals context noProof resubmittedOps).archive.bodies.tryGet b = none ∧
    (runTips externals context noProof resubmittedOps).archive.putBody b ⟨[],[],[]⟩ = .ok archive ∧
    ¬ ∃ archive', archive.deleteBody b = .ok archive' ∧
      (runTips externals context noProof resubmittedOps).archive.TablesBack archive' := by
  have names : ∀ op ∈ resubmittedOps, op.Names externals tipWorld := by decide +kernel
  have closed : closedCheck (runTips externals context noProof resubmittedOps).archive = true := by decide +kernel
  have stored : ((runTips externals context noProof resubmittedOps).archive.headers.tryGet
      (tipHeader.hash externals)).isSome = true ∧
      (runTips externals context noProof resubmittedOps).archive.bodies.tryGet (tipHeader.hash externals) = none ∧
      ((runTips externals context noProof resubmittedOps).archive.sideTips.sidechainTips.tryGet
        (tipHeader.hash externals)).isSome = true := by decide +kernel
  have checked : putsBody (runTips externals context noProof resubmittedOps).archive (tipHeader.hash externals)
      (fun _ => true) = true := by decide +kernel
  obtain ⟨archive,put,_⟩ := putsBodyPut checked
  refine ⟨tipWorld,tipHeader.hash externals,archive,names,closedCheckSound closed,stored.1,stored.2.1,put,?_⟩
  rintro ⟨archive',deleted,restored⟩
  refine deleteBodyUnlists deleted ?_
  rw [isListed,restored.sidechainTips]
  exact stored.2.2

end NetTask

end Coinshift
