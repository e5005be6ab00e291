import Coinshift.ArchiveTrees

/-! Which commitments of the main chain count.
The results of a header are entered when the header arrives or when the main-chain block does, whichever comes
last; what they say in the end depends on neither order. -/
namespace Coinshift
open Checked Lineage

variable {F : Type} {lib : Externals F} {world : World}

namespace Archive

variable {archive archive' : Archive F} {b p : BlockHash} {m n : MainHash}

structure CommitsTo (archive : Archive F) (m : MainHash) (b : BlockHash) (header : Header) : Prop where
  stored : archive.headers.tryGet b = some header
  commitment : ∃ blockInfo, archive.mainBlockInfos.tryGet m = some blockInfo ∧ blockInfo.bmmCommitment = some b
  next : ∃ info, archive.mainHeaderInfos.tryGet m = some info ∧ info.prevBlockHash = header.prevMainHash

/- A valid commitment: the parent has one too, further up the main chain. -/
inductive Committed (archive : Archive F) : BlockHash → MainHash → Prop
  | genesis {b m header} (commits : CommitsTo archive m b header) (first : header.prevSideHash = none) : Committed archive b m
  | child {b m header p n} (commits : CommitsTo archive m b header) (isParent : header.prevSideHash = some p)
      (parent : Committed archive p n) (above : archive.mainLinks.Descends n m) : Committed archive b m

structure InfosKept (world : World) (archive : Archive F) : Prop where
  named : ∀ {m blockInfo}, archive.mainBlockInfos.tryGet m = some blockInfo → blockInfo = world.mainInfo m
  closed : ∀ {m blockInfo}, archive.mainBlockInfos.tryGet m = some blockInfo →
    ∃ info, archive.mainHeaderInfos.tryGet m = some info ∧
      (info.prevBlockHash = MainHash.allZeros ∨ (archive.mainBlockInfos.tryGet info.prevBlockHash).isSome = true)

def verifiedAt (archive : Archive F) (b : BlockHash) (m : MainHash) : Prop :=
  (archive.getBmmResults b).tryGet m = some .verified

def ResultsRight (archive : Archive F) : Prop := ∀ b m, archive.verifiedAt b m ↔ archive.Committed b m

structure Grown (archive archive' : Archive F) : Prop where
  headers : archive.headers.Grows archive'.headers
  mainHeaders : archive.mainHeaderInfos.Grows archive'.mainHeaderInfos
  mainHeights : archive.mainBlockHashToHeight.Grows archive'.mainBlockHashToHeight
  mainInfos : archive.mainBlockInfos.Grows archive'.mainBlockInfos

theorem Grown.descends (grown : Grown archive archive') (tree : MainTree world archive) {info : BlockHeaderInfo}
    (stored : archive.mainHeaderInfos.tryGet m = some info) :
    archive'.mainLinks.Descends n m ↔ archive.mainLinks.Descends n m := by
  obtain ⟨h,known,_⟩ := tree.heights.counted stored
  exact tree.sound.descendsSame (tree.extends grown.mainHeights grown.mainHeaders) (mainHeightOk.mpr known)

theorem Grown.commitsTo (grown : Grown archive archive') {header : Header} (commits : CommitsTo archive m b header) :
    CommitsTo archive' m b header := by
  obtain ⟨blockInfo,isInfo,commitment⟩ := commits.commitment
  obtain ⟨info,isHeader,next⟩ := commits.next
  exact ⟨grown.headers _ _ commits.stored,⟨blockInfo,grown.mainInfos _ _ isInfo,commitment⟩,
    ⟨info,grown.mainHeaders _ _ isHeader,next⟩⟩

theorem Committed.grow (committed : archive.Committed b m) (grown : Grown archive archive') (tree : MainTree world archive) :
    archive'.Committed b m := by
  induction committed with
  | genesis commits first => exact .genesis (grown.commitsTo commits) first
  | child commits isParent parent above ih =>
      obtain ⟨info,stored,_⟩ := commits.next
      exact .child (grown.commitsTo commits) isParent ih ((grown.descends tree stored).mpr above)

theorem InfosKept.above (infos : InfosKept world archive) (tree : MainTree world archive)
    (known : (archive.mainBlockInfos.tryGet m).isSome = true) (above : archive.mainLinks.Descends n m) :
    (archive.mainBlockInfos.tryGet n).isSome = true := by
  obtain ⟨h,k,isHeight,bound,up⟩ := above
  induction k generalizing m h with
  | zero =>
      cases up
      exact known
  | succ k ih =>
      obtain ⟨blockInfo,found⟩ := Option.isSome_iff_exists.mp known
      obtain ⟨info,stored,closed⟩ := infos.closed found
      obtain ⟨j,rfl⟩ := Nat.exists_eq_add_of_le' (Nat.lt_of_lt_of_le (Nat.succ_pos k) bound)
      obtain ⟨q,isParent,parentHeight⟩ := tree.sound.step isHeight
      have above := up
      rw [Links.up,isParent] at above
      obtain ⟨info',stored',rfl⟩ := mainParentOk.mp isParent
      cases stored.symm.trans stored'
      rcases closed with zero | parentKnown
      · obtain ⟨_,named⟩ := tree.heights.only (mainHeightOk.mp parentHeight)
        have nonZero := (tree.named named).1.2
        rw [(tree.named named).2] at nonZero
        exact absurd zero nonZero
      · exact ih parentKnown j parentHeight (Nat.le_of_succ_le_succ bound) above

theorem Committed.known (committed : archive.Committed b m) :
    ∃ header info, archive.headers.tryGet b = some header ∧ archive.mainHeaderInfos.tryGet m = some info ∧
      (archive.mainBlockInfos.tryGet m).isSome = true := by
  cases committed with
  | genesis commits =>
      obtain ⟨blockInfo,isInfo,_⟩ := commits.commitment
      obtain ⟨info,isHeader,_⟩ := commits.next
      exact ⟨_,info,commits.stored,isHeader,by rw [isInfo]; rfl⟩
  | child commits =>
      obtain ⟨blockInfo,isInfo,_⟩ := commits.commitment
      obtain ⟨info,isHeader,_⟩ := commits.next
      exact ⟨_,info,commits.stored,isHeader,by rw [isInfo]; rfl⟩

theorem SideTree.parentStored (sides : SideTree lib world archive) {header : Header}
    (stored : archive.headers.tryGet b = some header) (isParent : header.prevSideHash = some p) :
    (archive.headers.tryGet p).isSome = true := by
  obtain ⟨h,_,count⟩ := sides.heights.counted stored
  rcases sideCounts count with ⟨first,_⟩ | ⟨q,k,isChild,parentKnown,_⟩
  · cases first.symm.trans isParent
  · cases isChild.symm.trans isParent
    exact Option.isSome_iff_exists.mpr (sides.heights.only parentKnown)

theorem Committed.back (committed : archive'.Committed b m) (grown : Grown archive archive') (tree : MainTree world archive)
    (sides : SideTree lib world archive) (infos : InfosKept world archive)
    (header : (archive.headers.tryGet b).isSome = true) (known : (archive.mainBlockInfos.tryGet m).isSome = true) :
    archive.Committed b m := by
  have same {b : BlockHash} {m : MainHash} {header : Header} (commits : CommitsTo archive' m b header)
      (isStored : (archive.headers.tryGet b).isSome = true) (isKnown : (archive.mainBlockInfos.tryGet m).isSome = true) :
      CommitsTo archive m b header ∧ ∃ info, archive.mainHeaderInfos.tryGet m = some info := by
    obtain ⟨old,isOld⟩ := Option.isSome_iff_exists.mp isStored
    obtain ⟨oldInfo,isOldInfo⟩ := Option.isSome_iff_exists.mp isKnown
    obtain ⟨oldHeader,isOldHeader,_⟩ := infos.closed isOldInfo
    obtain ⟨blockInfo,isInfo,commitment⟩ := commits.commitment
    obtain ⟨info,isHeader,next⟩ := commits.next
    cases (grown.headers _ _ isOld).symm.trans commits.stored
    cases (grown.mainInfos _ _ isOldInfo).symm.trans isInfo
    cases (grown.mainHeaders _ _ isOldHeader).symm.trans isHeader
    exact ⟨⟨isOld,⟨oldInfo,isOldInfo,commitment⟩,⟨oldHeader,isOldHeader,next⟩⟩,oldHeader,isOldHeader⟩
  induction committed with
  | genesis commits first => exact .genesis (same commits header known).1 first
  | @child b m hd p n commits isParent parent above ih =>
      obtain ⟨commitsBefore,info,stored⟩ := same commits header known
      have aboveBefore := (grown.descends tree stored).mp above
      refine .child commitsBefore isParent (ih ?_ (infos.above tree known aboveBefore)) aboveBefore
      exact sides.parentStored commitsBefore.stored isParent

section Entering

theorem anyVerified {results : List (MainHash × BmmResult)} {f : MainHash → Except ArchiveError Bool} {P : MainHash → Prop}
    (right : ∀ entry ∈ results, entry.2 = .verified → ∃ answer, f entry.1 = .ok answer ∧ (answer = true ↔ P entry.1)) :
    ∃ answer, results.anyM (fun entry => if entry.2 = .verified then f entry.1 else .ok false) = .ok answer ∧
      (answer = true ↔ ∃ entry ∈ results, entry.2 = .verified ∧ P entry.1) := by
  induction results with
  | nil => exact ⟨false,rfl,by simp⟩
  | cons entry rest ih =>
      obtain ⟨later,isLater,more⟩ := ih (fun e mem => right e (List.mem_cons_of_mem _ mem))
      rw [List.anyM_cons]
      by_cases verified : entry.2 = .verified
      · obtain ⟨answer,isAnswer,holds⟩ := right entry List.mem_cons_self verified
        rw [if_pos verified,isAnswer,okBind]
        cases answer with
        | true => exact ⟨true,rfl,by simp [verified,holds.mp rfl]⟩
        | false =>
            refine ⟨later,isLater,?_⟩
            rw [more]
            have fails : ¬ P entry.1 := fun isP => by simpa using holds.mpr isP
            simp [fails]
      · rw [if_neg verified,okBind]
        refine ⟨later,isLater,?_⟩
        rw [more]
        simp [verified]

theorem parentVerifiedRight (tree : MainTree world archive) (right : ResultsRight archive) {info : BlockHeaderInfo}
    (stored : archive.mainHeaderInfos.tryGet m = some info) :
    ∃ answer, archive.parentVerified (archive.getBmmResults p) m = .ok answer ∧
      (answer = true ↔ ∃ n, archive.Committed p n ∧ archive.mainLinks.Descends n m) := by
  obtain ⟨h,known,_⟩ := tree.heights.counted stored
  obtain ⟨answer,isAnswer,holds⟩ := @anyVerified (archive.getBmmResults p).entries
    (fun n => archive.isMainDescendant n m) (fun n => archive.mainLinks.Descends n m) (by
      rintro ⟨n,result⟩ mem rfl
      obtain ⟨_,above,_,isAbove,_⟩ := ((right p n).mp (Table.memEntries.mp mem)).known
      obtain ⟨k,aboveKnown,_⟩ := tree.heights.counted isAbove
      exact tree.sound.isDescendant (mainHeightOk.mpr aboveKnown) (mainHeightOk.mpr known))
  refine ⟨answer,isAnswer,holds.trans ?_⟩
  constructor
  · rintro ⟨⟨n,result⟩,mem,rfl,above⟩
    exact ⟨n,(right p n).mp (Table.memEntries.mp mem),above⟩
  · rintro ⟨n,committed,above⟩
    exact ⟨(n,.verified),Table.memEntries.mpr ((right p n).mpr committed),rfl,above⟩

/- The result that is entered for a block and a main-chain block after the one it names: in both operations. -/
theorem resultRight (tree : MainTree world archive) (right : ResultsRight archive) (header : Header)
    {info : BlockHeaderInfo} (stored : archive.mainHeaderInfos.tryGet m = some info) :
    ∃ result, archive.bmmResultOf header info m = .ok result ∧ (result = .verified ↔
      info.prevBlockHash = header.prevMainHash ∧
      ∀ p, header.prevSideHash = some p → ∃ n, archive.Committed p n ∧ archive.mainLinks.Descends n m) := by
  unfold bmmResultOf
  by_cases next : header.prevMainHash = info.prevBlockHash
  · rw [if_neg (not_not.mpr next)]
    cases isParent : header.prevSideHash with
    | none => exact ⟨.verified,rfl,by simp [next]⟩
    | some p =>
        obtain ⟨answer,isAnswer,holds⟩ := @parentVerifiedRight _ _ archive p m tree right info stored
        simp only [isAnswer,okBind]
        cases answer with
        | true => exact ⟨.verified,rfl,by simpa [next] using holds⟩
        | false => exact ⟨.failed,rfl,by simpa [next] using holds⟩
  · rw [if_pos next]
    exact ⟨.failed,rfl,by simp [Ne.symm next]⟩

theorem bmmResultAtRight (tree : MainTree world archive) (right : ResultsRight archive) (infos : InfosKept world archive)
    {header : Header} {result : BmmResult}
    (entered : archive.bmmResultAt header b (header.prevSideHash.map archive.getBmmResults) m = .ok result) :
    (archive.mainBlockInfos.tryGet m).isSome = true ∧
    (result = .verified ↔ (∃ blockInfo, archive.mainBlockInfos.tryGet m = some blockInfo ∧
        blockInfo.bmmCommitment = some b) ∧
      (∃ info, archive.mainHeaderInfos.tryGet m = some info ∧ info.prevBlockHash = header.prevMainHash) ∧
      ∀ p, header.prevSideHash = some p → ∃ n, archive.Committed p n ∧ archive.mainLinks.Descends n m) := by
  simp only [bmmResultAt,getMainBlockInfo,bindOk,okOrOk] at entered
  obtain ⟨blockInfo,found,entered⟩ := entered
  refine ⟨by rw [found]; rfl,?_⟩
  obtain ⟨info,stored,_⟩ := infos.closed found
  rw [found]
  cases commitment : blockInfo.bmmCommitment with
  | none =>
      simp only [commitment,pureOk] at entered
      simp [← entered,commitment]
  | some other =>
      simp only [commitment] at entered
      by_cases same : other = b
      · subst same
        rw [if_neg (by simp)] at entered
        simp only [getMainHeaderInfo,bindOk,okOrOk] at entered
        obtain ⟨info',stored',entered⟩ := entered
        cases stored.symm.trans stored'
        have asOther : archive.bmmResultOf header info m = .ok result := by
          rw [← entered,bmmResultOf]
          cases header.prevSideHash <;> rfl
        obtain ⟨result',isResult,holds⟩ := resultRight tree right header stored
        cases asOther.symm.trans isResult
        rw [holds,stored]
        simp [commitment]
      · rw [if_pos same,pureOk] at entered
        simp [← entered,commitment,same]

theorem foldEntered {f : MainHash → Except ArchiveError BmmResult} {mains : List MainHash}
    {before results : Table MainHash BmmResult}
    (ok : mains.foldlM (fun results main => do
      let result ← f main
      pure (results.put main result)) before = .ok results) (m : MainHash) :
    m ∈ mains ∧ (∃ result, f m = .ok result ∧ results.tryGet m = some result) ∨
      m ∉ mains ∧ results.tryGet m = before.tryGet m := by
  refine foldHistory (P := fun done now => m ∈ done ∧ (∃ result, f m = .ok result ∧ now.tryGet m = some result) ∨
    m ∉ done ∧ now.tryGet m = before.tryGet m) (.inr ⟨by simp,rfl⟩) ?_ ok
  intro done main later now next _ _ entered holds
  simp only [bindOk,pureOk] at entered
  obtain ⟨result,isResult,rfl⟩ := entered
  by_cases here : m = main
  · subst here
    exact .inl ⟨by simp,result,isResult,Table.tryGetPutSelf⟩
  · rw [Table.tryGetPutOther here]
    simpa [here] using holds

theorem PutHeaderSource.grown {header : Header} (source : PutHeaderSource lib archive header archive')
    (sides : SideTree lib world archive) (names : header = world.header (header.hash lib)) : Grown archive archive' := by
  obtain ⟨height,set,js,mainBlocks,results,isHeight,isSet,found,isMain,isResults,rfl⟩ := source
  exact ⟨Table.putGrows (sides.again names),fun _ _ found => found,fun _ _ found => found,fun _ _ found => found⟩

theorem itemsMem {set : HashSet} {hash : Hash} : hash ∈ set.items ↔ (set.tryGet hash).isSome = true := by
  simp only [HashSet.items,List.mem_map,Prod.exists,exists_and_right,exists_eq_right,Table.memEntries]
  exact Option.isSome_iff_exists.symm

theorem MainTree.next (tree : MainTree world archive) {q : MainHash} {mainBlocks : HashSet}
    (isMain : archive.mainSuccessors.tryGet q = some mainBlocks) :
    m ∈ mainBlocks.items ↔ ∃ info, archive.mainHeaderInfos.tryGet m = some info ∧ info.prevBlockHash = q := by
  rw [itemsMem,tree.follows _ _ m isMain,Option.map_eq_some_iff]

theorem Committed.commits (committed : archive.Committed b m) : ∃ header, CommitsTo archive m b header ∧
    ∀ p, header.prevSideHash = some p → ∃ n, archive.Committed p n ∧ archive.mainLinks.Descends n m := by
  cases committed with
  | genesis commits first =>
      refine ⟨_,commits,fun p isParent => ?_⟩
      cases first.symm.trans isParent
  | child commits isParent parent above =>
      refine ⟨_,commits,fun p isParent' => ?_⟩
      cases isParent.symm.trans isParent'
      exact ⟨_,parent,above⟩

theorem CommitsTo.committed {header : Header} (commits : CommitsTo archive m b header)
    (parents : ∀ p, header.prevSideHash = some p → ∃ n, archive.Committed p n ∧ archive.mainLinks.Descends n m) :
    archive.Committed b m := by
  cases isParent : header.prevSideHash with
  | none => exact .genesis commits isParent
  | some p =>
      obtain ⟨n,parent,above⟩ := parents p isParent
      exact .child commits isParent parent above

theorem ResultsRight.putHeader {header : Header} (right : ResultsRight archive) (tree : MainTree world archive)
    (sides : SideTree lib world archive) (infos : InfosKept world archive)
    (names : header = world.header (header.hash lib)) (source : PutHeaderSource lib archive header archive') :
    ResultsRight archive' := by
  have grown := source.grown sides names
  have sidesAfter := sides.put names source
  obtain ⟨height,set,js,mainBlocks,results,isHeight,isSet,found,isMain,isResults,rfl⟩ := source
  have entered := foldEntered (f := archive.bmmResultAt header (header.hash lib)
    (header.prevSideHash.map archive.getBmmResults)) isResults
  intro b m
  by_cases here : b = header.hash lib
  · subst here
    have verified : verifiedAt { (archive.enterHeader header (header.hash lib) height set).enterJumps (header.hash lib) js
        with bmmResults := archive.bmmResults.put (header.hash lib) results } (header.hash lib) m ↔
        results.tryGet m = some .verified := by
      simp only [verifiedAt,getBmmResults,Table.tryGetPutSelf,Option.getD_some]
    rw [verified]
    rcases entered m with ⟨_,result,isResult,atMain⟩ | ⟨outside,same⟩
    · obtain ⟨known,holds⟩ := bmmResultAtRight tree right infos isResult
      rw [atMain,Option.some.injEq,holds]
      constructor
      · rintro ⟨commitment,⟨info,stored,next⟩,parents⟩
        refine @CommitsTo.committed _ _ _ _ header ⟨Table.tryGetPutSelf,commitment,info,stored,next⟩ ?_
        intro p isParent
        obtain ⟨n,parent,above⟩ := parents p isParent
        exact ⟨n,parent.grow grown tree,(grown.descends tree stored).mpr above⟩
      · intro committed
        obtain ⟨header',commits,parents⟩ := committed.commits
        cases commits.stored.symm.trans Table.tryGetPutSelf
        obtain ⟨info,stored,next⟩ := commits.next
        refine ⟨commits.commitment,⟨info,stored,next⟩,fun p isParent => ?_⟩
        obtain ⟨n,parent,above⟩ := parents p isParent
        have aboveBefore := (grown.descends tree stored).mp above
        refine ⟨n,parent.back grown tree sides infos ?_ (infos.above tree known aboveBefore),aboveBefore⟩
        rcases sideCounts isHeight with ⟨first,_⟩ | ⟨q,k,isChild,parentKnown,_⟩
        · cases first.symm.trans isParent
        · cases isChild.symm.trans isParent
          obtain ⟨parentHeader,isHeader⟩ := sides.heights.only parentKnown
          rw [isHeader]
          rfl
    · have apart (header' : Header) (commits : CommitsTo archive m (header.hash lib) header' ∨ header' = header ∧
          ∃ info, archive.mainHeaderInfos.tryGet m = some info ∧ info.prevBlockHash = header.prevMainHash) : False := by
        refine outside ((tree.next isMain).mpr ?_)
        rcases commits with commits | ⟨_,next⟩
        · cases sides.again names header' commits.stored
          exact commits.next
        · exact next
      rw [same]
      constructor
      · intro isVerified
        obtain ⟨header',commits,_⟩ := ((right (header.hash lib) m).mp isVerified).commits
        exact (apart header' (.inl commits)).elim
      · intro committed
        obtain ⟨header',commits,_⟩ := committed.commits
        cases commits.stored.symm.trans Table.tryGetPutSelf
        exact (apart header (.inr ⟨rfl,commits.next⟩)).elim
  · have same : verifiedAt { (archive.enterHeader header (header.hash lib) height set).enterJumps (header.hash lib) js
        with bmmResults := archive.bmmResults.put (header.hash lib) results } b m ↔ archive.verifiedAt b m := by
      simp only [verifiedAt,getBmmResults,Table.tryGetPutOther here]
    rw [same,right b m]
    constructor
    · exact fun committed => committed.grow grown tree
    · intro committed
      obtain ⟨header',info,stored,_,known⟩ := committed.known
      refine committed.back grown tree sides infos ?_ known
      rw [enterJumps,enterHeader,Table.tryGetPutOther here] at stored
      rw [stored]
      rfl

structure PutMainInfoSource (archive : Archive F) (m : MainHash) (blockInfo : BlockInfo) (archive' : Archive F) :
    Prop where
  header : ∃ info, archive.mainHeaderInfos.tryGet m = some info ∧ (info.prevBlockHash = MainHash.allZeros ∨
      (archive.mainBlockInfos.tryGet info.prevBlockHash).isSome = true) ∧
    ((∀ b header, blockInfo.bmmCommitment = some b → archive.headers.tryGet b ≠ some header) ∧
        archive' = { archive with mainBlockInfos := archive.mainBlockInfos.put m blockInfo } ∨
      ∃ b header result, blockInfo.bmmCommitment = some b ∧ archive.headers.tryGet b = some header ∧
        archive.bmmResultOf header info m = .ok result ∧
        archive' = { archive with
          mainBlockInfos := archive.mainBlockInfos.put m blockInfo
          bmmResults := archive.bmmResults.put b ((archive.getBmmResults b).put m result) })

theorem putMainInfoSource {blockInfo : BlockInfo} (ok : archive.putMainBlockInfo m blockInfo = .ok archive') :
    PutMainInfoSource archive m blockInfo archive' := by
  simp only [putMainBlockInfo,getMainHeaderInfo,bindOk,okOrOk,ensureOk] at ok
  obtain ⟨info,stored,_,closed,ok⟩ := ok
  refine ⟨info,stored,closed,?_⟩
  split at ok
  · next none =>
      cases ok
      refine .inl ⟨fun b header commitment => ?_,rfl⟩
      cases none.symm.trans commitment
  · next b commitment =>
      split at ok
      · next missing =>
          cases ok
          refine .inl ⟨fun b' header some found => ?_,rfl⟩
          cases commitment.symm.trans some
          cases missing.symm.trans found
      · next header found =>
          simp only [bindOk,pureOk] at ok
          obtain ⟨result,isResult,rfl⟩ := ok
          exact .inr ⟨b,header,result,commitment,found,isResult,rfl⟩

theorem PutMainInfoSource.grown {blockInfo : BlockInfo} (source : PutMainInfoSource archive m blockInfo archive')
    (infos : InfosKept world archive) (names : blockInfo = world.mainInfo m) : Grown archive archive' := by
  have grows : archive.mainBlockInfos.Grows (archive.mainBlockInfos.put m blockInfo) :=
    Table.putGrows (fun old found => (infos.named found).trans names.symm)
  obtain ⟨info,_,_,⟨_,rfl⟩ | ⟨b,header,result,_,_,_,rfl⟩⟩ := source
  · exact ⟨fun _ _ found => found,fun _ _ found => found,fun _ _ found => found,grows⟩
  · exact ⟨fun _ _ found => found,fun _ _ found => found,fun _ _ found => found,grows⟩

theorem PutMainInfoSource.infos {blockInfo : BlockInfo} (source : PutMainInfoSource archive m blockInfo archive')
    (infos : InfosKept world archive) (names : blockInfo = world.mainInfo m) : InfosKept world archive' := by
  obtain ⟨info,stored,closed,cases_⟩ := source
  have tables : archive'.mainBlockInfos = archive.mainBlockInfos.put m blockInfo ∧
      archive'.mainHeaderInfos = archive.mainHeaderInfos := by
    rcases cases_ with ⟨_,rfl⟩ | ⟨b,header,result,_,_,_,rfl⟩ <;> exact ⟨rfl,rfl⟩
  have kept {q : MainHash} (known : (archive.mainBlockInfos.tryGet q).isSome = true) :
      ((archive.mainBlockInfos.put m blockInfo).tryGet q).isSome = true := by
    rw [Table.tryGetPut]
    split
    · rfl
    · exact known
  constructor
  · intro m' found isFound
    rw [tables.1,Table.tryGetPut] at isFound
    split at isFound
    · next here =>
        cases isFound
        rw [here,names]
    · exact infos.named isFound
  · intro m' found isFound
    rw [tables.1,Table.tryGetPut] at isFound
    rw [tables.1,tables.2]
    split at isFound
    · next here => exact ⟨info,here ▸ stored,closed.imp_right kept⟩
    · obtain ⟨info',stored',closed'⟩ := infos.closed isFound
      exact ⟨info',stored',closed'.imp_right kept⟩

theorem SideTree.parentOther (sides : SideTree lib world archive) {header : Header}
    (stored : archive.headers.tryGet b = some header) : header.prevSideHash ≠ some b := by
  intro same
  have own := (sides.named stored).2
  obtain ⟨n,_,count⟩ := sides.heights.counted stored
  have names : header = world.header (header.hash lib) := own ▸ (sides.named stored).1
  exact sides.otherParent names count (own ▸ same)

theorem PutMainInfoSource.commitment {blockInfo : BlockInfo} {header : Header}
    (source : PutMainInfoSource archive m blockInfo archive') (commits : CommitsTo archive' m b header) :
    blockInfo.bmmCommitment = some b ∧ archive.headers.tryGet b = some header := by
  obtain ⟨found,isFound,commitment⟩ := commits.commitment
  have stored := commits.stored
  obtain ⟨info,_,_,⟨_,rfl⟩ | ⟨_,_,_,_,_,_,rfl⟩⟩ := source
  all_goals
    cases isFound.symm.trans Table.tryGetPutSelf
    exact ⟨commitment,stored⟩

theorem PutMainInfoSource.elsewhere {blockInfo : BlockInfo} (source : PutMainInfoSource archive m blockInfo archive')
    (right : ResultsRight archive) (tree : MainTree world archive) (sides : SideTree lib world archive)
    (infos : InfosKept world archive) (names : blockInfo = world.mainInfo m) (other : n ≠ m) :
    archive'.Committed b n ↔ archive.verifiedAt b n := by
  have grown := source.grown infos names
  rw [right b n]
  constructor
  · intro committed
    obtain ⟨header,_,stored,_,known⟩ := committed.known
    refine committed.back grown tree sides infos ?_ ?_
    · obtain ⟨_,_,_,⟨_,rfl⟩ | ⟨_,_,_,_,_,_,rfl⟩⟩ := source <;> exact Option.isSome_iff_exists.mpr ⟨header,stored⟩
    · obtain ⟨_,_,_,⟨_,rfl⟩ | ⟨_,_,_,_,_,_,rfl⟩⟩ := source
      all_goals simpa only [Table.tryGetPutOther other] using known
  · exact fun committed => committed.grow grown tree

theorem ResultsRight.putMainInfo {blockInfo : BlockInfo} (right : ResultsRight archive) (tree : MainTree world archive)
    (sides : SideTree lib world archive) (infos : InfosKept world archive) (names : blockInfo = world.mainInfo m)
    (source : PutMainInfoSource archive m blockInfo archive') : ResultsRight archive' := by
  have grown := source.grown infos names
  have elsewhere {b : BlockHash} {n : MainHash} := source.elsewhere (b := b) (n := n) right tree sides infos names
  have commitment {b : BlockHash} {header : Header} (commits : CommitsTo archive' m b header) := source.commitment commits
  obtain ⟨info,stored,_,⟨unknown,rfl⟩ | ⟨c,header,result,commits,isHeader,isResult,rfl⟩⟩ := source
  · intro b n
    by_cases here : n = m
    · subst here
      have none {b' : BlockHash} {header : Header} (commits : CommitsTo { archive with
          mainBlockInfos := archive.mainBlockInfos.put n blockInfo } n b' header) : False :=
        unknown b' header (commitment commits).1 (commitment commits).2
      constructor
      · intro isVerified
        obtain ⟨header,commits,_⟩ := ((right b n).mp isVerified).commits
        exact (none (grown.commitsTo commits)).elim
      · intro committed
        obtain ⟨header,commits,_⟩ := committed.commits
        exact (none commits).elim
    · exact (elsewhere here).symm
  · intro b n
    by_cases atBlock : b = c
    · subst atBlock
      have results : verifiedAt { archive with
          mainBlockInfos := archive.mainBlockInfos.put m blockInfo
          bmmResults := archive.bmmResults.put b ((archive.getBmmResults b).put m result) } b n ↔
          ((archive.getBmmResults b).put m result).tryGet n = some .verified := by
        simp only [verifiedAt,getBmmResults,Table.tryGetPutSelf,Option.getD_some]
      rw [results]
      by_cases here : n = m
      · subst here
        rw [Table.tryGetPutSelf,Option.some.injEq]
        obtain ⟨result',isResult',holds⟩ := resultRight tree right header stored
        cases isResult.symm.trans isResult'
        rw [holds]
        constructor
        · rintro ⟨next,parents⟩
          refine @CommitsTo.committed _ _ _ _ header ⟨isHeader,⟨blockInfo,Table.tryGetPutSelf,commits⟩,info,stored,next⟩ ?_
          intro p isParent
          obtain ⟨k,parent,above⟩ := parents p isParent
          exact ⟨k,parent.grow grown tree,(grown.descends tree stored).mpr above⟩
        · intro committed
          obtain ⟨header',commitsTo,parents⟩ := committed.commits
          cases commitsTo.stored.symm.trans isHeader
          obtain ⟨info',stored',next⟩ := commitsTo.next
          cases stored.symm.trans stored'
          refine ⟨next,fun p isParent => ?_⟩
          obtain ⟨k,parent,above⟩ := parents p isParent
          have apart : k ≠ n := by
            rintro rfl
            obtain ⟨_,other,_⟩ := parent.commits
            cases commits.symm.trans (commitment other).1
            exact sides.parentOther isHeader isParent
          exact ⟨k,(right p k).mp ((elsewhere apart).mp parent),(grown.descends tree stored).mp above⟩
      · rw [Table.tryGetPutOther here]
        exact (elsewhere here).symm
    · have same : verifiedAt { archive with
          mainBlockInfos := archive.mainBlockInfos.put m blockInfo
          bmmResults := archive.bmmResults.put c ((archive.getBmmResults c).put m result) } b n ↔ archive.verifiedAt b n := by
        simp only [verifiedAt,getBmmResults,Table.tryGetPutOther atBlock]
      rw [same]
      by_cases here : n = m
      · subst here
        have none {header' : Header} (other : CommitsTo { archive with
            mainBlockInfos := archive.mainBlockInfos.put n blockInfo
            bmmResults := archive.bmmResults.put c ((archive.getBmmResults c).put n result) } n b header') : False := by
          cases commits.symm.trans (commitment other).1
          exact atBlock rfl
        constructor
        · intro isVerified
          obtain ⟨header',commits',_⟩ := ((right b n).mp isVerified).commits
          exact (none (grown.commitsTo commits')).elim
        · intro committed
          obtain ⟨header',commits',_⟩ := committed.commits
          exact (none commits').elim
      · exact (elsewhere here).symm

end Entering

section Kept

/- What holds of every archive: both trees, the known contents and the results. -/
structure Trees (lib : Externals F) (world : World) (archive : Archive F) : Prop where
  main : MainTree world archive
  sides : SideTree lib world archive
  infos : InfosKept world archive
  results : ResultsRight archive

theorem Trees.putHeader {header : Header} (trees : Trees lib world archive)
    (names : header = world.header (header.hash lib)) (ok : archive.putHeader lib header = .ok archive') :
    Trees lib world archive' := by
  have source := putHeaderSource ok
  have sides := trees.sides.put names source
  have results := trees.results.putHeader trees.main trees.sides trees.infos names source
  obtain ⟨height,set,js,mainBlocks,results',isHeight,isSet,found,isMain,isResults,rfl⟩ := source
  exact ⟨{ trees.main with },sides,{ trees.infos with },results⟩

theorem Trees.putMainInfo {blockInfo : BlockInfo} (trees : Trees lib world archive) (names : blockInfo = world.mainInfo m)
    (ok : archive.putMainBlockInfo m blockInfo = .ok archive') : Trees lib world archive' := by
  have source := putMainInfoSource ok
  have infos := source.infos trees.infos names
  have results := trees.results.putMainInfo trees.main trees.sides trees.infos names source
  obtain ⟨info,_,_,⟨_,rfl⟩ | ⟨b,header,result,_,_,_,rfl⟩⟩ := source
  · exact ⟨{ trees.main with },{ trees.sides with },infos,results⟩
  · exact ⟨{ trees.main with },{ trees.sides with },infos,results⟩

theorem Trees.putMainHeader {info : BlockHeaderInfo} (trees : Trees lib world archive) (names : world.NamesMain info)
    (ok : archive.putMainHeaderInfo info = .ok archive') : Trees lib world archive' := by
  have source := putMainHeaderSource ok
  have main := trees.main.put names source
  obtain ⟨parent,height,work,set,js,isHeight,isWork,isSet,found,rfl⟩ := source
  have again := trees.main.again names
  have infos : archive.mainHeaderInfos.Grows (archive.mainHeaderInfos.put info.blockHash info) := Table.putGrows again
  have grown : Grown archive { archive with
      mainBlockHashToHeight := archive.mainBlockHashToHeight.put info.blockHash height
      mainHeaderInfos := archive.mainHeaderInfos.put info.blockHash info
      totalWork := archive.totalWork.put info.blockHash work
      mainSuccessors := enterFollower archive.mainSuccessors info.prevBlockHash set info.blockHash info.blockHash
      exponentialMainAncestors := archive.exponentialMainAncestors.put info.blockHash js } :=
    ⟨fun _ _ found => found,infos,trees.main.heights.grows again isHeight,fun _ _ found => found⟩
  refine ⟨main,{ trees.sides with },⟨trees.infos.named,?_⟩,fun b m => ?_⟩
  · intro m blockInfo known
    obtain ⟨old,stored,closed⟩ := trees.infos.closed known
    exact ⟨old,infos _ _ stored,closed⟩
  · refine (trees.results b m).trans ⟨fun committed => committed.grow grown trees.main,fun committed => ?_⟩
    obtain ⟨header,_,stored,_,known⟩ := committed.known
    exact committed.back grown trees.main trees.sides trees.infos (Option.isSome_iff_exists.mpr ⟨header,stored⟩) known

end Kept

end Archive

end Coinshift
