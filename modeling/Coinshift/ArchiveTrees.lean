import Coinshift.SideTips

/-! The two trees of an archive.
What a hash names never changes, so an archive only ever grows: blocks that are stored keep their place, and the
ancestor lookups stay right. -/
namespace Coinshift
open Checked Lineage

variable {F : Type} {lib : Externals F}

/- What each hash stands for. -/
structure World where
  header : BlockHash → Header
  mainHeader : MainHash → BlockHeaderInfo
  mainInfo : MainHash → BlockInfo

inductive ArchiveOp where
  | handleBlockEvent (event : MainchainEvent)
  | putMainHeaderInfo (info : BlockHeaderInfo)
  | putMainBlockInfo (mainHash : MainHash) (blockInfo : BlockInfo)
  | putHeader (header : Header)
  | putBody (blockHash : BlockHash) (body : Body)
  | deleteBody (blockHash : BlockHash)

def ArchiveOp.apply (lib : Externals F) (archive : Archive F) : ArchiveOp → Except ArchiveError (Archive F)
  | .handleBlockEvent event => archive.handleBlockEvent event
  | .putMainHeaderInfo info => archive.putMainHeaderInfo info
  | .putMainBlockInfo mainHash blockInfo => archive.putMainBlockInfo mainHash blockInfo
  | .putHeader header => archive.putHeader lib header
  | .putBody blockHash body => archive.putBody blockHash body
  | .deleteBody blockHash => archive.deleteBody blockHash

def World.NamesMain (world : World) (info : BlockHeaderInfo) : Prop :=
  info = world.mainHeader info.blockHash ∧ info.blockHash ≠ MainHash.allZeros

/- The operation is about what its hashes name; the zero hash names no main-chain block. -/
def ArchiveOp.Names (lib : Externals F) (world : World) : ArchiveOp → Prop
  | .handleBlockEvent (.connectBlock info blockInfo) => world.NamesMain info ∧ blockInfo = world.mainInfo info.blockHash
  | .putMainHeaderInfo info => world.NamesMain info
  | .putMainBlockInfo mainHash blockInfo => blockInfo = world.mainInfo mainHash
  | .putHeader header => header = world.header (header.hash lib)
  | _ => True

instance {lib : Externals F} {world : World} {op : ArchiveOp} : Decidable (op.Names lib world) :=
  match op with
  | .handleBlockEvent (.connectBlock info blockInfo) =>
      inferInstanceAs (Decidable ((info = world.mainHeader info.blockHash ∧ info.blockHash ≠ MainHash.allZeros) ∧
        blockInfo = world.mainInfo info.blockHash))
  | .handleBlockEvent (.disconnectBlock _) | .putBody _ _ | .deleteBody _ => isTrue trivial
  | .putMainHeaderInfo info =>
      inferInstanceAs (Decidable (info = world.mainHeader info.blockHash ∧ info.blockHash ≠ MainHash.allZeros))
  | .putMainBlockInfo mainHash blockInfo => inferInstanceAs (Decidable (blockInfo = world.mainInfo mainHash))
  | .putHeader header => inferInstanceAs (Decidable (header = world.header (header.hash lib)))

section Followers

variable {Q : Type} [DbKey Q] [DecidableEq Q]

def Follows (followers : Table Q HashSet) (parent : Hash → Option Q) : Prop :=
  ∀ q set m, followers.tryGet q = some set → ((set.tryGet m).isSome = true ↔ parent m = some q)

def enterFollower (followers : Table Q HashSet) (q : Q) (set : HashSet) (own : Q) (b : Hash) : Table Q HashSet :=
  (followers.put q (set.insert b)).put own (((followers.put q (set.insert b)).tryGet own).getD ∅)

theorem Follows.enter {followers : Table Q HashSet} {parent parent' : Hash → Option Q} {set : HashSet} {b : Hash} {q own : Q}
    (follows : Follows followers parent) (other : q ≠ own) (isSet : followers.tryGet q = some set)
    (grown : ∀ m, parent' m = if m = b then some q else parent m) (again : parent b = none ∨ parent b = some q)
    (entered : followers.tryGet own = none → ∀ m, parent m ≠ some own) :
    Follows (enterFollower followers q set own b) parent' := by
  have same {p : Q} {m : Hash} (elsewhere : p ≠ q) : parent' m = some p ↔ parent m = some p := by
    rw [grown m]
    split
    · next here =>
        subst here
        constructor
        · exact fun isParent => absurd (Option.some.inj isParent).symm elsewhere
        · intro isParent
          rcases again with none | some
          · cases none.symm.trans isParent
          · exact absurd (Option.some.inj (isParent.symm.trans some)) elsewhere
    · rfl
  intro p set' m found
  rw [enterFollower,Table.tryGetPut,Table.tryGetPut,if_neg (Ne.symm other)] at found
  by_cases here : p = own
  · subst here
    rw [same (Ne.symm other)]
    cases old : followers.tryGet p with
    | none =>
        simp only [old,if_true,Option.getD_none,Option.some.injEq] at found
        subst found
        simpa using entered old m
    | some set'' =>
        simp only [old,if_true,Option.getD_some,Option.some.injEq] at found
        subst found
        exact follows _ _ _ old
  · rw [if_neg here,Table.tryGetPut] at found
    split at found
    · next atParent =>
        cases found
        rw [atParent,grown m,HashSet.insert,Table.tryGetPut]
        split
        · simp
        · exact follows _ _ _ isSet
    · next elsewhere =>
        rw [same elsewhere]
        exact follows _ _ _ found

end Followers

section Counts

variable {I : Type}

structure Counting (I : Type) where
  parent : I → Option Hash
  root : I → Nat
  next : Nat → I → Nat

inductive Counting.Counts (counting : Counting I) (counts : Table Hash Nat) (info : I) : Nat → Prop
  | root (first : counting.parent info = none) : Counts counting counts info (counting.root info)
  | child {p : Hash} {m : Nat} (isParent : counting.parent info = some p) (known : counts.tryGet p = some m) :
      Counts counting counts info (counting.next m info)

structure Counting.Kept (counting : Counting I) (infos : Table Hash I) (counts : Table Hash Nat) : Prop where
  counted : ∀ {b info}, infos.tryGet b = some info → ∃ n, counts.tryGet b = some n ∧ counting.Counts counts info n
  only : ∀ {b n}, counts.tryGet b = some n → ∃ info, infos.tryGet b = some info

variable {counting : Counting I} {infos : Table Hash I} {counts : Table Hash Nat} {info : I} {b : Hash} {n : Nat}

theorem Counting.Counts.unique {m : Nat} (first : counting.Counts counts info n) (second : counting.Counts counts info m) :
    n = m := by
  cases first with
  | root none =>
      cases second with
      | root => rfl
      | child some => cases none.symm.trans some
  | child some known =>
      cases second with
      | root none => cases none.symm.trans some
      | child some' known' =>
          cases some.symm.trans some'
          cases known.symm.trans known'
          rfl

theorem Counting.Counts.grow {counts' : Table Hash Nat} (count : counting.Counts counts info n)
    (grows : counts.Grows counts') : counting.Counts counts' info n := by
  cases count with
  | root none => exact .root none
  | child some known => exact .child some (grows _ _ known)

theorem Counting.Kept.grows (kept : counting.Kept infos counts) (again : ∀ old, infos.tryGet b = some old → old = info)
    (count : counting.Counts counts info n) : counts.Grows (counts.put b n) := by
  refine Table.putGrows (fun m known => ?_)
  obtain ⟨old,stored⟩ := kept.only known
  obtain ⟨m',known',before⟩ := kept.counted stored
  cases again old stored
  cases known.symm.trans known'
  exact before.unique count

theorem Counting.Kept.put (kept : counting.Kept infos counts) (again : ∀ old, infos.tryGet b = some old → old = info)
    (count : counting.Counts counts info n) : counting.Kept (infos.put b info) (counts.put b n) := by
  have grows := kept.grows again count
  constructor
  · intro c stored found
    rw [Table.tryGetPut] at found
    split at found
    · next here =>
        cases found
        exact ⟨n,by rw [here,Table.tryGetPutSelf],count.grow grows⟩
    · obtain ⟨m,known,before⟩ := kept.counted found
      exact ⟨m,grows _ _ known,before.grow grows⟩
  · intro c m known
    rw [Table.tryGetPut] at known
    rw [Table.tryGetPut]
    split at known
    · next here => exact ⟨info,if_pos here⟩
    · next other =>
        rw [if_neg other]
        exact kept.only known

end Counts

namespace Archive

variable {archive archive' : Archive F} {world : World}

section MainTree

def mainHeights : Counting BlockHeaderInfo := ⟨fun info => mainBlock info.prevBlockHash,fun _ => 0,fun h _ => h + 1⟩

def mainWorks : Counting BlockHeaderInfo :=
  ⟨fun info => mainBlock info.prevBlockHash,fun info => info.work,fun work info => work + info.work⟩

theorem mainBlockNone {m : MainHash} : mainBlock m = none ↔ m = MainHash.allZeros := by simp [mainBlock]

theorem mainBlockSome {m p : MainHash} : mainBlock m = some p ↔ m ≠ MainHash.allZeros ∧ m = p := by simp [mainBlock]

theorem mainCounts {counts : Table Hash Nat} {info : BlockHeaderInfo} {n : Nat} (count : mainHeights.Counts counts info n) :
    info.prevBlockHash = MainHash.allZeros ∧ n = 0 ∨
      ∃ h, info.prevBlockHash ≠ MainHash.allZeros ∧ counts.tryGet info.prevBlockHash = some h ∧ n = h + 1 := by
  cases count with
  | root zero => exact .inl ⟨mainBlockNone.mp zero,rfl⟩
  | child isParent known =>
      obtain ⟨nonZero,rfl⟩ := mainBlockSome.mp isParent
      exact .inr ⟨_,nonZero,known,rfl⟩

structure MainTree (world : World) (archive : Archive F) : Prop where
  sound : archive.mainLinks.Sound
  named : ∀ {m info}, archive.mainHeaderInfos.tryGet m = some info → world.NamesMain info ∧ info.blockHash = m
  heights : mainHeights.Kept archive.mainHeaderInfos archive.mainBlockHashToHeight
  works : mainWorks.Kept archive.mainHeaderInfos archive.totalWork
  follows : Follows archive.mainSuccessors (fun m => (archive.mainHeaderInfos.tryGet m).map (·.prevBlockHash))
  followed : ∀ {m}, (archive.mainHeaderInfos.tryGet m).isSome = true ∨ m = MainHash.allZeros →
    (archive.mainSuccessors.tryGet m).isSome = true

structure PutMainHeaderSource (archive : Archive F) (info : BlockHeaderInfo) (archive' : Archive F) : Prop where
  parent : (archive.mainHeaderInfos.tryGet info.prevBlockHash).isSome = true ∨ info.prevBlockHash = MainHash.allZeros
  result : ∃ height work set js, mainHeights.Counts archive.mainBlockHashToHeight info height ∧
    mainWorks.Counts archive.totalWork info work ∧ archive.mainSuccessors.tryGet info.prevBlockHash = some set ∧
    Links.exponentialAncestors (mainLinks { archive with
      mainBlockHashToHeight := archive.mainBlockHashToHeight.put info.blockHash height
      mainHeaderInfos := archive.mainHeaderInfos.put info.blockHash info }) info.prevBlockHash height = .ok js ∧
    archive' = { archive with
      mainBlockHashToHeight := archive.mainBlockHashToHeight.put info.blockHash height
      mainHeaderInfos := archive.mainHeaderInfos.put info.blockHash info
      totalWork := archive.totalWork.put info.blockHash work
      mainSuccessors := enterFollower archive.mainSuccessors info.prevBlockHash set info.blockHash info.blockHash
      exponentialMainAncestors := archive.exponentialMainAncestors.put info.blockHash js }

theorem putMainHeaderSource {info : BlockHeaderInfo} (ok : archive.putMainHeaderInfo info = .ok archive') :
    PutMainHeaderSource archive info archive' := by
  simp only [putMainHeaderInfo,bindOk,ensureOk,pureOk] at ok
  obtain ⟨_,parent,height,isHeight,work,isWork,set,isSet,js,isJumps,rfl⟩ := ok
  refine ⟨parent,height,work,set,js,?_,?_,?_,isJumps,rfl⟩
  · unfold mainHeightFor at isHeight
    split at isHeight
    · next root =>
        cases isHeight
        exact .root (mainBlockNone.mpr root)
    · next inner =>
        simp only [bindOk,getMainHeight,okOrOk,pureOk] at isHeight
        obtain ⟨h,known,rfl⟩ := isHeight
        exact .child (mainBlockSome.mpr ⟨inner,rfl⟩) known
  · unfold totalWorkFor at isWork
    split at isWork
    · next root =>
        cases isWork
        exact .root (mainBlockNone.mpr root)
    · next inner =>
        simp only [bindOk,getTotalWork,okOrOk,pureOk] at isWork
        obtain ⟨w,known,rfl⟩ := isWork
        exact .child (mainBlockSome.mpr ⟨inner,rfl⟩) known
  · simpa only [getMainSuccessors,okOrOk] using isSet

theorem mainHeightOk {m : MainHash} {h : Nat} :
    archive.mainLinks.height m = .ok h ↔ archive.mainBlockHashToHeight.tryGet m = some h := okOrOk

theorem mainParentOk {m p : MainHash} : archive.mainLinks.parent m = .ok p ↔
    ∃ info, archive.mainHeaderInfos.tryGet m = some info ∧ info.prevBlockHash = p := by
  simp only [mainLinks,getMainHeaderInfo,bindOk,okOrOk,pureOk]

section Put

variable {info : BlockHeaderInfo}

theorem MainTree.again (tree : MainTree world archive) (names : world.NamesMain info) (old : BlockHeaderInfo)
    (stored : archive.mainHeaderInfos.tryGet info.blockHash = some old) : old = info := by
  obtain ⟨⟨named,_⟩,same⟩ := tree.named stored
  rw [named,names.1,same]

theorem MainTree.otherParent (tree : MainTree world archive) (names : world.NamesMain info)
    (parent : (archive.mainHeaderInfos.tryGet info.prevBlockHash).isSome = true ∨
      info.prevBlockHash = MainHash.allZeros) : info.prevBlockHash ≠ info.blockHash := by
  intro same
  rcases parent with stored | zero
  · obtain ⟨old,found⟩ := Option.isSome_iff_exists.mp stored
    rw [same] at found
    cases tree.again names old found
    obtain ⟨n,after,count⟩ := tree.heights.counted found
    cases count with
    | root zero => exact names.2 (same ▸ mainBlockNone.mp zero)
    | child isParent before =>
        rw [← (mainBlockSome.mp isParent).2,same,after] at before
        exact Nat.succ_ne_self _ (Option.some.inj before)
  · exact names.2 (same ▸ zero)

theorem MainTree.extends (tree : MainTree world archive)
    (heights : archive.mainBlockHashToHeight.Grows archive'.mainBlockHashToHeight)
    (infos : archive.mainHeaderInfos.Grows archive'.mainHeaderInfos) : archive.mainLinks.Extends archive'.mainLinks := by
  intro m h known
  obtain ⟨info,stored⟩ := tree.heights.only (mainHeightOk.mp known)
  refine ⟨mainHeightOk.mpr (heights _ _ (mainHeightOk.mp known)),?_⟩
  simp only [mainLinks,getMainHeaderInfo,stored,infos _ _ stored]

theorem MainTree.soundPut (tree : MainTree world archive) (names : world.NamesMain info)
    (source : PutMainHeaderSource archive info archive') : archive'.mainLinks.Sound := by
  obtain ⟨parent,height,work,set,js,isHeight,isWork,isSet,found,rfl⟩ := source
  have again := tree.again names
  have heights : archive.mainBlockHashToHeight.Grows (archive.mainBlockHashToHeight.put info.blockHash height) :=
    tree.heights.grows again isHeight
  have infos : archive.mainHeaderInfos.Grows (archive.mainHeaderInfos.put info.blockHash info) := Table.putGrows again
  have atBlock {jumps : Table MainHash (List MainHash)} : okOr ((jumps.put info.blockHash js).tryGet info.blockHash)
      ArchiveError.missingValue = .ok js := by rw [Table.tryGetPutSelf]; rfl
  have elsewhere (m : MainHash) (other : m ≠ info.blockHash) :
      okOr ((archive.mainBlockHashToHeight.put info.blockHash height).tryGet m) (ArchiveError.noMainHeight m) =
        archive.getMainHeight m ∧
      okOr ((archive.exponentialMainAncestors.put info.blockHash js).tryGet m) ArchiveError.missingValue =
        archive.mainLinks.jumps m := by
    rw [Table.tryGetPutOther other,Table.tryGetPutOther other]
    exact ⟨rfl,rfl⟩
  cases isHeight with
  | root zero =>
      refine tree.sound.extendRoot (b := info.blockHash) (tree.extends heights infos) elsewhere ?_ atBlock
      exact mainHeightOk.mpr Table.tryGetPutSelf
  | @child p h isParent known =>
      obtain ⟨_,rfl⟩ := mainBlockSome.mp isParent
      refine tree.sound.extendChild (b := info.blockHash) (p := info.prevBlockHash) (h := h) (tree.extends heights infos)
        ?_ ?_ elsewhere ?_ (mainHeightOk.mpr known) ?_ found atBlock
      · exact tree.extends heights infos
      · exact fun _ _ _ => rfl
      · exact mainParentOk.mpr ⟨info,Table.tryGetPutSelf,rfl⟩
      · exact mainHeightOk.mpr Table.tryGetPutSelf

theorem MainTree.put (tree : MainTree world archive) (names : world.NamesMain info)
    (source : PutMainHeaderSource archive info archive') : MainTree world archive' := by
  have sound := tree.soundPut names source
  obtain ⟨parent,height,work,set,js,isHeight,isWork,isSet,found,rfl⟩ := source
  have again := tree.again names
  refine ⟨sound,?_,tree.heights.put again isHeight,tree.works.put again isWork,?_,?_⟩
  · intro m stored isStored
    rw [Table.tryGetPut] at isStored
    split at isStored
    · next here =>
        cases isStored
        exact ⟨names,here.symm⟩
    · exact tree.named isStored
  · refine tree.follows.enter (tree.otherParent names parent) isSet ?_ ?_ ?_
    · intro m
      rw [Table.tryGetPut]
      split <;> rfl
    · cases old : archive.mainHeaderInfos.tryGet info.blockHash with
      | none => exact .inl rfl
      | some stored =>
          cases again stored old
          exact .inr rfl
    · intro missing m isParent
      obtain ⟨child,stored,isPrev⟩ := Option.map_eq_some_iff.mp isParent
      obtain ⟨n,_,count⟩ := tree.heights.counted stored
      cases count with
      | root zero => exact names.2 (isPrev ▸ mainBlockNone.mp zero)
      | child isParent known =>
          rw [← (mainBlockSome.mp isParent).2,isPrev] at known
          obtain ⟨old,isOld⟩ := tree.heights.only known
          have there := tree.followed (.inl (Option.isSome_iff_exists.mpr ⟨old,isOld⟩))
          rw [missing] at there
          cases there
  · intro m stored
    rw [enterFollower,Table.tryGetPut]
    split
    · rfl
    · next other =>
        rw [Table.tryGetPut]
        split
        · rfl
        · rw [Table.tryGetPutOther other] at stored
          exact tree.followed stored

end Put

end MainTree

section Parents

variable {m : MainHash}

theorem MainTree.parentAbove (tree : MainTree world archive) {info : BlockHeaderInfo} {k : Nat}
    (stored : archive.mainHeaderInfos.tryGet m = some info)
    (known : archive.mainLinks.height info.prevBlockHash = .ok k) :
    archive.mainLinks.height m = .ok (k + 1) ∧ archive.mainLinks.up 1 m = some info.prevBlockHash ∧
      archive.mainLinks.Descends info.prevBlockHash m ∧ info.prevBlockHash ≠ m := by
  obtain ⟨h,height,count⟩ := tree.heights.counted stored
  cases count with
  | root zero =>
      obtain ⟨parent,isStored⟩ := tree.heights.only (mainHeightOk.mp known)
      obtain ⟨⟨_,nonZero⟩,own⟩ := tree.named isStored
      exact absurd (own.trans (mainBlockNone.mp zero)) nonZero
  | child isParent known' =>
      obtain ⟨_,rfl⟩ := mainBlockSome.mp isParent
      cases (mainHeightOk.mp known).symm.trans known'
      have up : archive.mainLinks.up 1 m = some info.prevBlockHash := by
        rw [Links.up,mainParentOk.mpr ⟨info,stored,rfl⟩]
        rfl
      refine ⟨mainHeightOk.mpr height,up,⟨k + 1,1,mainHeightOk.mpr height,Nat.le_add_left 1 k,up⟩,fun same => ?_⟩
      have twice := mainHeightOk.mpr height
      rw [← same,known] at twice
      exact Nat.succ_ne_self k (Except.ok.inj twice).symm

end Parents

section SideTree

def sideHeights : Counting Header := ⟨fun header => header.prevSideHash,fun _ => 0,fun h _ => h + 1⟩

theorem sideCounts {counts : Table Hash Nat} {header : Header} {n : Nat} (count : sideHeights.Counts counts header n) :
    header.prevSideHash = none ∧ n = 0 ∨
      ∃ p h, header.prevSideHash = some p ∧ counts.tryGet p = some h ∧ n = h + 1 := by
  cases count with
  | root first => exact .inl ⟨first,rfl⟩
  | child isParent known => exact .inr ⟨_,_,isParent,known,rfl⟩

structure SideTree (lib : Externals F) (world : World) (archive : Archive F) : Prop where
  sound : archive.links.Sound
  named : ∀ {b header}, archive.headers.tryGet b = some header → header = world.header b ∧ header.hash lib = b
  heights : sideHeights.Kept archive.headers archive.blockHashToHeight
  follows : Follows archive.successors (fun b => (archive.headers.tryGet b).map (·.prevSideHash))
  followed : ∀ {k}, (∀ b, k = some b → (archive.headers.tryGet b).isSome = true) → (archive.successors.tryGet k).isSome = true
  bodies : ∀ {b}, (archive.bodies.tryGet b).isSome = true → (archive.headers.tryGet b).isSome = true

def enterHeader (archive : Archive F) (header : Header) (b : BlockHash) (height : Nat) (set : HashSet) : Archive F :=
  { archive with
    blockHashToHeight := archive.blockHashToHeight.put b height
    headers := archive.headers.put b header
    successors := enterFollower archive.successors header.prevSideHash set (some b) b }

def enterJumps (archive : Archive F) (b : BlockHash) (js : List BlockHash) : Archive F :=
  { archive with exponentialAncestors := archive.exponentialAncestors.put b js }

def resultsAfter (archive : Archive F) (header : Header) (b : BlockHash) (mainBlocks : List MainHash) :
    Except ArchiveError (Table MainHash BmmResult) :=
  mainBlocks.foldlM (fun results mainBlock => do
    let result ← archive.bmmResultAt header b (header.prevSideHash.map archive.getBmmResults) mainBlock
    pure (results.put mainBlock result)) (archive.getBmmResults b)

structure PutHeaderSource (lib : Externals F) (archive : Archive F) (header : Header) (archive' : Archive F) : Prop where
  result : ∃ height set js mainBlocks results, sideHeights.Counts archive.blockHashToHeight header height ∧
    archive.successors.tryGet header.prevSideHash = some set ∧
    (archive.enterHeader header (header.hash lib) height set).exponentialAncestorsFor header height = .ok js ∧
    archive.mainSuccessors.tryGet header.prevMainHash = some mainBlocks ∧
    resultsAfter ((archive.enterHeader header (header.hash lib) height set).enterJumps (header.hash lib) js) header
      (header.hash lib) mainBlocks.items = .ok results ∧
    archive' = { (archive.enterHeader header (header.hash lib) height set).enterJumps (header.hash lib) js with
      bmmResults := archive.bmmResults.put (header.hash lib) results }

theorem getSuccessorsOk {k : Option BlockHash} {set : HashSet} :
    archive.getSuccessors k = .ok set ↔ archive.successors.tryGet k = some set := by
  unfold getSuccessors
  split
  · next found => simp [found]
  · next missing => cases k <;> simp [missing]

theorem putHeaderSource {header : Header} (ok : archive.putHeader lib header = .ok archive') :
    PutHeaderSource lib archive header archive' := by
  simp only [putHeader,bindOk,pureOk] at ok
  obtain ⟨height,isHeight,set,isSet,js,found,mainBlocks,isMain,results,isResults,rfl⟩ := ok
  refine ⟨height,set,js,mainBlocks,results,?_,getSuccessorsOk.mp isSet,found,okOrOk.mp isMain,isResults,rfl⟩
  unfold heightFor at isHeight
  split at isHeight
  · next none =>
      cases isHeight
      exact .root none
  · next parent some =>
      simp only [bindOk,okOrOk,pureOk] at isHeight
      obtain ⟨h,known,rfl⟩ := isHeight
      exact .child some known

theorem heightOk {b : BlockHash} {h : Nat} :
    archive.links.height b = .ok h ↔ archive.blockHashToHeight.tryGet b = some h := okOrOk

theorem parentOk {b p : BlockHash} : archive.links.parent b = .ok p ↔
    ∃ header, archive.headers.tryGet b = some header ∧ header.prevSideHash = some p := by
  simp only [links,getHeader,bindOk,okOrOk]

section Put

variable {header : Header}

theorem SideTree.again (tree : SideTree lib world archive) (names : header = world.header (header.hash lib))
    (old : Header) (stored : archive.headers.tryGet (header.hash lib) = some old) : old = header := by
  exact (tree.named stored).1.trans names.symm

theorem SideTree.extends (tree : SideTree lib world archive)
    (heights : archive.blockHashToHeight.Grows archive'.blockHashToHeight)
    (headers : archive.headers.Grows archive'.headers) : archive.links.Extends archive'.links := by
  intro b h known
  obtain ⟨header,stored⟩ := tree.heights.only (heightOk.mp known)
  refine ⟨heightOk.mpr (heights _ _ (heightOk.mp known)),?_⟩
  simp only [links,getHeader,stored,headers _ _ stored]

theorem SideTree.soundPut (tree : SideTree lib world archive) (names : header = world.header (header.hash lib))
    (source : PutHeaderSource lib archive header archive') : archive'.links.Sound := by
  obtain ⟨height,set,js,mainBlocks,results,isHeight,isSet,found,isMain,isResults,rfl⟩ := source
  have again := tree.again names
  have heights : archive.blockHashToHeight.Grows (archive.blockHashToHeight.put (header.hash lib) height) :=
    tree.heights.grows again isHeight
  have headers : archive.headers.Grows (archive.headers.put (header.hash lib) header) := Table.putGrows again
  have atBlock {jumps : Table BlockHash (List BlockHash)} : okOr ((jumps.put (header.hash lib) js).tryGet (header.hash lib))
      ArchiveError.missingValue = .ok js := by rw [Table.tryGetPutSelf]; rfl
  have elsewhere (b : BlockHash) (other : b ≠ header.hash lib) :
      okOr ((archive.blockHashToHeight.put (header.hash lib) height).tryGet b) (ArchiveError.noHeight b) =
        archive.getHeight b ∧
      okOr ((archive.exponentialAncestors.put (header.hash lib) js).tryGet b) ArchiveError.missingValue =
        archive.links.jumps b := by
    rw [Table.tryGetPutOther other,Table.tryGetPutOther other]
    exact ⟨rfl,rfl⟩
  cases isHeight with
  | root zero =>
      refine tree.sound.extendRoot (b := header.hash lib) (tree.extends heights headers) elsewhere ?_ atBlock
      exact heightOk.mpr Table.tryGetPutSelf
  | @child p h isParent known =>
      have isParent : header.prevSideHash = some p := isParent
      rw [exponentialAncestorsFor,isParent] at found
      refine tree.sound.extendChild (b := header.hash lib) (p := p) (h := h) (tree.extends heights headers)
        ?_ ?_ elsewhere ?_ (heightOk.mpr known) ?_ found atBlock
      · exact tree.extends heights headers
      · exact fun _ _ _ => rfl
      · exact parentOk.mpr ⟨header,Table.tryGetPutSelf,isParent⟩
      · exact heightOk.mpr Table.tryGetPutSelf

theorem SideTree.otherParent (tree : SideTree lib world archive) (names : header = world.header (header.hash lib))
    {height : Nat} (isHeight : sideHeights.Counts archive.blockHashToHeight header height) :
    header.prevSideHash ≠ some (header.hash lib) := by
  intro same
  rcases sideCounts isHeight with ⟨first,_⟩ | ⟨p,h,isParent,known,_⟩
  · cases first.symm.trans same
  · cases isParent.symm.trans same
    obtain ⟨old,stored⟩ := tree.heights.only known
    obtain ⟨n,after,count⟩ := tree.heights.counted stored
    cases tree.again names old stored
    rcases sideCounts count with ⟨first,_⟩ | ⟨p,k,isParent,before,rfl⟩
    · cases first.symm.trans same
    · cases isParent.symm.trans same
      rw [after] at before
      exact Nat.succ_ne_self _ (Option.some.inj before)

theorem SideTree.put (tree : SideTree lib world archive) (names : header = world.header (header.hash lib))
    (source : PutHeaderSource lib archive header archive') : SideTree lib world archive' := by
  have sound := tree.soundPut names source
  obtain ⟨height,set,js,mainBlocks,results,isHeight,isSet,found,isMain,isResults,rfl⟩ := source
  have again := tree.again names
  have headers : archive.headers.Grows (archive.headers.put (header.hash lib) header) := Table.putGrows again
  refine ⟨sound,?_,tree.heights.put again isHeight,?_,?_,?_⟩
  · intro b stored isStored
    rw [enterJumps,enterHeader,Table.tryGetPut] at isStored
    split at isStored
    · next here =>
        cases isStored
        exact ⟨here ▸ names,here.symm⟩
    · exact tree.named isStored
  · refine tree.follows.enter (tree.otherParent names isHeight) isSet ?_ ?_ ?_
    · intro b
      rw [enterJumps,enterHeader,Table.tryGetPut]
      split <;> rfl
    · cases old : archive.headers.tryGet (header.hash lib) with
      | none => exact .inl rfl
      | some stored =>
          cases again stored old
          exact .inr rfl
    · intro missing b isParent
      obtain ⟨child,stored,isPrev⟩ := Option.map_eq_some_iff.mp isParent
      obtain ⟨n,_,count⟩ := tree.heights.counted stored
      rcases sideCounts count with ⟨first,_⟩ | ⟨p,h,isChild,known,_⟩
      · cases first.symm.trans isPrev
      · cases isChild.symm.trans isPrev
        obtain ⟨old,isOld⟩ := tree.heights.only known
        have there := @SideTree.followed _ _ _ _ tree (some (header.hash lib)) (by
          intro b same
          cases same
          exact Option.isSome_iff_exists.mpr ⟨old,isOld⟩)
        rw [missing] at there
        cases there
  · intro k stored
    rw [enterJumps,enterHeader,enterFollower,Table.tryGetPut]
    split
    · rfl
    · next other =>
        rw [Table.tryGetPut]
        split
        · rfl
        · refine tree.followed (fun b same => ?_)
          have there := stored b same
          have elsewhere : b ≠ header.hash lib := fun here => other (here ▸ same)
          rwa [enterJumps,enterHeader,Table.tryGetPutOther elsewhere] at there
  · intro b stored
    obtain ⟨old,isOld⟩ := Option.isSome_iff_exists.mp (tree.bodies stored)
    exact Option.isSome_iff_exists.mpr ⟨old,headers b old isOld⟩

end Put

end SideTree

end Archive

end Coinshift
