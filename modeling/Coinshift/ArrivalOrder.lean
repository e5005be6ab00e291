import Coinshift.ForkChoice
import Coinshift.Woods

/-! The results of blind merged mining do not depend on the order in which blocks arrive.
Each is what the recursive rule says of the stored blocks, whichever of the two puts computed it. -/
namespace Coinshift
open Checked Lineage

variable {F : Type} {lib : Externals F} {world : World} {ops ops' : List ArchiveOp}

namespace Archive

variable {archive archive' : Archive F} {b : BlockHash} {m n : MainHash}

section Rule

/- The rule: the main-chain block commits to the header and follows the block it names, and the parent is verified
at the main-chain block or above it. -/
def FollowsRule (archive : Archive F) : Prop :=
  ∀ b header m, archive.headers.tryGet b = some header → (archive.verifiedAt b m ↔
    (∃ blockInfo, archive.mainBlockInfos.tryGet m = some blockInfo ∧ blockInfo.bmmCommitment = some b) ∧
    (∃ info, archive.mainHeaderInfos.tryGet m = some info ∧ info.prevBlockHash = header.prevMainHash) ∧
    (∀ p, header.prevSideHash = some p → ∃ n, archive.verifiedAt p n ∧ archive.mainLinks.Descends n m))

theorem ResultsRight.rule (right : ResultsRight archive) : FollowsRule archive := by
  intro b header m stored
  constructor
  · intro verified
    obtain ⟨header',commits,parents⟩ := ((right b m).mp verified).commits
    cases stored.symm.trans commits.stored
    refine ⟨commits.commitment,commits.next,fun p isParent => ?_⟩
    obtain ⟨n,parent,above⟩ := parents p isParent
    exact ⟨n,(right p n).mpr parent,above⟩
  · rintro ⟨commitment,next,parents⟩
    have commits : CommitsTo archive m b header := ⟨stored,commitment,next⟩
    refine (right b m).mpr (commits.committed (fun p isParent => ?_))
    obtain ⟨n,parent,above⟩ := parents p isParent
    exact ⟨n,(right p n).mp parent,above⟩

end Rule

section SameBlocks

structure SameBlocks (archive archive' : Archive F) : Prop where
  headers : ∀ b, archive.headers.tryGet b = archive'.headers.tryGet b
  mainHeaders : ∀ m, archive.mainHeaderInfos.tryGet m = archive'.mainHeaderInfos.tryGet m
  mainInfos : ∀ m, archive.mainBlockInfos.tryGet m = archive'.mainBlockInfos.tryGet m

theorem SameBlocks.symm (same : archive.SameBlocks archive') : archive'.SameBlocks archive :=
  ⟨fun b => (same.headers b).symm,fun m => (same.mainHeaders m).symm,fun m => (same.mainInfos m).symm⟩

/- Heights are counted along the stored headers, so that the same headers have the same heights. -/
theorem SameBlocks.mainHeights (same : archive.SameBlocks archive') (tree : MainTree world archive)
    (tree' : MainTree world archive') : archive.mainBlockHashToHeight.Grows archive'.mainBlockHashToHeight := by
  intro m h
  induction h using Nat.strong_induction_on generalizing m with
  | _ h ih =>
      intro known
      obtain ⟨info,stored⟩ := tree.heights.only known
      obtain ⟨h',known',count'⟩ := tree'.heights.counted ((same.mainHeaders m).symm.trans stored)
      obtain ⟨k,isHeight,count⟩ := tree.heights.counted stored
      cases known.symm.trans isHeight
      cases count with
      | root first =>
          cases count' with
          | root => exact known'
          | child isParent => cases first.symm.trans isParent
      | @child p j isParent parentKnown =>
          have parentKnown' := ih j (Nat.lt_succ_self j) p parentKnown
          rw [known',count'.unique (.child isParent parentKnown')]

theorem SameBlocks.grown (same : archive.SameBlocks archive') (tree : MainTree world archive)
    (tree' : MainTree world archive') : Grown archive archive' :=
  ⟨fun b _ found => (same.headers b).symm.trans found,fun m _ found => (same.mainHeaders m).symm.trans found,
    same.mainHeights tree tree',fun m _ found => (same.mainInfos m).symm.trans found⟩

theorem SameBlocks.verified (same : archive.SameBlocks archive') (trees : Trees lib world archive)
    (trees' : Trees lib world archive') : archive.verifiedAt b m ↔ archive'.verifiedAt b m := by
  rw [trees.results b m,trees'.results b m]
  constructor
  · exact fun committed => committed.grow (same.grown trees.main trees'.main) trees.main
  · exact fun committed => committed.grow (same.symm.grown trees'.main trees.main) trees'.main

end SameBlocks

section Ready

def MainHeaderReady (archive : Archive F) (info : BlockHeaderInfo) : Prop :=
  (archive.mainHeaderInfos.tryGet info.prevBlockHash).isSome = true ∨ info.prevBlockHash = MainHash.allZeros

def MainInfoReady (archive : Archive F) (m : MainHash) : Prop :=
  ∃ info, archive.mainHeaderInfos.tryGet m = some info ∧ (info.prevBlockHash = MainHash.allZeros ∨
    (archive.mainBlockInfos.tryGet info.prevBlockHash).isSome = true)

structure HeaderReady (archive : Archive F) (header : Header) : Prop where
  parent : ∀ p, header.prevSideHash = some p → (archive.headers.tryGet p).isSome = true
  main : (archive.mainHeaderInfos.tryGet header.prevMainHash).isSome = true ∨ header.prevMainHash = MainHash.allZeros
  infos : ∀ m info, archive.mainHeaderInfos.tryGet m = some info → info.prevBlockHash = header.prevMainHash →
    (archive.mainBlockInfos.tryGet m).isSome = true

theorem MainTree.putHeaderTotal (tree : MainTree world archive) {info : BlockHeaderInfo} (names : world.NamesMain info)
    (ready : archive.MainHeaderReady info) : ∃ archive', archive.putMainHeaderInfo info = .ok archive' := by
  obtain ⟨set,isSet⟩ := Option.isSome_iff_exists.mp (tree.followed ready)
  simp only [putMainHeaderInfo,bindOk,ensureOk,pureOk,getMainSuccessors,okOrOk]
  rcases Decidable.em (info.prevBlockHash = MainHash.allZeros) with zero | inner
  · have height : archive.mainHeightFor info = .ok 0 := if_pos zero
    have work : archive.totalWorkFor info = .ok info.work := if_pos zero
    exact ⟨_,(),ready,0,height,info.work,work,set,isSet,[],rfl,rfl⟩
  · obtain ⟨parent,stored⟩ := Option.isSome_iff_exists.mp (ready.resolve_right inner)
    obtain ⟨h,heightKnown,_⟩ := tree.heights.counted stored
    obtain ⟨w,workKnown,_⟩ := tree.works.counted stored
    have height : archive.mainHeightFor info = .ok (h + 1) := by
      rw [mainHeightFor,if_neg inner,getMainHeight,heightKnown]
      rfl
    have work : archive.totalWorkFor info = .ok (w + info.work) := by
      rw [totalWorkFor,if_neg inner,getTotalWork,workKnown]
      rfl
    have again := tree.again names
    have count : mainHeights.Counts archive.mainBlockHashToHeight info (h + 1) :=
      .child (mainBlockSome.mpr ⟨inner,rfl⟩) heightKnown
    have extends_ : archive.mainLinks.Extends (mainLinks { archive with
        mainBlockHashToHeight := archive.mainBlockHashToHeight.put info.blockHash (h + 1)
        mainHeaderInfos := archive.mainHeaderInfos.put info.blockHash info }) :=
      tree.extends (tree.heights.grows again count) (Table.putGrows again)
    obtain ⟨js,found,_⟩ := tree.sound.exponential extends_ (fun _ _ _ => rfl) (mainHeightOk.mpr heightKnown)
    exact ⟨_,(),ready,h + 1,height,w + info.work,work,set,isSet,js,found,rfl⟩

theorem Trees.putMainInfoTotal (trees : Trees lib world archive) {blockInfo : BlockInfo}
    (ready : archive.MainInfoReady m) : ∃ archive', archive.putMainBlockInfo m blockInfo = .ok archive' := by
  obtain ⟨info,stored,closed⟩ := ready
  unfold putMainBlockInfo
  rw [getMainHeaderInfo,okOrOk.mpr stored,okBind,ensureOk (u := ()).mpr closed,okBind]
  dsimp only
  split
  · exact ⟨_,rfl⟩
  · split
    · exact ⟨_,rfl⟩
    · next header _ =>
        obtain ⟨result,isResult,_⟩ := resultRight trees.main trees.results header stored
        refine ⟨_,bindOk.mpr ⟨result,?_,rfl⟩⟩
        exact isResult

theorem Grove.putHeaderTotal (grove : Grove lib world archive) {header : Header}
    (names : header = world.header (header.hash lib)) (ready : archive.HeaderReady header) :
    ∃ archive', archive.putHeader lib header = .ok archive' := by
  have again := grove.sides.again names
  obtain ⟨set,isSet⟩ := Option.isSome_iff_exists.mp (grove.sides.followed ready.parent)
  obtain ⟨mainBlocks,isMain⟩ := Option.isSome_iff_exists.mp (grove.main.followed ready.main)
  have height : ∃ height js, archive.heightFor header = .ok height ∧
      (archive.enterHeader header (header.hash lib) height set).exponentialAncestorsFor header height = .ok js := by
    unfold heightFor exponentialAncestorsFor
    cases isParent : header.prevSideHash with
    | none => exact ⟨0,[],rfl,rfl⟩
    | some p =>
        obtain ⟨old,stored⟩ := Option.isSome_iff_exists.mp (ready.parent p isParent)
        obtain ⟨h,known,_⟩ := grove.sides.heights.counted stored
        have count : sideHeights.Counts archive.blockHashToHeight header (h + 1) := .child isParent known
        have extends_ : archive.links.Extends (archive.enterHeader header (header.hash lib) (h + 1) set).links :=
          grove.sides.extends (grove.sides.heights.grows again count) (Table.putGrows again)
        obtain ⟨js,found,_⟩ := grove.sides.sound.exponential extends_ (fun _ _ _ => rfl) (heightOk.mpr known)
        exact ⟨h + 1,js,bindOk.mpr ⟨h,okOrOk.mpr known,rfl⟩,found⟩
  obtain ⟨height,js,isHeight,found⟩ := height
  obtain ⟨results,isResults⟩ : ∃ results, resultsAfter ((archive.enterHeader header (header.hash lib) height set).enterJumps
      (header.hash lib) js) header (header.hash lib) mainBlocks.items = .ok results := by
    refine foldTotal (fun before m mem => ?_)
    obtain ⟨info,stored,next⟩ := (grove.main.next isMain).mp mem
    obtain ⟨result,isResult⟩ := grove.bmmResultTotal header (b := header.hash lib) (ready.infos m info stored next)
    exact ⟨before.put m result,bindOk.mpr ⟨result,isResult,rfl⟩⟩
  have ok : archive.putHeader lib header = .ok { (archive.enterHeader header (header.hash lib) height set).enterJumps
      (header.hash lib) js with bmmResults := archive.bmmResults.put (header.hash lib) results } := by
    simp only [Archive.putHeader,bindOk,pureOk]
    exact ⟨height,isHeight,set,getSuccessorsOk.mpr isSet,js,found,mainBlocks,okOrOk.mpr isMain,results,isResults,rfl⟩
  exact ⟨_,ok⟩

instance {info : BlockHeaderInfo} : Decidable (archive.MainHeaderReady info) :=
  inferInstanceAs (Decidable ((archive.mainHeaderInfos.tryGet info.prevBlockHash).isSome = true ∨
    info.prevBlockHash = MainHash.allZeros))

instance : Decidable (archive.MainInfoReady m) :=
  decidable_of_iff (∃ info ∈ archive.mainHeaderInfos.tryGet m, info.prevBlockHash = MainHash.allZeros ∨
    (archive.mainBlockInfos.tryGet info.prevBlockHash).isSome = true) Iff.rfl

instance {header : Header} : Decidable (archive.HeaderReady header) :=
  decidable_of_iff (header.prevSideHash.all (fun p => (archive.headers.tryGet p).isSome) = true ∧
    ((archive.mainHeaderInfos.tryGet header.prevMainHash).isSome = true ∨ header.prevMainHash = MainHash.allZeros) ∧
    ∀ entry ∈ archive.mainHeaderInfos.entries, entry.2.prevBlockHash = header.prevMainHash →
      (archive.mainBlockInfos.tryGet entry.1).isSome = true)
    ⟨fun ⟨parent,main,infos⟩ => ⟨(Option.all_eq_true _ _).mp parent,main,fun m info stored => infos (m,info) (Table.memEntries.mpr stored)⟩,
      fun ready => ⟨(Option.all_eq_true _ _).mpr ready.parent,ready.main,fun _ mem => ready.infos _ _ (Table.memEntries.mp mem)⟩⟩

end Ready

end Archive

section Arrivals

def ArchiveOp.header (lib : Externals F) : ArchiveOp → Option BlockHash
  | .putHeader header => some (header.hash lib)
  | _ => none

def ArchiveOp.mainHeader : ArchiveOp → Option MainHash
  | .putMainHeaderInfo info | .handleBlockEvent (.connectBlock info _) => some info.blockHash
  | _ => none

def ArchiveOp.mainInfo : ArchiveOp → Option MainHash
  | .putMainBlockInfo m _ => some m
  | .handleBlockEvent (.connectBlock info _) => some info.blockHash
  | _ => none

variable {archive archive' : Archive F} {op : ArchiveOp}

theorem storedPut {K V : Type} [DbKey K] [DecidableEq K] {t : Table K V} {k j : K} {v : V} :
    ((t.put k v).tryGet j).isSome = true ↔ (t.tryGet j).isSome = true ∨ some k = some j := by
  rw [Table.tryGetPut]
  split
  · next here => simp [here]
  · next other => simp [Ne.symm other]

theorem putMainHeaderStores {info : BlockHeaderInfo} (ok : archive.putMainHeaderInfo info = .ok archive') :
    archive'.headers = archive.headers ∧ archive'.mainBlockInfos = archive.mainBlockInfos ∧
      archive'.mainHeaderInfos = archive.mainHeaderInfos.put info.blockHash info := by
  obtain ⟨_,_,_,_,_,_,_,_,_,rfl⟩ := Archive.putMainHeaderSource ok
  exact ⟨rfl,rfl,rfl⟩

theorem putMainInfoStores {m : MainHash} {blockInfo : BlockInfo} (ok : archive.putMainBlockInfo m blockInfo = .ok archive') :
    archive'.headers = archive.headers ∧ archive'.mainBlockInfos = archive.mainBlockInfos.put m blockInfo ∧
      archive'.mainHeaderInfos = archive.mainHeaderInfos := by
  obtain ⟨_,_,_,⟨_,rfl⟩ | ⟨_,_,_,_,_,_,rfl⟩⟩ := Archive.putMainInfoSource ok
  · exact ⟨rfl,rfl,rfl⟩
  · exact ⟨rfl,rfl,rfl⟩

structure Arrives (lib : Externals F) (op : ArchiveOp) (archive archive' : Archive F) : Prop where
  headers : ∀ b, (archive'.headers.tryGet b).isSome = true ↔
    (archive.headers.tryGet b).isSome = true ∨ op.header lib = some b
  mainHeaders : ∀ m, (archive'.mainHeaderInfos.tryGet m).isSome = true ↔
    (archive.mainHeaderInfos.tryGet m).isSome = true ∨ op.mainHeader = some m
  mainInfos : ∀ m, (archive'.mainBlockInfos.tryGet m).isSome = true ↔
    (archive.mainBlockInfos.tryGet m).isSome = true ∨ op.mainInfo = some m

theorem applyArrives (ok : op.apply lib archive = .ok archive') : Arrives lib op archive archive' := by
  have nothing {P : Prop} {h : Hash} : P ↔ P ∨ none = some h := by simp
  cases op with
  | handleBlockEvent event =>
      cases event with
      | connectBlock info blockInfo =>
          obtain ⟨first,second,_,_,header,contents,_,_,rfl⟩ := Archive.connectEventSource ok
          obtain ⟨headers,infos,mainHeaders⟩ := putMainHeaderStores header
          obtain ⟨headers',infos',mainHeaders'⟩ := putMainInfoStores contents
          constructor
          · intro b
            rw [headers',headers]
            exact nothing
          · intro m
            rw [mainHeaders',mainHeaders]
            exact storedPut
          · intro m
            rw [infos',infos]
            exact storedPut
      | disconnectBlock m =>
          obtain ⟨_,_,_,_,_,_,_,_,rfl⟩ := Archive.disconnectEventSource ok
          exact ⟨fun _ => nothing,fun _ => nothing,fun _ => nothing⟩
  | putMainHeaderInfo info =>
      obtain ⟨headers,infos,mainHeaders⟩ := putMainHeaderStores ok
      constructor
      · intro b
        rw [headers]
        exact nothing
      · intro m
        rw [mainHeaders]
        exact storedPut
      · intro m
        rw [infos]
        exact nothing
  | putMainBlockInfo m blockInfo =>
      obtain ⟨headers,infos,mainHeaders⟩ := putMainInfoStores ok
      constructor
      · intro b
        rw [headers]
        exact nothing
      · intro m
        rw [mainHeaders]
        exact nothing
      · intro m
        rw [infos]
        exact storedPut
  | putHeader header =>
      obtain ⟨_,_,_,_,_,_,_,_,_,_,rfl⟩ := Archive.putHeaderSource ok
      exact ⟨fun _ => storedPut,fun _ => nothing,fun _ => nothing⟩
  | putBody b body =>
      obtain ⟨_,_,rfl⟩ := Archive.putBodyFrame ok
      exact ⟨fun _ => nothing,fun _ => nothing,fun _ => nothing⟩
  | deleteBody b =>
      obtain ⟨_,rfl⟩ := Archive.disconnectQueueFrame ok
      exact ⟨fun _ => nothing,fun _ => nothing,fun _ => nothing⟩

theorem namedAlike {K V : Type} [DbKey K] [DecidableEq K] {t u : Table K V} {name : K → V}
    (named : ∀ {k v}, t.tryGet k = some v → v = name k) (named' : ∀ {k v}, u.tryGet k = some v → v = name k)
    (stored : ∀ k, (t.tryGet k).isSome = true ↔ (u.tryGet k).isSome = true) (k : K) : t.tryGet k = u.tryGet k := by
  cases here : t.tryGet k with
  | none =>
      cases there : u.tryGet k with
      | none => rfl
      | some v =>
          have found := (stored k).mpr (by rw [there]; rfl)
          rw [here] at found
          cases found
  | some v =>
      obtain ⟨w,there⟩ := Option.isSome_iff_exists.mp ((stored k).mp (by rw [here]; rfl))
      rw [there,named here,named' there]

theorem runStores (ok : runArchive lib ops = .ok archive) :
    (∀ b, (archive.headers.tryGet b).isSome = true ↔ ∃ op ∈ ops, op.header lib = some b) ∧
    (∀ m, (archive.mainHeaderInfos.tryGet m).isSome = true ↔ ∃ op ∈ ops, op.mainHeader = some m) ∧
    (∀ m, (archive.mainBlockInfos.tryGet m).isSome = true ↔ ∃ op ∈ ops, op.mainInfo = some m) := by
  refine ⟨fun b => ?_,fun m => ?_,fun m => ?_⟩
  · rw [foldLearns (fun _ op _ applied => (@applyArrives _ _ _ _ op applied).headers b) ok]
    simp [Archive.new]
  · rw [foldLearns (fun _ op _ applied => (@applyArrives _ _ _ _ op applied).mainHeaders m) ok]
    simp [Archive.new]
  · rw [foldLearns (fun _ op _ applied => (@applyArrives _ _ _ _ op applied).mainInfos m) ok]
    simp [Archive.new]

theorem runsSame (names : ∀ op ∈ ops, op.Names lib world) (same : ∀ op, op ∈ ops ↔ op ∈ ops')
    (ok : runArchive lib ops = .ok archive) (ok' : runArchive lib ops' = .ok archive') : archive.SameBlocks archive' := by
  have trees := runTrees names ok
  have trees' := runTrees (fun op mem => names op ((same op).mpr mem)) ok'
  obtain ⟨headers,mainHeaders,mainInfos⟩ := runStores ok
  obtain ⟨headers',mainHeaders',mainInfos'⟩ := runStores ok'
  simp only [same] at headers mainHeaders mainInfos
  have mainNamed {archive : Archive F} (tree : archive.MainTree world) {m : MainHash} {info : BlockHeaderInfo}
      (stored : archive.mainHeaderInfos.tryGet m = some info) : info = world.mainHeader m := by
    obtain ⟨⟨named,_⟩,isHash⟩ := tree.named stored
    rw [named,isHash]
  refine ⟨?_,?_,?_⟩
  · exact namedAlike (fun stored => (trees.sides.named stored).1) (fun stored => (trees'.sides.named stored).1)
      (fun b => (headers b).trans (headers' b).symm)
  · exact namedAlike (mainNamed trees.main) (mainNamed trees'.main)
      (fun m => (mainHeaders m).trans (mainHeaders' m).symm)
  · exact namedAlike trees.infos.named trees'.infos.named (fun m => (mainInfos m).trans (mainInfos' m).symm)

end Arrivals

/- Calls that come in an order in which each finds what it asks for. -/
def ArchiveOp.Ready (archive : Archive F) : ArchiveOp → Prop
  | .putMainHeaderInfo info => archive.MainHeaderReady info
  | .putMainBlockInfo m _ => archive.MainInfoReady m
  | .putHeader header => archive.HeaderReady header
  | _ => False

def InOrder (lib : Externals F) : List ArchiveOp → Archive F → Prop
  | [], _ => True
  | op :: ops, archive => op.Ready archive ∧ ∀ archive', op.apply lib archive = .ok archive' → InOrder lib ops archive'

instance {archive : Archive F} : (op : ArchiveOp) → Decidable (op.Ready archive)
  | .putMainHeaderInfo info => inferInstanceAs (Decidable (archive.MainHeaderReady info))
  | .putMainBlockInfo m _ => inferInstanceAs (Decidable (archive.MainInfoReady m))
  | .putHeader header => inferInstanceAs (Decidable (archive.HeaderReady header))
  | .handleBlockEvent _ | .putBody _ _ | .deleteBody _ => isFalse id

def inOrderCheck (lib : Externals F) : List ArchiveOp → Archive F → Bool
  | [], _ => true
  | op :: ops, archive => decide (op.Ready archive) &&
      match op.apply lib archive with
      | .ok next => inOrderCheck lib ops next
      | .error _ => true

theorem inOrderCheckSound {archive : Archive F} (checked : inOrderCheck lib ops archive = true) :
    InOrder lib ops archive := by
  induction ops generalizing archive with
  | nil => trivial
  | cons op ops ih =>
      obtain ⟨ready,rest⟩ := (Bool.and_eq_true _ _).mp checked
      refine ⟨of_decide_eq_true ready,fun next applied => ih ?_⟩
      rw [applied] at rest
      exact rest

theorem readyApplies {op : ArchiveOp} {archive : Archive F} (trees : archive.Trees lib world) (names : op.Names lib world)
    (ready : op.Ready archive) : ∃ archive', op.apply lib archive = .ok archive' := by
  cases op with
  | putMainHeaderInfo info => exact trees.main.putHeaderTotal names ready
  | putMainBlockInfo m blockInfo => exact trees.putMainInfoTotal ready
  | putHeader header => exact trees.grove.putHeaderTotal names ready
  | _ => exact ready.elim

theorem inOrderRuns (names : ∀ op ∈ ops, op.Names lib world) {archive : Archive F} (trees : archive.Trees lib world)
    (orderly : InOrder lib ops archive) : ∃ archive', ops.foldlM (ArchiveOp.apply lib) archive = .ok archive' := by
  induction ops generalizing archive with
  | nil => exact ⟨archive,rfl⟩
  | cons op ops ih =>
      obtain ⟨ready,rest⟩ := orderly
      obtain ⟨first,later⟩ := List.forall_mem_cons.mp names
      obtain ⟨next,applied⟩ := readyApplies trees first ready
      obtain ⟨last,ok⟩ := ih later (trees.step first applied) (rest next applied)
      exact ⟨last,foldConsOk.mpr ⟨next,applied,ok⟩⟩

theorem resultsFollowRule (names : ∀ op ∈ ops, op.Names lib world) (orderly : InOrder lib ops (Archive.new F)) :
    ∃ archive, runArchive lib ops = .ok archive ∧ archive.FollowsRule ∧
      ∀ ops', (∀ op, op ∈ ops' ↔ op ∈ ops) → InOrder lib ops' (Archive.new F) →
        ∃ archive', runArchive lib ops' = .ok archive' ∧ ∀ b m, archive'.verifiedAt b m ↔ archive.verifiedAt b m := by
  obtain ⟨archive,ok⟩ := inOrderRuns names .new orderly
  refine ⟨archive,ok,(runTrees names ok).results.rule,fun ops' same orderly' => ?_⟩
  have names' : ∀ op ∈ ops', op.Names lib world := fun op mem => names op ((same op).mp mem)
  obtain ⟨archive',ok'⟩ := inOrderRuns names' .new orderly'
  refine ⟨archive',ok',fun b m => ?_⟩
  exact (runsSame names' same ok' ok).verified (runTrees names' ok') (runTrees names ok)

section Example

open Reference Archive

def headerLast : List ArchiveOp :=
  [.putMainHeaderInfo ⟨1,0,0,1⟩,.putMainBlockInfo 1 (forkInfo none),.putMainHeaderInfo ⟨2,1,1,1⟩,
    .putMainBlockInfo 2 (forkInfo (some forkGenesis)),.putHeader forkGenesis]

def headerFirst : List ArchiveOp :=
  [.putMainHeaderInfo ⟨1,0,0,1⟩,.putMainBlockInfo 1 (forkInfo none),.putHeader forkGenesis,
    .putMainHeaderInfo ⟨2,1,1,1⟩,.putMainBlockInfo 2 (forkInfo (some forkGenesis))]

theorem headerEitherWay : ∃ last first, runArchive externals headerLast = .ok last ∧
    runArchive externals headerFirst = .ok first ∧ last.FollowsRule ∧
    last.verifiedAt (forkGenesis.hash externals) 2 ∧ first.verifiedAt (forkGenesis.hash externals) 2 := by
  have same (op : ArchiveOp) : op ∈ headerFirst ↔ op ∈ headerLast := by
    have swap {a b c d e : ArchiveOp} : op ∈ [a,b,e,c,d] ↔ op ∈ [a,b,c,d,e] := by
      simp only [List.mem_cons,List.not_mem_nil,or_false]
      tauto
    exact swap
  have names : ∀ op ∈ headerLast, op.Names externals forkWorld := by decide +kernel
  have orderly : inOrderCheck externals headerLast (Archive.new Forest) = true := by decide +kernel
  have orderly' : inOrderCheck externals headerFirst (Archive.new Forest) = true := by decide +kernel
  have checked : runsTo externals headerLast (fun archive =>
      (archive.getBmmResults (forkGenesis.hash externals)).tryGet 2 = some .verified) = true := by decide +kernel
  obtain ⟨last,ran,rule,others⟩ := resultsFollowRule names (inOrderCheckSound orderly)
  obtain ⟨first,ran',agree⟩ := others headerFirst same (inOrderCheckSound orderly')
  obtain ⟨last',again,verified⟩ := runsToRun checked
  cases ran.symm.trans again
  have atTwo : last.verifiedAt (forkGenesis.hash externals) 2 := by
    rw [decide_eq_true_eq] at verified
    exact verified
  exact ⟨last,first,ran,ran',rule,atTwo,(agree _ _).mpr atTwo⟩

end Example

end Coinshift
