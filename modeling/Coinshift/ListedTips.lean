import Coinshift.ArchiveRuns
import Coinshift.Worklist

/-! What the two tables of side tips hold.
A block is listed when it and all its ancestors have their bodies and their commitments on the current main chain.
The tables are kept step by step: a listed block is supported by what it follows, and a block that is supported and
committed to is listed or still in the queue. -/
namespace Coinshift
open Checked Lineage

variable {F : Type} {lib : Externals F} {world : World} {ops : List ArchiveOp}

namespace Archive

variable {archive archive' : Archive F} {b c p : BlockHash} {m n : MainHash} {info : SidechainTipInfo}

section Specification

def mainTip (archive : Archive F) : MainHash := archive.sideTips.mainchainTip.blockHash

structure Included (archive : Archive F) (b : BlockHash) (m : MainHash) : Prop where
  verified : archive.verifiedAt b m
  onChain : archive.mainLinks.Descends m archive.mainTip

inductive Listable (archive : Archive F) : BlockHash → Prop
  | genesis {b header m} (stored : archive.headers.tryGet b = some header) (first : header.prevSideHash = none)
      (body : (archive.bodies.tryGet b).isSome = true) (included : Included archive b m) : Listable archive b
  | child {b header m p} (stored : archive.headers.tryGet b = some header) (isParent : header.prevSideHash = some p)
      (body : (archive.bodies.tryGet b).isSome = true) (included : Included archive b m) (parent : Listable archive p) :
      Listable archive b

def wordHeight (h : Nat) : UInt32 := UInt32.ofNat (min h 0xffffffff)

def Entered (archive : Archive F) (b : BlockHash) (info : SidechainTipInfo) : Prop :=
  ∃ m h w, Included archive b m ∧ archive.blockHashToHeight.tryGet b = some h ∧ archive.totalWork.tryGet m = some w ∧
    info = ⟨wordHeight h,BitVec.ofNat 256 w,m⟩

structure SideTipsRight (archive : Archive F) : Prop where
  listed : ∀ b info, archive.sideTips.sidechainTips.tryGet b = some info ↔ Listable archive b ∧ Entered archive b info
  inverse : ∀ b info, archive.sideTips.orderedSidechainTips.tryGet info = some b ↔
    archive.sideTips.sidechainTips.tryGet b = some info

end Specification

section Invariant

def isListed (archive : Archive F) (b : BlockHash) : Prop := (archive.sideTips.sidechainTips.tryGet b).isSome = true

def ParentListed (archive : Archive F) (header : Header) : Prop :=
  ∀ p, header.prevSideHash = some p → archive.isListed p

structure Supported (archive : Archive F) (b : BlockHash) (header : Header) : Prop where
  stored : archive.headers.tryGet b = some header
  body : (archive.bodies.tryGet b).isSome = true
  parent : ParentListed archive header

/- The tables, with the listed blocks that are `leaving` and the blocks that are `awaited`. -/
structure TipsKept (archive : Archive F) (leaving awaited : BlockHash → Prop) : Prop where
  entered : ∀ {b info}, archive.sideTips.sidechainTips.tryGet b = some info → Entered archive b info
  supported : ∀ {b}, archive.isListed b → (∃ header, Supported archive b header) ∨ leaving b
  closed : ∀ {b header m}, Supported archive b header → Included archive b m → archive.isListed b ∨ awaited b
  inverse : ∀ b info, archive.sideTips.orderedSidechainTips.tryGet info = some b ↔
    archive.sideTips.sidechainTips.tryGet b = some info

abbrev Nobody : BlockHash → Prop := fun _ => False

structure TipKnown (archive : Archive F) : Prop where
  start : archive.sideTips.mainchainTip.tipInfo = none → archive.sideTips.mainchainTip.cumulativeWork = 0
  known : ∀ {info}, archive.sideTips.mainchainTip.tipInfo = some info →
    archive.mainHeaderInfos.tryGet info.blockHash = some info ∧
    (archive.mainBlockInfos.tryGet info.blockHash).isSome = true ∧
    archive.totalWork.tryGet info.blockHash = some archive.sideTips.mainchainTip.cumulativeWork

theorem isListedSome : archive.isListed b ↔ ∃ info, archive.sideTips.sidechainTips.tryGet b = some info :=
  Option.isSome_iff_exists

theorem Trees.includedOnce (trees : Trees lib world archive) (first : Included archive b m) (second : Included archive b n) :
    m = n := by
  obtain ⟨header,commits⟩ := ((trees.results b m).mp first.verified).commits
  obtain ⟨header',commits'⟩ := ((trees.results b n).mp second.verified).commits
  obtain ⟨info,stored,next⟩ := commits.1.next
  obtain ⟨info',stored',next'⟩ := commits'.1.next
  cases commits.1.stored.symm.trans commits'.1.stored
  obtain ⟨h,height,count⟩ := trees.main.heights.counted stored
  obtain ⟨h',height',count'⟩ := trees.main.heights.counted stored'
  have sameParent : info.prevBlockHash = info'.prevBlockHash := next.trans next'.symm
  have same : h = h' := by
    cases count with
    | root root =>
        cases count' with
        | root => rfl
        | child isParent =>
            simp only [mainHeights] at root isParent
            rw [sameParent,isParent] at root
            cases root
    | child isParent known =>
        cases count' with
        | root root =>
            simp only [mainHeights] at root isParent
            rw [sameParent,root] at isParent
            cases isParent
        | child isParent' known' =>
            simp only [mainHeights] at isParent isParent'
            rw [sameParent,isParent'] at isParent
            cases isParent
            cases known.symm.trans known'
            rfl
  subst same
  have one := trees.main.sound.descentLine first.onChain second.onChain (mainHeightOk.mpr height) (mainHeightOk.mpr height')
    (Nat.le_refl h)
  have other := trees.main.sound.descentLine second.onChain first.onChain (mainHeightOk.mpr height')
    (mainHeightOk.mpr height) (Nat.le_refl h)
  exact trees.main.sound.descentAntisymm one other

theorem Trees.enteredOnce (trees : Trees lib world archive) {info' : SidechainTipInfo} (first : Entered archive b info)
    (second : Entered archive b info') : info = info' := by
  obtain ⟨m,h,w,included,height,work,rfl⟩ := first
  obtain ⟨m',h',w',included',height',work',rfl⟩ := second
  cases trees.includedOnce included included'
  cases height.symm.trans height'
  cases work.symm.trans work'
  rfl

theorem TipsKept.listedListable (kept : TipsKept archive Nobody Nobody) (trees : Trees lib world archive) {h : Nat}
    (listed : archive.isListed b) (height : archive.blockHashToHeight.tryGet b = some h) : Listable archive b := by
  induction h generalizing b with
  | zero =>
      obtain ⟨info,found⟩ := isListedSome.mp listed
      obtain ⟨m,_,_,included,_⟩ := kept.entered found
      obtain ⟨header,supported⟩ := (kept.supported listed).resolve_right id
      obtain ⟨h,height',count⟩ := trees.sides.heights.counted supported.stored
      cases height.symm.trans height'
      rcases sideCounts count with ⟨first,_⟩ | ⟨p,k,_,_,positive⟩
      · exact .genesis supported.stored first supported.body included
      · cases positive
  | succ h ih =>
      obtain ⟨info,found⟩ := isListedSome.mp listed
      obtain ⟨m,_,_,included,_⟩ := kept.entered found
      obtain ⟨header,supported⟩ := (kept.supported listed).resolve_right id
      obtain ⟨h',height',count⟩ := trees.sides.heights.counted supported.stored
      cases height.symm.trans height'
      rcases sideCounts count with ⟨_,zero⟩ | ⟨p,k,isParent,known,same⟩
      · cases zero
      · cases same
        exact .child supported.stored isParent supported.body included (ih (supported.parent p isParent) known)

theorem TipsKept.listable (kept : TipsKept archive Nobody Nobody) (trees : Trees lib world archive) :
    archive.isListed b ↔ Listable archive b := by
  constructor
  · intro listed
    obtain ⟨info,found⟩ := isListedSome.mp listed
    obtain ⟨_,h,_,_,height,_⟩ := kept.entered found
    exact kept.listedListable trees listed height
  · intro listable
    induction listable with
    | genesis stored first body included =>
        refine (kept.closed ⟨stored,body,fun p isParent => ?_⟩ included).resolve_right id
        cases first.symm.trans isParent
    | child stored isParent body included parent ih =>
        refine (kept.closed ⟨stored,body,fun p isParent' => ?_⟩ included).resolve_right id
        cases isParent.symm.trans isParent'
        exact ih

theorem TipsKept.right (kept : TipsKept archive Nobody Nobody) (trees : Trees lib world archive) :
    SideTipsRight archive := by
  refine ⟨fun b info => ⟨fun found => ⟨?_,kept.entered found⟩,fun ⟨listable,entered⟩ => ?_⟩,kept.inverse⟩
  · exact (kept.listable trees).mp (isListedSome.mpr ⟨info,found⟩)
  · obtain ⟨info',found⟩ := isListedSome.mp ((kept.listable trees).mpr listable)
    rw [trees.enteredOnce entered (kept.entered found)]
    exact found

end Invariant

section Growing

structure Added (archive archive' : Archive F) : Prop where
  grown : Grown archive archive'
  heights : archive.blockHashToHeight.Grows archive'.blockHashToHeight
  works : archive.totalWork.Grows archive'.totalWork
  bodies : archive'.bodies = archive.bodies
  sideTips : archive'.sideTips = archive.sideTips

theorem TipKnown.contents (tip : TipKnown archive) (nonZero : archive.mainTip ≠ MainHash.allZeros) :
    ∃ info, archive.mainHeaderInfos.tryGet archive.mainTip = some info ∧
      (archive.mainBlockInfos.tryGet archive.mainTip).isSome = true := by
  cases isTip : archive.sideTips.mainchainTip.tipInfo with
  | none => simp [mainTip,MainchainTip.blockHash,isTip] at nonZero
  | some info =>
      obtain ⟨stored,contents,_⟩ := tip.known isTip
      have here : archive.mainTip = info.blockHash := by simp [mainTip,MainchainTip.blockHash,isTip]
      rw [here]
      exact ⟨info,stored,contents⟩

theorem MainTree.belowNonZero (tree : MainTree world archive) (above : archive.mainLinks.Descends m n) :
    n ≠ MainHash.allZeros := by
  obtain ⟨h,_,height,_⟩ := above
  obtain ⟨info,stored⟩ := tree.heights.only (mainHeightOk.mp height)
  rw [← (tree.named stored).2]
  exact (tree.named stored).1.2

theorem Added.mainTip (added : Added archive archive') : archive'.mainTip = archive.mainTip := by
  rw [Archive.mainTip,added.sideTips,Archive.mainTip]

theorem Added.isListed (added : Added archive archive') : archive'.isListed b ↔ archive.isListed b := by
  rw [Archive.isListed,added.sideTips,Archive.isListed]

theorem Added.included (added : Added archive archive') (tip : TipKnown archive) (trees : Trees lib world archive)
    (trees' : Trees lib world archive') (included : Included archive b m) : Included archive' b m := by
  obtain ⟨info,stored,_⟩ := tip.contents (trees.main.belowNonZero included.onChain)
  refine ⟨(trees'.results b m).mpr (((trees.results b m).mp included.verified).grow added.grown trees.main),?_⟩
  rw [added.mainTip]
  exact (added.grown.descends trees.main stored).mpr included.onChain

theorem Added.includedStored (added : Added archive archive') (tip : TipKnown archive) (trees : Trees lib world archive)
    (trees' : Trees lib world archive') (header : (archive.headers.tryGet b).isSome = true)
    (included : Included archive' b m) : Included archive b m := by
  have onChain := included.onChain
  rw [added.mainTip] at onChain
  obtain ⟨info,stored,contents⟩ := tip.contents (trees'.main.belowNonZero onChain)
  have before := (added.grown.descends trees.main stored).mp onChain
  refine ⟨(trees.results b m).mpr ?_,before⟩
  exact ((trees'.results b m).mp included.verified).back added.grown trees.main trees.sides trees.infos header
    (trees.infos.above trees.main contents before)

theorem Added.supported (added : Added archive archive') {header : Header} (supported : Supported archive b header) :
    Supported archive' b header := by
  refine ⟨added.grown.headers _ _ supported.stored,?_,fun p isParent => added.isListed.mpr (supported.parent p isParent)⟩
  rw [added.bodies]
  exact supported.body

theorem Added.supportedBefore (added : Added archive archive') (trees : Trees lib world archive) {header : Header}
    (supported : Supported archive' b header) : Supported archive b header := by
  have body := supported.body
  rw [added.bodies] at body
  obtain ⟨old,stored⟩ := Option.isSome_iff_exists.mp (trees.sides.bodies body)
  cases (added.grown.headers _ _ stored).symm.trans supported.stored
  exact ⟨stored,body,fun p isParent => added.isListed.mp (supported.parent p isParent)⟩

theorem TipsKept.added (kept : TipsKept archive Nobody Nobody) (added : Added archive archive') (tip : TipKnown archive)
    (trees : Trees lib world archive) (trees' : Trees lib world archive') : TipsKept archive' Nobody Nobody := by
  constructor
  · intro b info found
    rw [added.sideTips] at found
    obtain ⟨m,h,w,included,height,work,rfl⟩ := kept.entered found
    exact ⟨m,h,w,added.included tip trees trees' included,added.heights _ _ height,added.works _ _ work,rfl⟩
  · intro b listed
    obtain ⟨header,supported⟩ := (kept.supported (added.isListed.mp listed)).resolve_right id
    exact .inl ⟨header,added.supported supported⟩
  · intro b header m supported included
    have before := added.supportedBefore trees supported
    have listed := kept.closed before (added.includedStored tip trees trees' (trees.sides.bodies before.body) included)
    exact .inl (added.isListed.mpr (listed.resolve_right id))
  · intro b info
    rw [added.sideTips]
    exact kept.inverse b info

theorem TipKnown.added (tip : TipKnown archive) (added : Added archive archive') : TipKnown archive' := by
  constructor
  · intro none
    rw [added.sideTips] at none ⊢
    exact tip.start none
  · intro info isTip
    rw [added.sideTips] at isTip ⊢
    obtain ⟨stored,contents,work⟩ := tip.known isTip
    obtain ⟨blockInfo,known⟩ := Option.isSome_iff_exists.mp contents
    refine ⟨added.grown.mainHeaders _ _ stored,?_,added.works _ _ work⟩
    rw [added.grown.mainInfos _ _ known]
    rfl

theorem Trees.addsMainHeader (trees : Trees lib world archive) {info : BlockHeaderInfo} (names : world.NamesMain info)
    (ok : archive.putMainHeaderInfo info = .ok archive') : Added archive archive' := by
  obtain ⟨_,height,work,set,js,isHeight,isWork,_,_,rfl⟩ := putMainHeaderSource ok
  have again := trees.main.again names
  exact ⟨⟨fun _ _ found => found,Table.putGrows again,trees.main.heights.grows again isHeight,fun _ _ found => found⟩,
    fun _ _ found => found,trees.main.works.grows again isWork,rfl,rfl⟩

theorem Trees.addsMainInfo (trees : Trees lib world archive) {blockInfo : BlockInfo} (names : blockInfo = world.mainInfo m)
    (ok : archive.putMainBlockInfo m blockInfo = .ok archive') : Added archive archive' := by
  have source := putMainInfoSource ok
  have grown := source.grown trees.infos names
  obtain ⟨info,_,_,⟨_,rfl⟩ | ⟨b,header,result,_,_,_,rfl⟩⟩ := source
  · exact ⟨grown,fun _ _ found => found,fun _ _ found => found,rfl,rfl⟩
  · exact ⟨grown,fun _ _ found => found,fun _ _ found => found,rfl,rfl⟩

theorem Trees.addsHeader (trees : Trees lib world archive) {header : Header}
    (names : header = world.header (header.hash lib)) (ok : archive.putHeader lib header = .ok archive') :
    Added archive archive' := by
  have source := putHeaderSource ok
  have grown := source.grown trees.sides names
  obtain ⟨height,set,js,mainBlocks,results,isHeight,_,_,_,_,rfl⟩ := source
  exact ⟨grown,trees.sides.heights.grows (trees.sides.again names) isHeight,fun _ _ found => found,rfl,rfl⟩

end Growing

section Listing

variable {header : Header} {leaving awaited awaited' : BlockHash → Prop}

def enterTip (archive : Archive F) (b : BlockHash) (info : SidechainTipInfo) : Archive F :=
  { archive with sideTips := { archive.sideTips with
    sidechainTips := archive.sideTips.sidechainTips.put b info
    orderedSidechainTips := archive.sideTips.orderedSidechainTips.put info b } }

theorem enterTipListed : (archive.enterTip b info).isListed c ↔ c = b ∨ archive.isListed c := by
  simp only [isListed,enterTip,Table.tryGetPut]
  split
  · next here => simp [here]
  · next other => simp [other]

theorem Included.tips {bodies : Table BlockHash Body} {tips : SideTips} (included : Included archive b m)
    (same : tips.mainchainTip = archive.sideTips.mainchainTip) :
    Included { archive with bodies := bodies, sideTips := tips } b m := by
  refine ⟨included.verified,?_⟩
  change archive.mainLinks.Descends m tips.mainchainTip.blockHash
  rw [same]
  exact included.onChain

theorem Entered.tips {bodies : Table BlockHash Body} {tips : SideTips} (entered : Entered archive b info)
    (same : tips.mainchainTip = archive.sideTips.mainchainTip) :
    Entered { archive with bodies := bodies, sideTips := tips } b info := by
  obtain ⟨m,h,w,included,rest⟩ := entered
  exact ⟨m,h,w,included.tips same,rest⟩

theorem Trees.sameCommitment (trees : Trees lib world archive) (first : archive.verifiedAt b m)
    (second : archive.verifiedAt c m) : b = c := by
  obtain ⟨_,commits,_⟩ := ((trees.results b m).mp first).commits
  obtain ⟨_,commits',_⟩ := ((trees.results c m).mp second).commits
  obtain ⟨blockInfo,known,commitment⟩ := commits.commitment
  obtain ⟨blockInfo',known',commitment'⟩ := commits'.commitment
  cases known.symm.trans known'
  exact Option.some.inj (commitment.symm.trans commitment')

theorem Trees.enteredApart (trees : Trees lib world archive) (first : Entered archive b info)
    (second : Entered archive c info) : b = c := by
  obtain ⟨m,h,w,included,_,_,rfl⟩ := first
  obtain ⟨m',h',w',included',_,_,same⟩ := second
  obtain rfl : m = m' := congrArg SidechainTipInfo.mainBlockHash same
  exact trees.sameCommitment included.verified included'.verified

theorem TipsKept.enter (kept : TipsKept archive leaving awaited) (trees : Trees lib world archive)
    (new : ¬ archive.isListed b) (supported : Supported archive b header) (entered : Entered archive b info)
    (others : ∀ c, c ≠ b → awaited c → awaited' c)
    (children : ∀ c header' n, archive.headers.tryGet c = some header' → header'.prevSideHash = some b →
      (archive.bodies.tryGet c).isSome = true → Included archive c n → awaited' c) :
    TipsKept (archive.enterTip b info) leaving awaited' := by
  have grow {c : BlockHash} {header' : Header} (before : Supported archive c header') :
      Supported (archive.enterTip b info) c header' :=
    ⟨before.stored,before.body,fun p isParent => enterTipListed.mpr (.inr (before.parent p isParent))⟩
  constructor
  · intro c info' found
    change (archive.sideTips.sidechainTips.put b info).tryGet c = some info' at found
    rw [Table.tryGetPut] at found
    split at found
    · next here =>
        cases found
        rw [here]
        exact entered.tips rfl
    · exact (kept.entered found).tips rfl
  · intro c listed
    rcases enterTipListed.mp listed with rfl | before
    · exact .inl ⟨header,grow supported⟩
    · exact (kept.supported before).imp (fun ⟨header',isSupported⟩ => ⟨header',grow isSupported⟩) id
  · intro c header' n isSupported isIncluded
    have included : Included archive c n := isIncluded.tips rfl
    by_cases here : c = b
    · exact .inl (enterTipListed.mpr (.inl here))
    by_cases child : header'.prevSideHash = some b
    · exact .inr (children c header' n isSupported.stored child isSupported.body included)
    · have before : Supported archive c header' := by
        refine ⟨isSupported.stored,isSupported.body,fun p isParent => ?_⟩
        refine (enterTipListed.mp (isSupported.parent p isParent)).resolve_left (fun same => ?_)
        rw [same] at isParent
        exact child isParent
      exact (kept.closed before included).imp (fun listed => enterTipListed.mpr (.inr listed)) (others c here)
  · intro c info'
    change (archive.sideTips.orderedSidechainTips.put info b).tryGet info' = some c ↔
      (archive.sideTips.sidechainTips.put b info).tryGet c = some info'
    rw [Table.tryGetPut,Table.tryGetPut]
    by_cases here : c = b
    · rw [if_pos here]
      split
      · next same => simp [here,same]
      · next other =>
          rw [here,kept.inverse b info']
          constructor
          · intro found
            exact absurd (isListedSome.mpr ⟨info',found⟩) new
          · intro same
            exact absurd (Option.some.inj same).symm other
    · rw [if_neg here]
      split
      · next same =>
          rw [same]
          constructor
          · intro isB
            exact absurd (Option.some.inj isB).symm here
          · intro found
            exact absurd (trees.enteredApart (kept.entered found) entered) here
      · exact kept.inverse c info'

theorem connectTipSource {tips tips' : SideTips} {prevSideHash : Option BlockHash} {w : Nat}
    (ok : tips.connectSidechainTip m w b prevSideHash = .ok tips') :
    ∃ height, (prevSideHash = none ∧ height = 0 ∨ ∃ p info, prevSideHash = some p ∧
        tips.sidechainTips.tryGet p = some info ∧ height = SideTips.saturatingSucc info.sidechainHeight) ∧
      ((tips.sidechainTips.tryGet b).isSome = true ∧ tips' = tips ∨ (tips.sidechainTips.tryGet b).isSome = false ∧
        tips' = { tips with
          sidechainTips := tips.sidechainTips.put b ⟨height,BitVec.ofNat 256 w,m⟩
          orderedSidechainTips := tips.orderedSidechainTips.put ⟨height,BitVec.ofNat 256 w,m⟩ b }) := by
  have entering {height : UInt32} (rest : (if (tips.sidechainTips.tryGet b).isSome then (pure tips : Except BlockHash _)
      else pure { tips with
        sidechainTips := tips.sidechainTips.put b ⟨height,BitVec.ofNat 256 w,m⟩
        orderedSidechainTips := tips.orderedSidechainTips.put ⟨height,BitVec.ofNat 256 w,m⟩ b }) = .ok tips') :
      (tips.sidechainTips.tryGet b).isSome = true ∧ tips' = tips ∨ (tips.sidechainTips.tryGet b).isSome = false ∧
        tips' = { tips with
          sidechainTips := tips.sidechainTips.put b ⟨height,BitVec.ofNat 256 w,m⟩
          orderedSidechainTips := tips.orderedSidechainTips.put ⟨height,BitVec.ofNat 256 w,m⟩ b } := by
    split at rest
    · next listed => exact .inl ⟨listed,(pureOk.mp rest).symm⟩
    · next new => exact .inr ⟨Bool.not_eq_true _ ▸ new,(pureOk.mp rest).symm⟩
  cases prevSideHash with
  | none => exact ⟨0,.inl ⟨rfl,rfl⟩,entering ok⟩
  | some p =>
      simp only [SideTips.connectSidechainTip,bindOk,okOrOk] at ok
      obtain ⟨info,found,height,isHeight,rest⟩ := ok
      cases pureOk.mp isHeight
      exact ⟨_,.inr ⟨p,info,rfl,found,rfl⟩,entering rest⟩

theorem wordHeightSucc {h : Nat} : SideTips.saturatingSucc (wordHeight h) = wordHeight (h + 1) := by
  unfold SideTips.saturatingSucc wordHeight
  by_cases large : 0xffffffff ≤ h
  · rw [Nat.min_eq_right large,Nat.min_eq_right (Nat.le_succ_of_le large)]
    rfl
  · have small := Nat.not_le.mp large
    rw [Nat.min_eq_left (Nat.le_of_lt small),Nat.min_eq_left small,if_neg]
    · exact (UInt32.ofNat_add h 1).symm
    · intro same
      have value := congrArg UInt32.toNat same
      rw [UInt32.toNat_ofNat_of_lt' (by simp [UInt32.size]; omega)] at value
      simp at value
      omega

theorem TipsKept.connects (kept : TipsKept archive leaving awaited) (trees : Trees lib world archive)
    (stored : archive.headers.tryGet b = some header) (included : Included archive b m) {w : Nat}
    (work : archive.totalWork.tryGet m = some w) {tips : SideTips}
    (ok : archive.sideTips.connectSidechainTip m w b header.prevSideHash = .ok tips) :
    ParentListed archive header ∧ (archive.isListed b ∧ tips = archive.sideTips ∨
      ¬ archive.isListed b ∧ ∃ info, Entered archive b info ∧ { archive with sideTips := tips } = archive.enterTip b info) := by
  obtain ⟨height,isHeight,result⟩ := connectTipSource ok
  have parent : ParentListed archive header := by
    intro p isParent
    rcases isHeight with ⟨none,_⟩ | ⟨p',info,isParent',found,_⟩
    · cases none.symm.trans isParent
    · cases isParent.symm.trans isParent'
      exact isListedSome.mpr ⟨info,found⟩
  refine ⟨parent,result.imp id (fun ⟨new,isTips⟩ => ?_)⟩
  refine ⟨fun listed => Bool.false_ne_true (new.symm.trans listed),_,?_,by rw [isTips]; rfl⟩
  obtain ⟨h,known,count⟩ := trees.sides.heights.counted stored
  refine ⟨m,h,w,included,known,work,?_⟩
  rcases isHeight with ⟨none,rfl⟩ | ⟨p,info,isParent,found,rfl⟩
  · rcases sideCounts count with ⟨_,rfl⟩ | ⟨p,k,isParent,_⟩
    · rfl
    · cases none.symm.trans isParent
  · rcases sideCounts count with ⟨first,_⟩ | ⟨p',k,isParent',parentKnown,rfl⟩
    · cases first.symm.trans isParent
    · cases isParent.symm.trans isParent'
      obtain ⟨_,k',_,_,parentKnown',_,rfl⟩ := kept.entered found
      cases parentKnown.symm.trans parentKnown'
      rw [wordHeightSucc]

inductive Updated (archive : Archive F) (b : BlockHash) (header : Header) : Archive F × Bool → Prop
  | untouched : Updated archive b header (archive,false)
  | listed (parent : ParentListed archive header) (isListed : archive.isListed b) : Updated archive b header (archive,true)
  | entered {info : SidechainTipInfo} (parent : ParentListed archive header) (new : ¬ archive.isListed b)
      (entry : Entered archive b info) : Updated archive b header (archive.enterTip b info,true)

structure Lists (archive : Archive F) (header : Header) (entry : MainHash × BmmResult) : Prop where
  verified : entry.2 = .verified
  parent : ParentListed archive header
  onChain : archive.isMainDescendant entry.1 archive.mainTip = .ok true

theorem parentCheck {parent : Option BlockHash} :
    parent.any (fun p => (archive.sideTips.sidechainTips.tryGet p).isNone) = false ↔ ∀ p, parent = some p → archive.isListed p := by
  cases parent with
  | none => simp
  | some p => simp [isListed]

theorem listAtSource {mainTip : MainHash} {acc acc' : Archive F × Bool} {entry : MainHash × BmmResult}
    (ok : listAt mainTip b header acc entry = .ok acc') :
    acc' = acc ∧ ¬ (entry.2 = .verified ∧ ParentListed acc.1 header ∧
        acc.1.isMainDescendant entry.1 mainTip = .ok true) ∨
      entry.2 = .verified ∧ ParentListed acc.1 header ∧ acc.1.isMainDescendant entry.1 mainTip = .ok true ∧
        ∃ w tips, acc.1.totalWork.tryGet entry.1 = some w ∧
          acc.1.sideTips.connectSidechainTip entry.1 w b header.prevSideHash = .ok tips ∧
          acc' = ({ acc.1 with sideTips := tips },true) := by
  unfold listAt at ok
  dsimp only at ok
  split at ok
  · next failed =>
      cases ok
      refine .inl ⟨rfl,fun fits => ?_⟩
      cases failed.symm.trans fits.1
  · next verified =>
      split at ok
      · next missing =>
          cases ok
          refine .inl ⟨rfl,fun fits => ?_⟩
          rw [parentCheck.mpr fits.2.1] at missing
          cases missing
      · next listed =>
          rw [Bool.not_eq_true] at listed
          simp only [bindOk] at ok
          obtain ⟨on,isOn,ok⟩ := ok
          split at ok
          · next off =>
              cases ok
              refine .inl ⟨rfl,fun fits => ?_⟩
              rw [off,fits.2.2] at isOn
              cases isOn
          · next onChain =>
              rw [Bool.not_eq_false] at onChain
              simp only [getTotalWork,bindOk,okOrOk,mapErrorOk,pureOk] at ok
              obtain ⟨w,work,tips,connected,rfl⟩ := ok
              exact .inr ⟨verified,parentCheck.mp listed,onChain ▸ isOn,w,tips,work,connected,rfl⟩

theorem MainTree.descendant (tree : MainTree world archive) {h : Nat} (height : archive.mainLinks.height m = .ok h)
    {answer : Bool} (ok : archive.isMainDescendant m n = .ok answer) :
    answer = true ↔ archive.mainLinks.Descends m n := by
  have known : ∃ k, archive.mainLinks.height n = .ok k := by
    by_cases same : m = n
    · exact ⟨h,same ▸ height⟩
    · simp only [isMainDescendant,Links.isDescendant,if_neg same,bindOk] at ok
      obtain ⟨_,_,k,isKnown,_⟩ := ok
      exact ⟨k,isKnown⟩
  obtain ⟨k,isKnown⟩ := known
  obtain ⟨answer',isAnswer,holds⟩ := tree.sound.isDescendant height isKnown
  cases isAnswer.symm.trans ok
  exact holds

theorem Trees.verifiedHeight (trees : Trees lib world archive) (verified : archive.verifiedAt b m) :
    ∃ h, archive.mainLinks.height m = .ok h := by
  obtain ⟨_,info,_,stored,_⟩ := ((trees.results b m).mp verified).known
  obtain ⟨h,height,_⟩ := trees.main.heights.counted stored
  exact ⟨h,mainHeightOk.mpr height⟩

theorem Trees.lists (trees : Trees lib world archive) {entry : MainHash × BmmResult}
    (verified : archive.verifiedAt b entry.1) (lists : Lists archive header entry) : Included archive b entry.1 := by
  obtain ⟨h,height⟩ := trees.verifiedHeight verified
  exact ⟨verified,(trees.main.descendant height lists.onChain).mp rfl⟩

theorem TipsKept.listAt (kept : TipsKept archive leaving awaited) (trees : Trees lib world archive)
    (stored : archive.headers.tryGet b = some header) {acc acc' : Archive F × Bool} {entry : MainHash × BmmResult}
    (isVerified : entry.2 = .verified → archive.verifiedAt b entry.1) (updated : Updated archive b header acc)
    (ok : Archive.listAt archive.mainTip b header acc entry = .ok acc') :
    Updated archive b header acc' ∧ (acc.2 = true ∨ Lists archive header entry → acc'.2 = true) := by
  have source := listAtSource ok
  cases updated with
  | untouched =>
      rcases source with ⟨rfl,fails⟩ | ⟨verified,parent,onChain,w,tips,work,connected,rfl⟩
      · refine ⟨.untouched,fun reason => ?_⟩
        rcases reason with already | lists
        · exact already
        · exact absurd ⟨lists.verified,lists.parent,lists.onChain⟩ fails
      · have included := trees.lists (isVerified verified) ⟨verified,parent,onChain⟩
        refine ⟨?_,fun _ => rfl⟩
        obtain ⟨_,⟨listed,rfl⟩ | ⟨new,info,entry,same⟩⟩ := kept.connects trees stored included work connected
        · exact .listed parent listed
        · dsimp only
          rw [same]
          exact .entered parent new entry
  | listed parent isListed =>
      rcases source with ⟨rfl,_⟩ | ⟨_,_,_,w,tips,_,connected,rfl⟩
      · exact ⟨.listed parent isListed,fun _ => rfl⟩
      · obtain ⟨_,_,⟨_,rfl⟩ | ⟨new,_⟩⟩ := connectTipSource connected
        · exact ⟨.listed parent isListed,fun _ => rfl⟩
        · exact absurd isListed (by rw [Archive.isListed,new]; exact Bool.false_ne_true)
  | @entered info parent new entry' =>
      rcases source with ⟨rfl,_⟩ | ⟨_,_,_,w,tips,_,connected,rfl⟩
      · exact ⟨.entered parent new entry',fun _ => rfl⟩
      · have isListed : (archive.enterTip b info).isListed b := enterTipListed.mpr (.inl rfl)
        obtain ⟨_,_,⟨_,rfl⟩ | ⟨missing,_⟩⟩ := connectTipSource connected
        · exact ⟨.entered parent new entry',fun _ => rfl⟩
        · exact absurd isListed (by rw [Archive.isListed,missing]; exact Bool.false_ne_true)

theorem TipsKept.listAll (kept : TipsKept archive leaving awaited) (trees : Trees lib world archive)
    (stored : archive.headers.tryGet b = some header) {entries : List (MainHash × BmmResult)} {acc acc' : Archive F × Bool}
    (verified : ∀ entry ∈ entries, entry.2 = .verified → archive.verifiedAt b entry.1)
    (updated : Updated archive b header acc)
    (ok : entries.foldlM (Archive.listAt archive.mainTip b header) acc = .ok acc') :
    Updated archive b header acc' ∧ (acc.2 = true ∨ (∃ entry ∈ entries, Lists archive header entry) → acc'.2 = true) := by
  induction entries generalizing acc with
  | nil =>
      cases ok
      refine ⟨updated,fun reason => reason.resolve_right ?_⟩
      rintro ⟨_,mem,_⟩
      cases mem
  | cons entry entries ih =>
      obtain ⟨middle,first,rest⟩ := foldConsOk.mp ok
      obtain ⟨updatedFirst,lists⟩ := kept.listAt trees stored (verified entry List.mem_cons_self) updated first
      obtain ⟨updatedRest,listsRest⟩ := ih (fun e mem => verified e (List.mem_cons_of_mem _ mem)) updatedFirst rest
      refine ⟨updatedRest,fun reason => ?_⟩
      rcases reason with already | ⟨found,mem,isLists⟩
      · exact listsRest (.inl (lists (.inl already)))
      · rcases List.mem_cons.mp mem with rfl | inRest
        · exact listsRest (.inl (lists (.inr isLists)))
        · exact listsRest (.inr ⟨found,inRest,isLists⟩)

theorem SideTree.successors (sides : SideTree lib world archive) {successors : HashSet}
    (found : archive.successors.tryGet (some b) = some successors) :
    c ∈ successors.items ↔ ∃ header, archive.headers.tryGet c = some header ∧ header.prevSideHash = some b := by
  rw [itemsMem,sides.follows _ _ c found,Option.map_eq_some_iff]

theorem TipsKept.awaiting (kept : TipsKept archive leaving awaited)
    (settled : ∀ {c header n}, awaited c → Supported archive c header → Included archive c n →
      archive.isListed c ∨ awaited' c) : TipsKept archive leaving awaited' := by
  refine ⟨kept.entered,kept.supported,fun supported included => ?_,kept.inverse⟩
  rcases kept.closed supported included with listed | isAwaited
  · exact .inl listed
  · exact settled isAwaited supported included

theorem TipsKept.update (kept : TipsKept archive leaving awaited) (trees : Trees lib world archive)
    (stored : archive.headers.tryGet b = some header) (body : (archive.bodies.tryGet b).isSome = true)
    {more : List BlockHash} (ok : updateSideTips archive.mainTip archive b header = .ok (archive',more))
    (others : ∀ c, c ≠ b → awaited c → awaited' c) (children : ∀ c ∈ more, awaited' c) :
    TipsKept archive' leaving awaited' ∧ archive'.sideTips.mainchainTip = archive.sideTips.mainchainTip := by
  simp only [updateSideTips,bindOk] at ok
  obtain ⟨⟨result,connected⟩,folded,ok⟩ := ok
  obtain ⟨updated,found⟩ := kept.listAll trees stored
    (fun entry mem verified => Table.memEntries.mp (by rw [← verified]; exact mem)) .untouched folded
  cases updated with
  | untouched =>
      cases ok
      refine ⟨kept.awaiting (fun {c} header' n isAwaited supported included => ?_),rfl⟩
      by_cases here : c = b
      · -- a result on the main chain would have been taken
        subst here
        cases stored.symm.trans supported.stored
        obtain ⟨h,height⟩ := trees.verifiedHeight included.verified
        obtain ⟨k,_,below,_⟩ := included.onChain
        obtain ⟨answer,isAnswer,holds⟩ := trees.main.sound.isDescendant height below
        rw [holds.mpr included.onChain] at isAnswer
        exact absurd (found (.inr ⟨(n,.verified),Table.memEntries.mpr included.verified,rfl,supported.parent,isAnswer⟩))
          Bool.false_ne_true
      · exact .inr (others c here isAwaited)
  | listed parent isListed =>
      simp only [if_true,bindOk,getSuccessorsOk,pureOk,Prod.mk.injEq] at ok
      obtain ⟨successors,isSuccessors,rfl,rfl⟩ := ok
      refine ⟨kept.awaiting (fun {c} header' n isAwaited supported included => ?_),rfl⟩
      by_cases here : c = b
      · exact .inl (here ▸ isListed)
      · exact .inr (others c here isAwaited)
  | entered parent new entry =>
      simp only [if_true,bindOk,getSuccessorsOk,pureOk,Prod.mk.injEq] at ok
      obtain ⟨successors,isSuccessors,rfl,rfl⟩ := ok
      refine ⟨kept.enter trees new ⟨stored,body,parent⟩ entry others (fun c header' n isStored isParent _ _ => ?_),rfl⟩
      exact children c ((trees.sides.successors isSuccessors).mpr ⟨header',isStored,isParent⟩)

end Listing

section Bodies

variable {header : Header} {leaving leaving' awaited : BlockHash → Prop}

def updateRound (mainTip : MainHash) (archive : Archive F) (b : BlockHash) :
    Except ArchiveError (Archive F × List BlockHash) :=
  if archive.containsBody b = false then .ok (archive,[])
  else do
    let header ← archive.getHeader b
    updateSideTips mainTip archive b header

def disconnectRound (archive : Archive F) (b : BlockHash) : Except ArchiveError (Archive F × List BlockHash) :=
  if (archive.sideTips.sidechainTips.tryGet b).isNone then .ok (archive,[])
  else do
    let successors ← archive.getSuccessors (some b)
    pure ({ archive with sideTips := archive.sideTips.disconnectSidechainTip b },successors.items)

theorem updateQueueDrain {mainTip : MainHash} {fuel : Nat} {queue : List BlockHash} :
    updateQueue mainTip fuel archive queue = Worklist.drain (updateRound mainTip) .endless fuel archive queue := by
  induction fuel generalizing archive queue with
  | zero => cases queue <;> rfl
  | succ fuel ih =>
      cases queue with
      | nil => rfl
      | cons b queue =>
          simp only [updateQueue,Worklist.drain,updateRound]
          split
          · rw [okBind]
            simp only [List.append_nil]
            exact ih
          · simp only [ih,bind_assoc]

theorem disconnectQueueDrain {fuel : Nat} {queue : List BlockHash} :
    disconnectQueue fuel archive queue = Worklist.drain disconnectRound .endless fuel archive queue := by
  induction fuel generalizing archive queue with
  | zero => cases queue <;> rfl
  | succ fuel ih =>
      cases queue with
      | nil => rfl
      | cons b queue =>
          simp only [disconnectQueue,Worklist.drain,disconnectRound]
          split
          · rw [okBind]
            simp only [List.append_nil]
            exact ih
          · simp only [ih,bind_assoc,pure_bind]
            rfl

/- A block that is no longer supported leaves the tables; so will its children. -/
theorem TipsKept.leave (kept : TipsKept archive leaving awaited) (listed : archive.isListed b)
    (gone : ∀ header, ¬ Supported archive b header) (others : ∀ c, c ≠ b → leaving c → leaving' c)
    (children : ∀ c header, archive.headers.tryGet c = some header → header.prevSideHash = some b → leaving' c) :
    TipsKept { archive with sideTips := archive.sideTips.disconnectSidechainTip b } leaving' awaited := by
  obtain ⟨info,found⟩ := isListedSome.mp listed
  have left : archive.sideTips.disconnectSidechainTip b = { archive.sideTips with
      sidechainTips := archive.sideTips.sidechainTips.delete b
      orderedSidechainTips := archive.sideTips.orderedSidechainTips.delete info } := by
    unfold SideTips.disconnectSidechainTip
    rw [found]
  rw [left]
  have isListed' {c : BlockHash} : Archive.isListed { archive with sideTips := { archive.sideTips with
      sidechainTips := archive.sideTips.sidechainTips.delete b
      orderedSidechainTips := archive.sideTips.orderedSidechainTips.delete info } } c ↔ c ≠ b ∧ archive.isListed c := by
    simp only [isListed,Table.tryGetDelete]
    split
    · next here => simp [here]
    · next other => simp [other]
  constructor
  · intro c info' isFound
    change (archive.sideTips.sidechainTips.delete b).tryGet c = some info' at isFound
    rw [Table.tryGetDelete] at isFound
    split at isFound
    · cases isFound
    · exact (kept.entered isFound).tips rfl
  · intro c isListedC
    obtain ⟨other,before⟩ := isListed'.mp isListedC
    rcases kept.supported before with ⟨header,supported⟩ | isLeaving
    · by_cases child : header.prevSideHash = some b
      · exact .inr (children c header supported.stored child)
      · refine .inl ⟨header,supported.stored,supported.body,fun p isParent => isListed'.mpr ⟨fun same => ?_,?_⟩⟩
        · exact child (same ▸ isParent)
        · exact supported.parent p isParent
    · exact .inr (others c other isLeaving)
  · intro c header m supported included
    have before : Supported archive c header :=
      ⟨supported.stored,supported.body,fun p isParent => (isListed'.mp (supported.parent p isParent)).2⟩
    have other : c ≠ b := fun same => gone header (same ▸ before)
    exact (kept.closed before (included.tips rfl)).imp (fun listedC => isListed'.mpr ⟨other,listedC⟩) id
  · intro c info'
    change (archive.sideTips.orderedSidechainTips.delete info).tryGet info' = some c ↔
      (archive.sideTips.sidechainTips.delete b).tryGet c = some info'
    rw [Table.tryGetDelete,Table.tryGetDelete]
    split
    · next same =>
        split
        · simp
        · next other =>
            rw [same,← kept.inverse c info,(kept.inverse b info).mpr found]
            simp [Ne.symm other]
    · next other =>
        split
        · next here =>
            rw [here,kept.inverse b info',found]
            simp [Ne.symm other]
        · exact kept.inverse c info'

theorem TipsKept.putBodyStart (kept : TipsKept archive Nobody Nobody) {body : Body} :
    TipsKept { archive with bodies := archive.bodies.put b body } Nobody (· = b) := by
  constructor
  · exact fun found => (kept.entered found).tips rfl
  · intro c listed
    obtain ⟨header,supported⟩ := (kept.supported listed).resolve_right id
    refine .inl ⟨header,supported.stored,?_,supported.parent⟩
    rw [Table.tryGetPut]
    split
    · rfl
    · exact supported.body
  · intro c header m supported included
    by_cases here : c = b
    · exact .inr here
    · have body := supported.body
      rw [Table.tryGetPutOther here] at body
      exact .inl ((kept.closed ⟨supported.stored,body,supported.parent⟩ (included.tips rfl)).resolve_right id)
  · exact kept.inverse

theorem TipsKept.updateRound {queue more : List BlockHash} (kept : TipsKept archive Nobody (· ∈ b :: queue))
    (trees : Trees lib world archive) (done : Archive.updateRound archive.mainTip archive b = .ok (archive',more)) :
    Trees lib world archive' ∧ archive'.sideTips.mainchainTip = archive.sideTips.mainchainTip ∧
      TipsKept archive' Nobody (· ∈ queue ++ more) := by
  unfold Archive.updateRound at done
  split at done
  · next missing =>
      cases done
      refine ⟨trees,rfl,kept.awaiting (fun {c} header n mem supported _ => .inr ?_)⟩
      rcases List.mem_cons.mp mem with rfl | inQueue
      · exact absurd (missing.symm.trans supported.body) Bool.false_ne_true
      · exact List.mem_append_left _ inQueue
  · next isBody =>
      rw [Bool.not_eq_false] at isBody
      simp only [getHeader,bindOk,okOrOk] at done
      obtain ⟨header,stored,updated⟩ := done
      obtain ⟨keptNext,same⟩ : TipsKept archive' Nobody (· ∈ queue ++ more) ∧ _ := kept.update trees stored isBody updated
        (fun c other mem => List.mem_append_left _ ((List.mem_cons.mp mem).resolve_left other))
        (fun c mem => List.mem_append_right _ mem)
      obtain ⟨tips,rfl⟩ := updateSideTipsFrame updated
      exact ⟨trees.tips,same,keptNext⟩

theorem TipsKept.putBody (kept : TipsKept archive Nobody Nobody) (trees : Trees lib world archive) {body : Body}
    (ok : archive.putBody b body = .ok archive') :
    TipsKept archive' Nobody Nobody ∧ archive'.sideTips.mainchainTip = archive.sideTips.mainchainTip := by
  simp only [Archive.putBody,getHeader,bindOk,okOrOk] at ok
  obtain ⟨header,stored,⟨first,more⟩,updated,drained⟩ := ok
  have treesPut : Trees lib world { archive with bodies := archive.bodies.put b body } := by
    refine trees.bodies (fun c isBody => ?_)
    rw [Table.tryGetPut] at isBody
    split at isBody
    · next here =>
        rw [here,stored]
        rfl
    · exact trees.sides.bodies isBody
  obtain ⟨keptFirst,sameFirst⟩ : TipsKept first Nobody (· ∈ more) ∧ _ :=
    kept.putBodyStart.update treesPut stored (by simp) updated (fun c other here => absurd here other) (fun c mem => mem)
  have treesFirst : Trees lib world first := by
    obtain ⟨tips,rfl⟩ := updateSideTipsFrame updated
    exact treesPut.tips
  dsimp only at drained
  rw [updateQueueDrain] at drained
  have finished := Worklist.drainInvariant (P := fun (a : Archive F) queue => Trees lib world a ∧
    a.sideTips.mainchainTip = archive.sideTips.mainchainTip ∧ TipsKept a Nobody (· ∈ queue)) ?_
    ⟨treesFirst,sameFirst,keptFirst⟩ drained
  · exact ⟨finished.2.2.awaiting (fun mem => absurd mem List.not_mem_nil),finished.2.1⟩
  · rintro a k queue a' added ⟨treesA,sameA,keptA⟩ done
    rw [← sameA] at done
    obtain ⟨treesNext,sameNext,keptNext⟩ := keptA.updateRound treesA done
    exact ⟨treesNext,sameNext.trans sameA,keptNext⟩

theorem TipsKept.deleteBodyStart (kept : TipsKept archive Nobody Nobody) :
    TipsKept { archive with bodies := archive.bodies.delete b } (· ∈ [b]) Nobody := by
  constructor
  · exact fun found => (kept.entered found).tips rfl
  · intro c listed
    by_cases here : c = b
    · exact .inr (List.mem_singleton.mpr here)
    · obtain ⟨header,supported⟩ := (kept.supported listed).resolve_right id
      refine .inl ⟨header,supported.stored,?_,supported.parent⟩
      rw [Table.tryGetDeleteOther here]
      exact supported.body
  · intro c header m supported included
    have body := supported.body
    rw [Table.tryGetDelete] at body
    split at body
    · cases body
    · exact kept.closed ⟨supported.stored,body,supported.parent⟩ (included.tips rfl)
  · exact kept.inverse

theorem TipsKept.disconnectRound {queue more : List BlockHash} (kept : TipsKept archive (· ∈ b :: queue) Nobody)
    (trees : Trees lib world archive) (gone : ∀ c ∈ b :: queue, ∀ header, ¬ Supported archive c header)
    (done : Archive.disconnectRound archive b = .ok (archive',more)) :
    Trees lib world archive' ∧ archive'.sideTips.mainchainTip = archive.sideTips.mainchainTip ∧
      TipsKept archive' (· ∈ queue ++ more) Nobody ∧ ∀ c ∈ queue ++ more, ∀ header, ¬ Supported archive' c header := by
  unfold Archive.disconnectRound at done
  split at done
  · next missing =>
      cases done
      rw [List.append_nil]
      refine ⟨trees,rfl,⟨kept.entered,fun {c} listed => ?_,kept.closed,kept.inverse⟩,
        fun c mem => gone c (List.mem_cons_of_mem _ mem)⟩
      refine (kept.supported listed).imp id (fun mem => (List.mem_cons.mp mem).resolve_left (fun here => ?_))
      rw [isListed,here] at listed
      rw [Option.isNone_iff_eq_none.mp missing] at listed
      cases listed
  · next present =>
      have listed : archive.isListed b := by
        rw [isListed]
        cases found : archive.sideTips.sidechainTips.tryGet b with
        | none => simp [found] at present
        | some info => rfl
      simp only [bindOk,getSuccessorsOk,pureOk,Prod.mk.injEq] at done
      obtain ⟨successors,isSuccessors,rfl,rfl⟩ := done
      have mainchain : (archive.sideTips.disconnectSidechainTip b).mainchainTip = archive.sideTips.mainchainTip := by
        unfold SideTips.disconnectSidechainTip
        split <;> rfl
      refine ⟨trees.tips,mainchain,kept.leave listed (gone b List.mem_cons_self)
        (fun c other mem => List.mem_append_left _ ((List.mem_cons.mp mem).resolve_left other))
        (fun c header stored isParent => List.mem_append_right _
          ((trees.sides.successors isSuccessors).mpr ⟨header,stored,isParent⟩)),fun c mem header supported => ?_⟩
      have fewer {p : BlockHash} (after : Archive.isListed
          { archive with sideTips := archive.sideTips.disconnectSidechainTip b } p) : p ≠ b ∧ archive.isListed p := by
        obtain ⟨info,found⟩ := isListedSome.mp listed
        simp only [isListed,SideTips.disconnectSidechainTip,found,Table.tryGetDelete] at after
        split at after
        · cases after
        · next other => exact ⟨other,after⟩
      rcases List.mem_append.mp mem with inQueue | isChild
      · exact gone c (List.mem_cons_of_mem _ inQueue) header
          ⟨supported.stored,supported.body,fun p isParent => (fewer (supported.parent p isParent)).2⟩
      · obtain ⟨header',stored,isParent⟩ := (trees.sides.successors isSuccessors).mp isChild
        cases stored.symm.trans supported.stored
        exact (fewer (supported.parent b isParent)).1 rfl

theorem TipsKept.deleteBody (kept : TipsKept archive Nobody Nobody) (trees : Trees lib world archive)
    (ok : archive.deleteBody b = .ok archive') :
    TipsKept archive' Nobody Nobody ∧ archive'.sideTips.mainchainTip = archive.sideTips.mainchainTip := by
  unfold Archive.deleteBody at ok
  dsimp only at ok
  rw [disconnectQueueDrain] at ok
  have treesDeleted : Trees lib world { archive with bodies := archive.bodies.delete b } := by
    refine trees.bodies (fun c isBody => ?_)
    rw [Table.tryGetDelete] at isBody
    split at isBody
    · cases isBody
    · exact trees.sides.bodies isBody
  have gone : ∀ c ∈ [b], ∀ header, ¬ Supported { archive with bodies := archive.bodies.delete b } c header := by
    intro c mem header supported
    have body := supported.body
    rw [List.mem_singleton.mp mem] at body
    simp at body
  have finished := Worklist.drainInvariant (P := fun (a : Archive F) queue => Trees lib world a ∧
    a.sideTips.mainchainTip = archive.sideTips.mainchainTip ∧ TipsKept a (· ∈ queue) Nobody ∧
      ∀ c ∈ queue, ∀ header, ¬ Supported a c header) ?_ ⟨treesDeleted,rfl,kept.deleteBodyStart,gone⟩ ok
  · obtain ⟨_,same,keptLast,_⟩ := finished
    refine ⟨⟨keptLast.entered,fun listed => ?_,keptLast.closed,keptLast.inverse⟩,same⟩
    exact (keptLast.supported listed).imp id (fun mem => absurd mem List.not_mem_nil)
  · rintro a k queue a' added ⟨treesA,sameA,keptA,goneA⟩ done
    obtain ⟨treesNext,sameNext,keptNext,goneNext⟩ := keptA.disconnectRound treesA goneA done
    exact ⟨treesNext,sameNext.trans sameA,keptNext,goneNext⟩

end Bodies

section Ends

def parentOf (archive : Archive F) (b : BlockHash) : Option BlockHash := (archive.headers.tryGet b).bind (·.prevSideHash)

def heightOf (archive : Archive F) (b : BlockHash) : Nat := (archive.blockHashToHeight.tryGet b).getD 0

def headerHashes (archive : Archive F) : List BlockHash := archive.headers.entries.map (·.1)

theorem headerHashesMem : b ∈ archive.headerHashes ↔ ∃ header, archive.headers.tryGet b = some header := by
  simp only [headerHashes,List.mem_map,Prod.exists,exists_and_right,exists_eq_right,Table.memEntries]

theorem SideTree.lower (sides : SideTree lib world archive) (isParent : archive.parentOf c = some p) :
    archive.heightOf p < archive.heightOf c := by
  obtain ⟨header,stored,isParent⟩ := Option.bind_eq_some_iff.mp isParent
  obtain ⟨h,height,count⟩ := sides.heights.counted stored
  rcases sideCounts count with ⟨first,_⟩ | ⟨q,k,isChild,known,rfl⟩
  · cases first.symm.trans isParent
  · cases isChild.symm.trans isParent
    rw [heightOf,heightOf,height,known]
    exact Nat.lt_succ_self k

theorem SideTree.forest (sides : SideTree lib world archive) {nodes : List BlockHash} (all : archive.headerHashes ⊆ nodes)
    {round : Archive F → BlockHash → Except ArchiveError (Archive F × List BlockHash)}
    (adds : ∀ {a k a' more}, round a k = .ok (a',more) → SameButTips a a' ∧ (more = [] ∨
      ∃ successors, a.successors.tryGet (some k) = some successors ∧ more = successors.items)) :
    Worklist.Forest round (SameButTips archive) archive.parentOf archive.heightOf nodes := by
  constructor
  · exact fun same done => same.trans (adds done).1
  · rintro a k a' more ⟨tips,rfl⟩ done
    rcases (adds done).2 with rfl | ⟨successors,_,rfl⟩
    · exact List.nodup_nil
    · exact Table.entriesDistinct
  · rintro a k a' more c ⟨tips,rfl⟩ done mem
    rcases (adds done).2 with rfl | ⟨successors,found,rfl⟩
    · cases mem
    · obtain ⟨header,stored,isParent⟩ := (sides.successors found).mp mem
      refine ⟨?_,all (headerHashesMem.mpr ⟨header,stored⟩)⟩
      rw [parentOf,stored]
      exact isParent
  · exact sides.lower

theorem updateRoundAdds {mainTip : MainHash} {more : List BlockHash}
    (done : updateRound mainTip archive b = .ok (archive',more)) : SameButTips archive archive' ∧ (more = [] ∨
      ∃ successors, archive.successors.tryGet (some b) = some successors ∧ more = successors.items) := by
  unfold updateRound at done
  split at done
  · cases done
    exact ⟨.refl,.inl rfl⟩
  · simp only [getHeader,bindOk,okOrOk] at done
    obtain ⟨header,_,updated⟩ := done
    refine ⟨updateSideTipsFrame updated,?_⟩
    simp only [updateSideTips,bindOk] at updated
    obtain ⟨acc,listed,rest⟩ := updated
    have frame : SameButTips archive acc.1 := foldInvariant (P := fun acc => SameButTips archive acc.1)
      (fun _ _ _ _ same step => same.trans (listAtFrame step)) .refl listed
    obtain ⟨tips,isFrame⟩ := frame
    split at rest
    · simp only [bindOk,getSuccessorsOk,pureOk,Prod.mk.injEq] at rest
      obtain ⟨successors,found,_,rfl⟩ := rest
      rw [isFrame] at found
      exact .inr ⟨successors,found,rfl⟩
    · cases rest
      exact .inl rfl

theorem disconnectRoundAdds {more : List BlockHash} (done : disconnectRound archive b = .ok (archive',more)) :
    SameButTips archive archive' ∧ (more = [] ∨
      ∃ successors, archive.successors.tryGet (some b) = some successors ∧ more = successors.items) := by
  unfold disconnectRound at done
  split at done
  · cases done
    exact ⟨.refl,.inl rfl⟩
  · simp only [bindOk,getSuccessorsOk,pureOk,Prod.mk.injEq] at done
    obtain ⟨successors,found,rfl,rfl⟩ := done
    exact ⟨⟨_,rfl⟩,.inr ⟨successors,found,rfl⟩⟩

theorem Trees.updateQueueEnough (trees : Trees lib world archive) {mainTip : MainHash} {header : Header}
    (stored : archive.headers.tryGet b = some header) (body : (archive.bodies.tryGet b).isSome = true)
    {first : Archive F} {more : List BlockHash} (updated : updateSideTips mainTip archive b header = .ok (first,more))
    {fuel : Nat} (enough : archive.headers.entries.length ≤ fuel) :
    updateQueue mainTip archive.headers.entries.length first more = updateQueue mainTip fuel first more := by
  have forest : Worklist.Forest (updateRound mainTip) (SameButTips archive) archive.parentOf archive.heightOf
      archive.headerHashes := trees.sides.forest (List.Subset.refl _) updateRoundAdds
  have done : updateRound mainTip archive b = .ok (first,more) := by
    rw [updateRound,containsBody,body,if_neg Bool.true_eq_false.mp,getHeader,stored]
    exact updated
  have progress := (Worklist.Progress.start (headerHashesMem.mpr ⟨header,stored⟩)).next forest .refl done
  rw [updateQueueDrain,updateQueueDrain]
  refine Worklist.drainEnough forest progress (updateSideTipsFrame updated) ?_ enough
  simp [headerHashes]

theorem Trees.disconnectQueueEnough (trees : Trees lib world archive) {fuel : Nat}
    (enough : archive.headers.entries.length + 1 ≤ fuel) :
    disconnectQueue (archive.headers.entries.length + 1) archive [b] = disconnectQueue fuel archive [b] := by
  have forest := trees.sides.forest (List.subset_cons_self b archive.headerHashes) disconnectRoundAdds
  rw [disconnectQueueDrain,disconnectQueueDrain]
  refine Worklist.drainEnough forest (Worklist.Progress.start List.mem_cons_self) .refl ?_ enough
  simp [headerHashes]

end Ends

end Archive

end Coinshift
