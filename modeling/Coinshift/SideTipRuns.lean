import Coinshift.ListedTips
import Coinshift.Reference

/-! The side tips over runs.
A connected main-chain block can list the one block it commits to. A disconnected one takes that block out of the
ordered table and leaves it in the other. -/
namespace Coinshift
open Checked Lineage

variable {F : Type} {lib : Externals F} {world : World} {ops : List ArchiveOp}

namespace Archive

variable {archive archive' : Archive F} {b c : BlockHash} {m n : MainHash}

section Connecting

theorem MainTree.aboveTip (tree : MainTree world archive) {info : BlockHeaderInfo}
    (stored : archive.mainHeaderInfos.tryGet m = some info) :
    archive.mainLinks.Descends n m ↔ n = m ∨ archive.mainLinks.Descends n info.prevBlockHash := by
  obtain ⟨h,height,count⟩ := tree.heights.counted stored
  have known := mainHeightOk.mpr height
  constructor
  · intro above
    obtain ⟨k,below,isHeight,up⟩ := tree.sound.descent above known
    cases distance : h - k with
    | zero =>
        rw [distance] at up
        exact .inl (Option.some.inj up).symm
    | succ d =>
        rw [distance,Links.up,mainParentOk.mpr ⟨info,stored,rfl⟩] at up
        obtain ⟨h',rfl⟩ := Nat.exists_eq_add_of_le' (show 1 ≤ h by omega)
        obtain ⟨p,isParent,parentHeight⟩ := tree.sound.step known
        obtain ⟨info',stored',rfl⟩ := mainParentOk.mp isParent
        cases stored.symm.trans stored'
        exact .inr ⟨h',d,parentHeight,by omega,up⟩
  · rintro (rfl | above)
    · exact .refl known
    · obtain ⟨k,_,parentHeight,_⟩ := above
      have parent : archive.mainLinks.Descends info.prevBlockHash m := by
        cases count with
        | root root =>
            exact absurd (mainBlockNone.mp root) (tree.belowNonZero ⟨k,_,parentHeight,‹_›⟩)
        | child isParent known' =>
            obtain ⟨_,rfl⟩ := mainBlockSome.mp isParent
            refine ⟨_,1,known,Nat.le_add_left 1 _,?_⟩
            rw [Links.up,mainParentOk.mpr ⟨info,stored,rfl⟩]
            rfl
      exact tree.sound.descentTrans ⟨k,_,parentHeight,‹_›⟩ parent

structure ConnectTipSource (tips : SideTips) (info : BlockHeaderInfo)
    (commitment : Option (BlockHash × Option BlockHash)) (tips' : SideTips) : Prop where
  parent : info.prevBlockHash = tips.mainchainTip.blockHash
  listed : ∃ listed, tips' = { listed with
      mainchainTip := ⟨tips.mainchainTip.cumulativeWork + info.work,some info⟩ } ∧
    (commitment = none ∧ listed = tips ∨ ∃ b prevSideHash, commitment = some (b,prevSideHash) ∧
      tips.connectSidechainTip info.blockHash (tips.mainchainTip.cumulativeWork + info.work) b prevSideHash = .ok listed)

theorem connectMainchainSource {tips tips' : SideTips} {info : BlockHeaderInfo}
    {commitment : Option (BlockHash × Option BlockHash)} (ok : tips.connectMainchainTip info commitment = .ok tips') :
    ConnectTipSource tips info commitment tips' := by
  cases commitment with
  | none =>
      simp only [SideTips.connectMainchainTip,bindOk,ensureOk,pureOk] at ok
      obtain ⟨_,parent,_,_,_,rfl,rfl⟩ := ok
      exact ⟨parent,_,rfl,.inl ⟨rfl,rfl⟩⟩
  | some pair =>
      simp only [SideTips.connectMainchainTip,bindOk,ensureOk,pureOk,mapErrorOk] at ok
      obtain ⟨_,parent,_,_,listed,connected,rfl⟩ := ok
      exact ⟨parent,listed,rfl,.inr ⟨pair.1,pair.2,rfl,connected⟩⟩

theorem listableSource {blockInfo : BlockInfo} {commitment : Option (BlockHash × Option BlockHash)}
    (ok : archive.listableCommitment m blockInfo = .ok commitment) :
    (∀ b prevSideHash, commitment = some (b,prevSideHash) → archive.verifiedAt b m ∧
      ∃ header, Supported archive b header ∧ header.prevSideHash = prevSideHash) ∧
    (commitment = none → ∀ b header, blockInfo.bmmCommitment = some b → Supported archive b header →
      ¬ archive.verifiedAt b m) := by
  unfold listableCommitment at ok
  split at ok
  · next noCommitment =>
      cases ok
      refine ⟨fun _ _ some => (nomatch some),fun _ b header isCommitment => ?_⟩
      cases noCommitment.symm.trans isCommitment
  · next b isCommitment =>
      split at ok
      · next missing =>
          cases ok
          refine ⟨fun _ _ some => (nomatch some),fun _ b' header isCommitment' supported _ => ?_⟩
          cases isCommitment.symm.trans isCommitment'
          exact Bool.false_ne_true (missing.symm.trans supported.body)
      · next body =>
          rw [Bool.not_eq_false] at body
          simp only [getHeader,bindOk,okOrOk] at ok
          obtain ⟨header,stored,ok⟩ := ok
          split at ok
          · next unlisted =>
              cases ok
              refine ⟨fun _ _ some => (nomatch some),fun _ b' header' isCommitment' supported _ => ?_⟩
              cases isCommitment.symm.trans isCommitment'
              cases stored.symm.trans supported.stored
              rw [parentCheck.mpr supported.parent] at unlisted
              cases unlisted
          · next listed =>
              rw [Bool.not_eq_true] at listed
              simp only [getBmmResult,bindOk,okOrOk] at ok
              obtain ⟨result,found,ok⟩ := ok
              cases result with
              | verified =>
                  cases ok
                  refine ⟨fun b' prevSideHash same => ?_,fun none => (nomatch none)⟩
                  cases same
                  exact ⟨found,header,⟨stored,body,parentCheck.mp listed⟩,rfl⟩
              | failed =>
                  cases ok
                  refine ⟨fun _ _ some => (nomatch some),fun _ b' header' isCommitment' _ verified => ?_⟩
                  cases isCommitment.symm.trans isCommitment'
                  cases found.symm.trans verified

def atTip (archive : Archive F) (tip : MainchainTip) : Archive F :=
  { archive with sideTips := { archive.sideTips with mainchainTip := tip } }

theorem connectTipElsewhere {tips tips' : SideTips} {prevSideHash : Option BlockHash} {w : Nat} {tip : MainchainTip}
    (ok : tips.connectSidechainTip m w b prevSideHash = .ok tips') :
    SideTips.connectSidechainTip { tips with mainchainTip := tip } m w b prevSideHash =
      .ok { tips' with mainchainTip := tip } := by
  have entering {height : UInt32} (rest : (if (tips.sidechainTips.tryGet b).isSome then (pure tips : Except BlockHash _)
      else pure { tips with
        sidechainTips := tips.sidechainTips.put b ⟨height,BitVec.ofNat 256 w,m⟩
        orderedSidechainTips := tips.orderedSidechainTips.put ⟨height,BitVec.ofNat 256 w,m⟩ b }) = .ok tips') :
      (if (tips.sidechainTips.tryGet b).isSome then (pure { tips with mainchainTip := tip } : Except BlockHash _)
        else pure { tips with
          mainchainTip := tip
          sidechainTips := tips.sidechainTips.put b ⟨height,BitVec.ofNat 256 w,m⟩
          orderedSidechainTips := tips.orderedSidechainTips.put ⟨height,BitVec.ofNat 256 w,m⟩ b }) =
        .ok { tips' with mainchainTip := tip } := by
    split at rest
    · next listed =>
        cases rest
        rw [if_pos listed]
        rfl
    · next new =>
        cases rest
        rw [if_neg new]
        rfl
  cases prevSideHash with
  | none => exact entering ok
  | some p =>
      simp only [SideTips.connectSidechainTip,bindOk,okOrOk] at ok ⊢
      obtain ⟨info,found,height,isHeight,rest⟩ := ok
      exact ⟨info,found,height,isHeight,entering rest⟩

theorem TipsKept.longer (kept : TipsKept archive Nobody Nobody) (trees : Trees lib world archive) {info : BlockHeaderInfo}
    (stored : archive.mainHeaderInfos.tryGet info.blockHash = some info) (parent : info.prevBlockHash = archive.mainTip)
    {work : Nat} : TipsKept (archive.atTip ⟨work,some info⟩) Nobody (fun b => archive.verifiedAt b info.blockHash) := by
  have above {n : MainHash} : archive.mainLinks.Descends n info.blockHash ↔
      n = info.blockHash ∨ archive.mainLinks.Descends n archive.mainTip := by
    rw [← parent]
    exact trees.main.aboveTip stored
  constructor
  · intro b entry found
    obtain ⟨m,h,w,included,rest⟩ := kept.entered found
    exact ⟨m,h,w,⟨included.verified,above.mpr (.inr included.onChain)⟩,rest⟩
  · intro b listed
    obtain ⟨header,supported⟩ := (kept.supported listed).resolve_right id
    exact .inl ⟨header,supported.stored,supported.body,supported.parent⟩
  · intro b header m supported included
    rcases above.mp included.onChain with rfl | before
    · exact .inr included.verified
    · have listed := kept.closed ⟨supported.stored,supported.body,supported.parent⟩ ⟨included.verified,before⟩
      exact .inl (listed.resolve_right id)
  · exact kept.inverse

theorem TipsKept.noChild (kept : TipsKept archive Nobody Nobody) (trees : Trees lib world archive) {info : BlockHeaderInfo}
    (stored : archive.mainHeaderInfos.tryGet info.blockHash = some info) (parent : info.prevBlockHash = archive.mainTip)
    {header header' : Header} (supported : Supported archive b header) (new : ¬ archive.isListed b)
    (isStored : archive.headers.tryGet c = some header') (isParent : header'.prevSideHash = some b)
    (verified : archive.verifiedAt c n) (onChain : archive.mainLinks.Descends n info.blockHash)
    (own : archive.verifiedAt b info.blockHash) : False := by
  obtain ⟨header'',commits,parents⟩ := ((trees.results c n).mp verified).commits
  cases isStored.symm.trans commits.stored
  obtain ⟨n',committed,above⟩ := parents b isParent
  have verifiedParent := (trees.results b n').mpr committed
  rcases (trees.main.aboveTip stored).mp (trees.main.sound.descentTrans above onChain) with rfl | before
  · -- both commitments would be in the new tip
    obtain rfl := trees.main.sound.descentAntisymm onChain above
    obtain rfl := trees.sameCommitment own verified
    exact trees.sides.parentOther isStored isParent
  · rw [parent] at before
    exact new ((kept.closed supported ⟨verifiedParent,before⟩).resolve_right id)

theorem TipKnown.connectedWork (tip : TipKnown archive) (trees : Trees lib world archive) {info : BlockHeaderInfo}
    (stored : archive.mainHeaderInfos.tryGet info.blockHash = some info)
    (parent : info.prevBlockHash = archive.sideTips.mainchainTip.blockHash) :
    archive.totalWork.tryGet info.blockHash = some (archive.sideTips.mainchainTip.cumulativeWork + info.work) := by
  obtain ⟨w,found,count⟩ := trees.main.works.counted stored
  cases isTip : archive.sideTips.mainchainTip.tipInfo with
  | none =>
      rw [MainchainTip.blockHash,isTip] at parent
      rw [tip.start isTip,Nat.zero_add,found]
      cases count with
      | root => rfl
      | child isParent => exact absurd parent (mainBlockSome.mp isParent).1
  | some old =>
      obtain ⟨oldStored,_,oldWork⟩ := tip.known isTip
      rw [MainchainTip.blockHash,isTip] at parent
      cases count with
      | root root =>
          have zero := mainBlockNone.mp root
          rw [parent] at zero
          exact absurd zero (trees.main.named oldStored).1.2
      | child isParent known =>
          obtain ⟨_,rfl⟩ := mainBlockSome.mp isParent
          rw [parent,oldWork] at known
          cases known
          exact found

theorem TipKnown.connectBlock (tip : TipKnown archive) (trees : Trees lib world archive) {info : BlockHeaderInfo}
    {commitment : Option (BlockHash × Option BlockHash)} {tips : SideTips}
    (stored : archive.mainHeaderInfos.tryGet info.blockHash = some info)
    (contents : (archive.mainBlockInfos.tryGet info.blockHash).isSome = true)
    (ok : archive.sideTips.connectMainchainTip info commitment = .ok tips) : TipKnown { archive with sideTips := tips } := by
  obtain ⟨parent,listed,rfl,_⟩ := connectMainchainSource ok
  refine ⟨fun none => (nomatch none),?_⟩
  intro info' isTip
  cases isTip
  exact ⟨stored,contents,tip.connectedWork trees stored parent⟩

theorem TipsKept.connectBlock (kept : TipsKept archive Nobody Nobody) (tip : TipKnown archive)
    (trees : Trees lib world archive) {info : BlockHeaderInfo} {blockInfo : BlockInfo}
    {commitment : Option (BlockHash × Option BlockHash)} {tips : SideTips}
    (stored : archive.mainHeaderInfos.tryGet info.blockHash = some info)
    (contents : archive.mainBlockInfos.tryGet info.blockHash = some blockInfo)
    (listable : archive.listableCommitment info.blockHash blockInfo = .ok commitment)
    (ok : archive.sideTips.connectMainchainTip info commitment = .ok tips) :
    TipsKept { archive with sideTips := tips } Nobody Nobody := by
  obtain ⟨parent,listed,rfl,connected⟩ := connectMainchainSource ok
  obtain ⟨isListable,notListable⟩ := listableSource listable
  have work := tip.connectedWork trees stored parent
  have longer : TipsKept (archive.atTip ⟨archive.sideTips.mainchainTip.cumulativeWork + info.work,some info⟩) Nobody
      (fun b => archive.verifiedAt b info.blockHash) := kept.longer trees stored parent
  rcases connected with ⟨none,rfl⟩ | ⟨b,prevSideHash,isCommitment,isConnected⟩
  · refine longer.awaiting (fun {c} header n verified supported _ => ?_)
    obtain ⟨_,commits,_⟩ := ((trees.results c _).mp verified).commits
    obtain ⟨blockInfo',contents',isCommitment⟩ := commits.commitment
    cases contents.symm.trans contents'
    exact absurd verified (notListable none c header isCommitment ⟨supported.stored,supported.body,supported.parent⟩)
  · obtain ⟨verified,header,supported,rfl⟩ := isListable b prevSideHash isCommitment
    obtain ⟨h,height,_⟩ := trees.main.heights.counted stored
    have included : Included (archive.atTip ⟨archive.sideTips.mainchainTip.cumulativeWork + info.work,some info⟩) b
        info.blockHash := ⟨verified,.refl (mainHeightOk.mpr height)⟩
    obtain ⟨_,⟨isListed,same⟩ | ⟨new,entry,entered,same⟩⟩ :=
      longer.connects trees.tips supported.stored included work (connectTipElsewhere isConnected)
    · have whole : { archive with sideTips := { listed with
          mainchainTip := ⟨archive.sideTips.mainchainTip.cumulativeWork + info.work,some info⟩ } } =
          archive.atTip ⟨archive.sideTips.mainchainTip.cumulativeWork + info.work,some info⟩ := by
        rw [same]
        rfl
      rw [whole]
      refine longer.awaiting (fun verified' _ _ => .inl ?_)
      rw [← trees.sameCommitment verified verified']
      exact isListed
    · have whole : { archive with sideTips := { listed with
          mainchainTip := ⟨archive.sideTips.mainchainTip.cumulativeWork + info.work,some info⟩ } } =
          (archive.atTip ⟨archive.sideTips.mainchainTip.cumulativeWork + info.work,some info⟩).enterTip b entry := same
      rw [whole]
      refine longer.enter trees.tips new ⟨supported.stored,supported.body,supported.parent⟩ entered
        (fun c other verified' => ?_) (fun c header' n isStored isParent _ isIncluded => ?_)
      · exact absurd (trees.sameCommitment verified verified').symm other
      · exact kept.noChild trees stored parent supported new isStored isParent isIncluded.verified isIncluded.onChain
          verified

end Connecting

section Disconnecting

structure DisconnectTipSource (tips : SideTips) (prev : Option BlockHeaderInfo) (tips' : SideTips) : Prop where
  result : ∃ tipInfo newTip ordered, tips.mainchainTip.tipInfo = some tipInfo ∧
    (newTip = none ∧ tipInfo.prevBlockHash = MainHash.allZeros ∨
      ∃ p, prev = some p ∧ newTip = some p ∧ p.blockHash = tipInfo.prevBlockHash ∧
        tipInfo.prevBlockHash ≠ MainHash.allZeros) ∧
    (ordered = tips.orderedSidechainTips ∨ ∃ b info, tips.sidechainTips.tryGet b = some info ∧
      info.mainBlockHash = tipInfo.blockHash) ∧
    tips' = { tips with
      orderedSidechainTips := ordered
      mainchainTip := ⟨tips.mainchainTip.cumulativeWork - tipInfo.work,newTip⟩ }

def newTipFor (tipInfo : BlockHeaderInfo) : Option BlockHeaderInfo →
    Except DisconnectMainchainTipError (Option BlockHeaderInfo)
  | some prev => do
      ensure (prev.blockHash = tipInfo.prevBlockHash) (.invalidMainchainParent tipInfo.prevBlockHash)
      ensure (prev.height + 1 = tipInfo.height) (.invalidMainchainParentHeight tipInfo.height)
      pure (if tipInfo.prevBlockHash ≠ MainHash.allZeros then some prev else none)
  | none => do
      ensure (tipInfo.prevBlockHash = MainHash.allZeros) (.invalidMainchainParent tipInfo.prevBlockHash)
      pure none

def orderedWithout (tips : SideTips) (tipInfo : BlockHeaderInfo) : Option BlockHash →
    Except DisconnectMainchainTipError (Table SidechainTipInfo BlockHash)
  | some b => do
      let info ← okOr (tips.sidechainTips.tryGet b) (.missingSidechainTip b)
      if info.mainBlockHash = tipInfo.blockHash then do
        ensure ((tips.orderedSidechainTips.tryGet info).isSome) (.missingSidechainTip b)
        pure (tips.orderedSidechainTips.delete info)
      else pure tips.orderedSidechainTips
  | none => pure tips.orderedSidechainTips

theorem disconnectParts {tips : SideTips} {prev : Option BlockHeaderInfo} {commitment : Option BlockHash} :
    tips.disconnectMainchainTip prev commitment = (do
      let tipInfo ← okOr tips.mainchainTip.tipInfo .noMainchainTip
      let newTip ← newTipFor tipInfo prev
      let ordered ← orderedWithout tips tipInfo commitment
      pure { tips with
        orderedSidechainTips := ordered
        mainchainTip := ⟨tips.mainchainTip.cumulativeWork - tipInfo.work,newTip⟩ }) := by
  unfold SideTips.disconnectMainchainTip
  congr 1
  funext tipInfo
  have listing (newTip : Option BlockHeaderInfo) : (match commitment with
      | some b => do
          let info ← okOr (tips.sidechainTips.tryGet b) (.missingSidechainTip b)
          if info.mainBlockHash = tipInfo.blockHash then do
            ensure ((tips.orderedSidechainTips.tryGet info).isSome) (.missingSidechainTip b)
            let ordered ← pure (tips.orderedSidechainTips.delete info)
            pure { tips with
              orderedSidechainTips := ordered
              mainchainTip := ⟨tips.mainchainTip.cumulativeWork - tipInfo.work,newTip⟩ }
          else do
            let ordered ← pure tips.orderedSidechainTips
            pure { tips with
              orderedSidechainTips := ordered
              mainchainTip := ⟨tips.mainchainTip.cumulativeWork - tipInfo.work,newTip⟩ }
      | none => do
          let ordered ← pure tips.orderedSidechainTips
          pure { tips with
            orderedSidechainTips := ordered
            mainchainTip := ⟨tips.mainchainTip.cumulativeWork - tipInfo.work,newTip⟩ } :
          Except DisconnectMainchainTipError SideTips) = (do
        let ordered ← orderedWithout tips tipInfo commitment
        pure { tips with
          orderedSidechainTips := ordered
          mainchainTip := ⟨tips.mainchainTip.cumulativeWork - tipInfo.work,newTip⟩ }) := by
    cases commitment with
    | none => rfl
    | some b =>
        simp only [orderedWithout,bind_assoc]
        congr 1
        funext info
        split
        · simp only [bind_assoc]
        · rfl
  cases prev with
  | none =>
      simp only [newTipFor,bind_assoc]
      congr 1
      funext
      exact listing none
  | some p =>
      simp only [newTipFor,bind_assoc]
      congr 1
      funext
      congr 1
      funext
      exact listing _

theorem disconnectMainchainSource {tips tips' : SideTips} {prev : Option BlockHeaderInfo} {commitment : Option BlockHash}
    (ok : tips.disconnectMainchainTip prev commitment = .ok tips') : DisconnectTipSource tips prev tips' := by
  rw [disconnectParts] at ok
  simp only [bindOk,okOrOk,pureOk] at ok
  obtain ⟨tipInfo,isTip,newTip,isNew,ordered,isOrdered,rfl⟩ := ok
  refine ⟨tipInfo,newTip,ordered,isTip,?_,?_,rfl⟩
  · cases prev with
    | none =>
        simp only [newTipFor,bindOk,ensureOk,pureOk] at isNew
        obtain ⟨_,zero,rfl⟩ := isNew
        exact .inl ⟨rfl,zero⟩
    | some p =>
        simp only [newTipFor,bindOk,ensureOk,pureOk] at isNew
        obtain ⟨_,parent,_,_,rfl⟩ := isNew
        by_cases zero : tipInfo.prevBlockHash = MainHash.allZeros
        · exact .inl ⟨if_neg (fun nonZero => nonZero zero),zero⟩
        · exact .inr ⟨p,rfl,if_pos zero,parent,zero⟩
  · cases commitment with
    | none => exact .inl (pureOk.mp isOrdered).symm
    | some b =>
        simp only [orderedWithout,bindOk,okOrOk] at isOrdered
        obtain ⟨info,found,isOrdered⟩ := isOrdered
        split at isOrdered
        · next here => exact .inr ⟨b,info,found,here⟩
        · exact .inl (pureOk.mp isOrdered).symm

def TipFree (archive : Archive F) : Prop :=
  ∀ b info, archive.sideTips.sidechainTips.tryGet b = some info → info.mainBlockHash ≠ archive.mainTip

theorem TipsKept.shorter (kept : TipsKept archive Nobody Nobody) (trees : Trees lib world archive) {info : BlockHeaderInfo}
    (stored : archive.mainHeaderInfos.tryGet archive.mainTip = some info) (free : archive.TipFree) {tip : MainchainTip}
    (parent : tip.blockHash = info.prevBlockHash) : TipsKept (archive.atTip tip) Nobody Nobody := by
  have above {n : MainHash} := trees.main.aboveTip (n := n) stored
  constructor
  · intro b entry found
    obtain ⟨m,h,w,included,height,work,rfl⟩ := kept.entered found
    refine ⟨m,h,w,⟨included.verified,?_⟩,height,work,rfl⟩
    change archive.mainLinks.Descends m tip.blockHash
    rw [parent]
    exact (above.mp included.onChain).resolve_left (free b _ found)
  · intro b listed
    obtain ⟨header,supported⟩ := (kept.supported listed).resolve_right id
    exact .inl ⟨header,supported.stored,supported.body,supported.parent⟩
  · intro b header m supported included
    have onChain : archive.mainLinks.Descends m tip.blockHash := included.onChain
    rw [parent] at onChain
    exact kept.closed ⟨supported.stored,supported.body,supported.parent⟩ ⟨included.verified,above.mpr (.inr onChain)⟩
  · exact kept.inverse

structure TipBlock (archive : Archive F) (tipInfo : BlockHeaderInfo) : Prop where
  here : archive.mainTip = tipInfo.blockHash
  stored : archive.mainHeaderInfos.tryGet archive.mainTip = some tipInfo
  contents : (archive.mainBlockInfos.tryGet archive.mainTip).isSome = true
  work : archive.totalWork.tryGet archive.mainTip = some archive.sideTips.mainchainTip.cumulativeWork

theorem TipKnown.block (tip : TipKnown archive) {tipInfo : BlockHeaderInfo}
    (isTip : archive.sideTips.mainchainTip.tipInfo = some tipInfo) : TipBlock archive tipInfo := by
  obtain ⟨stored,contents,work⟩ := tip.known isTip
  have here : archive.mainTip = tipInfo.blockHash := by rw [mainTip,MainchainTip.blockHash,isTip]
  rw [← here] at stored contents work
  exact ⟨here,stored,contents,work⟩

theorem TipBlock.parentWork {tipInfo : BlockHeaderInfo} (tip : TipBlock archive tipInfo) (trees : Trees lib world archive) :
    tipInfo.prevBlockHash = MainHash.allZeros ∧ archive.sideTips.mainchainTip.cumulativeWork - tipInfo.work = 0 ∨
      tipInfo.prevBlockHash ≠ MainHash.allZeros ∧ archive.totalWork.tryGet tipInfo.prevBlockHash =
        some (archive.sideTips.mainchainTip.cumulativeWork - tipInfo.work) := by
  obtain ⟨w,found,count⟩ := trees.main.works.counted tip.stored
  rw [Option.some.inj (tip.work.symm.trans found)]
  cases count with
  | root root => exact .inl ⟨mainBlockNone.mp root,Nat.sub_self _⟩
  | @child p work isParent known =>
      obtain ⟨nonZero,rfl⟩ := mainBlockSome.mp isParent
      exact .inr ⟨nonZero,known.trans (congrArg some (Nat.add_sub_cancel work tipInfo.work).symm)⟩

theorem TipKnown.disconnectBlock (tip : TipKnown archive) (trees : Trees lib world archive) {info : BlockHeaderInfo}
    {prev : Option BlockHeaderInfo} {commitment : Option BlockHash} {tips : SideTips}
    (isPrev : archive.mainParentHeaderInfo info = .ok prev)
    (ok : archive.sideTips.disconnectMainchainTip prev commitment = .ok tips) : TipKnown { archive with sideTips := tips } := by
  obtain ⟨tipInfo,newTip,ordered,isTip,isNew,_,rfl⟩ := disconnectMainchainSource ok
  have block := tip.block isTip
  refine ⟨fun noTip => ?_,fun {info'} isNewTip => ?_⟩
  · change newTip = none at noTip
    rcases isNew with ⟨_,zero⟩ | ⟨p,_,isSome,_⟩
    · rcases block.parentWork trees with ⟨_,nothing⟩ | ⟨nonZero,_⟩
      · exact nothing
      · exact absurd zero nonZero
    · cases noTip.symm.trans isSome
  · change newTip = some info' at isNewTip
    rcases isNew with ⟨noTip,_⟩ | ⟨p,isP,isSome,same,nonZero⟩
    · cases noTip.symm.trans isNewTip
    · cases isNewTip.symm.trans isSome
      have stored : archive.mainHeaderInfos.tryGet tipInfo.prevBlockHash = some info' := by
        unfold mainParentHeaderInfo at isPrev
        split at isPrev
        · cases isPrev
          cases isP
        · obtain ⟨p,isParent,isSome'⟩ := mapOk.mp isPrev
          cases isSome'.trans isP
          have found := okOrOk.mp isParent
          rw [← same,(trees.main.named found).2]
          exact found
      obtain ⟨blockInfo,contents⟩ := Option.isSome_iff_exists.mp block.contents
      obtain ⟨old,isOld,closed⟩ := trees.infos.closed contents
      cases block.stored.symm.trans isOld
      rw [same]
      refine ⟨stored,closed.resolve_left nonZero,?_⟩
      rcases block.parentWork trees with ⟨zero,_⟩ | ⟨_,work⟩
      · exact absurd zero nonZero
      · exact work

theorem TipsKept.disconnectBlock (kept : TipsKept archive Nobody Nobody) (tip : TipKnown archive)
    (trees : Trees lib world archive) {prev : Option BlockHeaderInfo} {commitment : Option BlockHash}
    {tips : SideTips} (free : archive.TipFree)
    (ok : archive.sideTips.disconnectMainchainTip prev commitment = .ok tips) :
    TipsKept { archive with sideTips := tips } Nobody Nobody := by
  obtain ⟨tipInfo,newTip,ordered,isTip,isNew,listing,rfl⟩ := disconnectMainchainSource ok
  have block := tip.block isTip
  have unlisted : ordered = archive.sideTips.orderedSidechainTips := by
    refine listing.resolve_right ?_
    rintro ⟨b,entry,found,here⟩
    exact free b entry found (here.trans block.here.symm)
  subst unlisted
  have parent : MainchainTip.blockHash ⟨archive.sideTips.mainchainTip.cumulativeWork - tipInfo.work,newTip⟩ =
      tipInfo.prevBlockHash := by
    rcases isNew with ⟨rfl,zero⟩ | ⟨p,_,rfl,same,_⟩
    · exact zero.symm
    · exact same
  exact kept.shorter trees block.stored free parent

end Disconnecting

section Runs

structure Kept (lib : Externals F) (world : World) (archive : Archive F) : Prop where
  trees : Trees lib world archive
  tips : TipsKept archive Nobody Nobody
  tip : TipKnown archive

theorem Kept.new : Kept lib world (Archive.new F) := by
  refine ⟨Trees.new,⟨fun found => ?_,fun listed => ?_,fun supported => ?_,fun b info => ?_⟩,⟨fun _ => rfl,fun some => ?_⟩⟩
  · simp [Archive.new] at found
  · simp [isListed,Archive.new] at listed
  · have stored := supported.stored
    simp [Archive.new] at stored
  · simp [Archive.new]
  · cases some

theorem Kept.added (kept : Kept lib world archive) (added : Added archive archive') (trees : Trees lib world archive') :
    Kept lib world archive' := ⟨trees,kept.tips.added added kept.tip kept.trees trees,kept.tip.added added⟩

/- The operation is not a disconnected main-chain block that a side tip is listed at. -/
def LeavesTips (archive : Archive F) : ArchiveOp → Prop
  | .handleBlockEvent (.disconnectBlock _) => archive.TipFree
  | _ => True

theorem Kept.connectEvent (kept : Kept lib world archive) {info : BlockHeaderInfo} {blockInfo : BlockInfo}
    (names : world.NamesMain info ∧ blockInfo = world.mainInfo info.blockHash)
    (ok : archive.handleBlockEvent (.connectBlock info blockInfo) = .ok archive') : Kept lib world archive' := by
  obtain ⟨first,second,commitment,tips,header,contents,listable,connected,rfl⟩ := connectEventSource ok
  have treesFirst := kept.trees.putMainHeader names.1 header
  have treesSecond := treesFirst.putMainInfo names.2 contents
  have keptSecond := (kept.added (kept.trees.addsMainHeader names.1 header) treesFirst).added
    (treesFirst.addsMainInfo names.2 contents) treesSecond
  have stored : second.mainHeaderInfos.tryGet info.blockHash = some info := by
    refine (treesFirst.addsMainInfo names.2 contents).grown.mainHeaders _ _ ?_
    obtain ⟨_,_,_,_,_,_,_,_,_,rfl⟩ := putMainHeaderSource header
    exact Table.tryGetPutSelf
  have known : second.mainBlockInfos.tryGet info.blockHash = some blockInfo := by
    obtain ⟨_,_,_,⟨_,rfl⟩ | ⟨_,_,_,_,_,_,rfl⟩⟩ := putMainInfoSource contents
    · exact Table.tryGetPutSelf
    · exact Table.tryGetPutSelf
  exact ⟨treesSecond.tips,keptSecond.tips.connectBlock keptSecond.tip treesSecond stored known listable connected,
    keptSecond.tip.connectBlock treesSecond stored (Option.isSome_iff_exists.mpr ⟨blockInfo,known⟩) connected⟩

theorem Kept.disconnectEvent (kept : Kept lib world archive) (free : archive.TipFree)
    (ok : archive.handleBlockEvent (.disconnectBlock m) = .ok archive') : Kept lib world archive' := by
  obtain ⟨info,blockInfo,parent,tips,stored,known,isParent,disconnected,rfl⟩ := disconnectEventSource ok
  exact ⟨kept.trees.tips,kept.tips.disconnectBlock kept.tip kept.trees free disconnected,
    kept.tip.disconnectBlock kept.trees isParent disconnected⟩

theorem TipKnown.sameTip (tip : TipKnown archive) (mainInfos : archive'.mainBlockInfos = archive.mainBlockInfos)
    (headers : archive'.mainHeaderInfos = archive.mainHeaderInfos) (works : archive'.totalWork = archive.totalWork)
    (same : archive'.sideTips.mainchainTip = archive.sideTips.mainchainTip) : TipKnown archive' := by
  constructor
  · rw [same]
    exact tip.start
  · rw [same,mainInfos,headers,works]
    exact tip.known

theorem Kept.step (kept : Kept lib world archive) {op : ArchiveOp} (names : op.Names lib world)
    (leaves : archive.LeavesTips op) (ok : op.apply lib archive = .ok archive') : Kept lib world archive' := by
  have trees := kept.trees.step names ok
  cases op with
  | handleBlockEvent event =>
      cases event with
      | connectBlock info blockInfo => exact kept.connectEvent names ok
      | disconnectBlock m => exact kept.disconnectEvent leaves ok
  | putMainHeaderInfo info => exact kept.added (kept.trees.addsMainHeader names ok) trees
  | putMainBlockInfo m blockInfo => exact kept.added (kept.trees.addsMainInfo names ok) trees
  | putHeader header => exact kept.added (kept.trees.addsHeader names ok) trees
  | putBody b body =>
      obtain ⟨tips,same⟩ := kept.tips.putBody kept.trees ok
      refine ⟨trees,tips,?_⟩
      obtain ⟨_,_,rfl⟩ := putBodyFrame ok
      exact kept.tip.sameTip rfl rfl rfl same
  | deleteBody b =>
      obtain ⟨tips,same⟩ := kept.tips.deleteBody kept.trees ok
      refine ⟨trees,tips,?_⟩
      obtain ⟨_,rfl⟩ := disconnectQueueFrame ok
      exact kept.tip.sameTip rfl rfl rfl same

/- A side tip listed at the disconnected block stays in the table, where it no longer belongs. -/
theorem Kept.leaves (kept : Kept lib world archive) {op : ArchiveOp} (ok : op.apply lib archive = .ok archive')
    (right : SideTipsRight archive') : archive.LeavesTips op := by
  cases op with
  | handleBlockEvent event =>
      cases event with
      | connectBlock => trivial
      | disconnectBlock m =>
          obtain ⟨_,_,_,tips,_,_,_,disconnected,rfl⟩ := disconnectEventSource ok
          obtain ⟨tipInfo,newTip,ordered,isTip,isNew,_,rfl⟩ := disconnectMainchainSource disconnected
          have block := kept.tip.block isTip
          intro b info found here
          obtain ⟨_,m,h,w,included,_,_,rfl⟩ := (right.listed b info).mp found
          change m = archive.mainTip at here
          subst here
          have onChain : archive.mainLinks.Descends archive.mainTip (MainchainTip.blockHash
            ⟨archive.sideTips.mainchainTip.cumulativeWork - tipInfo.work,newTip⟩) := included.onChain
          have nonZero := kept.trees.main.belowNonZero onChain
          rcases isNew with ⟨rfl,zero⟩ | ⟨p,_,rfl,same,_⟩
          · exact nonZero rfl
          · change archive.mainLinks.Descends archive.mainTip p.blockHash at onChain
            rw [same] at onChain
            obtain ⟨k,_,height,_⟩ := onChain
            obtain ⟨_,_,above,apart⟩ := kept.trees.main.parentAbove block.stored height
            exact apart (kept.trees.main.sound.descentAntisymm above ⟨k,_,height,‹_›⟩)
  | _ => trivial

end Runs

end Archive

def Undisturbed (lib : Externals F) (ops : List ArchiveOp) : Prop :=
  ∀ before op after archive, ops = before ++ op :: after → runArchive lib before = .ok archive → archive.LeavesTips op

theorem runTipsKept {archive : Archive F} (names : ∀ op ∈ ops, op.Names lib world)
    (leaves : ∀ before op after u v, ops = before ++ op :: after → runArchive lib before = .ok u →
      op.apply lib u = .ok v → u.Kept lib world → u.LeavesTips op) (ok : runArchive lib ops = .ok archive) :
    archive.Kept lib world := by
  refine foldHistory (P := fun _ archive => archive.Kept lib world) Archive.Kept.new ?_ ok
  intro before op after u v split reached applied kept
  have mem : op ∈ ops := by simp [split]
  exact kept.step (names op mem) (leaves before op after u v split reached applied kept) applied

/- The side tips are as specified in every state of a run if and only if no main-chain block is disconnected while a
side tip is listed at it. -/
theorem sideTipsFollowIff {archive : Archive F} (names : ∀ op ∈ ops, op.Names lib world)
    (ok : runArchive lib ops = .ok archive) :
    (∀ before after reached, ops = before ++ after → runArchive lib before = .ok reached →
      reached.SideTipsRight) ↔ Undisturbed lib ops := by
  constructor
  · intro right before op after reached split ran
    have continues (first : List ArchiveOp) (x : ArchiveOp) (last : List ArchiveOp) (u v : Archive F)
        (isSplit : ops = first ++ x :: last) (ranFirst : runArchive lib first = .ok u) (applied : x.apply lib u = .ok v) :
        v.SideTipsRight := by
      refine right (first ++ [x]) last v (by simp [isSplit]) ?_
      exact foldAppendOk.mpr ⟨u,ranFirst,foldConsOk.mpr ⟨v,applied,rfl⟩⟩
    have kept : reached.Kept lib world := by
      refine runTipsKept (fun x mem => names x (by simp [split,mem])) ?_ ran
      intro first x last u v isSplit ranFirst applied keptU
      exact keptU.leaves applied (continues first x (last ++ op :: after) u v (by simp [split,isSplit]) ranFirst applied)
    rw [split] at ok
    obtain ⟨u,ranU,rest⟩ := foldAppendOk.mp ok
    cases ran.symm.trans ranU
    obtain ⟨v,applied,_⟩ := foldConsOk.mp rest
    exact kept.leaves applied (continues before op after reached v split ran applied)
  · intro undisturbed before after reached split ran
    have kept : reached.Kept lib world := by
      refine runTipsKept (fun x mem => names x (by simp [split,mem])) ?_ ran
      intro first x last u v isSplit ranFirst _ _
      exact undisturbed first x (last ++ after) u (by simp [split,isSplit]) ranFirst
    exact kept.tips.right kept.trees

section Example

open Reference

def tipHeader : Header := ⟨0,none,1,[]⟩

def tipMain : List (BlockHeaderInfo × BlockInfo) :=
  [(⟨1,0,0,1⟩,⟨none,[]⟩),(⟨2,1,1,1⟩,⟨some (tipHeader.hash externals),[]⟩),(⟨3,2,2,1⟩,⟨none,[]⟩)]

def tipWorld : World where
  header _ := tipHeader
  mainHeader m := ((tipMain.find? (fun entry => entry.1.blockHash = m)).map (·.1)).getD ⟨0,0,0,0⟩
  mainInfo m := ((tipMain.find? (fun entry => entry.1.blockHash = m)).map (·.2)).getD ⟨none,[]⟩

def tipListed : List ArchiveOp :=
  (tipMain.take 2).map (fun entry => .handleBlockEvent (.connectBlock entry.1 entry.2)) ++
    [.putHeader tipHeader,.putBody (tipHeader.hash externals) ⟨[],[],[]⟩]

def tipFreeCheck (archive : Archive Forest) : Bool :=
  archive.sideTips.sidechainTips.entries.all (fun entry => entry.2.mainBlockHash ≠ archive.mainTip)

def undisturbedCheck (ops : List ArchiveOp) : Bool :=
  (List.range ops.length).all (fun i =>
    match runArchive externals (ops.take i),ops[i]? with
    | .ok archive,some (.handleBlockEvent (.disconnectBlock _)) => tipFreeCheck archive
    | _,_ => true)

theorem undisturbedCheckSound (checked : undisturbedCheck ops = true) : Undisturbed externals ops := by
  intro before op after archive split ran
  have here := List.all_eq_true.mp checked before.length (by simp [split])
  have taken : ops.take before.length = before := by simp [split]
  have found : ops[before.length]? = some op := by simp [split]
  rw [taken,ran,found] at here
  cases op with
  | handleBlockEvent event =>
      cases event with
      | connectBlock => trivial
      | disconnectBlock m =>
          intro b info isListed
          have entry := List.all_eq_true.mp here (b,info) (Table.memEntries.mpr isListed)
          exact of_decide_eq_true entry
  | _ => trivial

theorem sideTipsFollowEmptyBlock : ∃ archive,
    runArchive externals (tipListed ++ [.handleBlockEvent (.connectBlock ⟨3,2,2,1⟩ ⟨none,[]⟩),
      .handleBlockEvent (.disconnectBlock 3)]) = .ok archive ∧
    archive.isListed (tipHeader.hash externals) ∧ archive.SideTipsRight := by
  have names : ∀ op ∈ tipListed ++ [.handleBlockEvent (.connectBlock ⟨3,2,2,1⟩ ⟨none,[]⟩),
      .handleBlockEvent (.disconnectBlock 3)], op.Names externals tipWorld := by decide +kernel
  have undisturbed : undisturbedCheck (tipListed ++ [.handleBlockEvent (.connectBlock ⟨3,2,2,1⟩ ⟨none,[]⟩),
      .handleBlockEvent (.disconnectBlock 3)]) = true := by decide +kernel
  have checked : runsTo externals (tipListed ++ [.handleBlockEvent (.connectBlock ⟨3,2,2,1⟩ ⟨none,[]⟩),
      .handleBlockEvent (.disconnectBlock 3)]) (fun archive =>
        (archive.sideTips.sidechainTips.tryGet (tipHeader.hash externals)).isSome) = true := by decide +kernel
  obtain ⟨archive,ran,listed⟩ := runsToRun checked
  exact ⟨archive,ran,listed,(sideTipsFollowIff names ran).mpr (undisturbedCheckSound undisturbed) _ [] archive
    (List.append_nil _).symm ran⟩

/- The block that commits to the listed tip is disconnected: the entry stays. -/
theorem sideTipStays : ∃ (world : World) (archive : Archive Forest),
    (∀ op ∈ tipListed ++ [.handleBlockEvent (.disconnectBlock 2)], op.Names externals world) ∧
    runArchive externals (tipListed ++ [.handleBlockEvent (.disconnectBlock 2)]) = .ok archive ∧
    ¬ archive.SideTipsRight := by
  have names : ∀ op ∈ tipListed ++ [.handleBlockEvent (.disconnectBlock 2)], op.Names externals tipWorld := by
    decide +kernel
  have checked : runsTo externals (tipListed ++ [.handleBlockEvent (.disconnectBlock 2)]) (fun archive =>
      (archive.sideTips.sidechainTips.tryGet (tipHeader.hash externals)).any (fun info => info.mainBlockHash = 2) &&
        (archive.mainTip = 1 && archive.mainBlockHashToHeight.tryGet 1 = some 0)) = true := by decide +kernel
  obtain ⟨archive,ran,holds⟩ := runsToRun checked
  simp only [Bool.and_eq_true,Option.any_eq_true,decide_eq_true_eq] at holds
  obtain ⟨⟨info,found,isTwo⟩,isTip,isRoot⟩ := holds
  refine ⟨tipWorld,archive,names,ran,fun right => ?_⟩
  obtain ⟨_,m,h,w,⟨_,k,n,height,bound,up⟩,_,_,rfl⟩ := (right.listed _ _).mp found
  change m = 2 at isTwo
  rw [isTip] at height up
  cases (Archive.mainHeightOk.mpr isRoot).symm.trans height
  cases Nat.le_zero.mp bound
  cases isTwo
  cases up

end Example

end Coinshift
