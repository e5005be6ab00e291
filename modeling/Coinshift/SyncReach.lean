import Coinshift.MainchainSync

/-! How far a sync of the side tips gets.
The blocks between the tip and its target are connected one after the other, in batches. A block is refused when its height
does not follow, or when the archive has no result for a commitment that could be listed there. -/
namespace Coinshift
open Checked Lineage

variable {F : Type} {lib : Externals F} {world : World} {ops : List MainchainOp}

namespace Archive

variable {archive archive' : Archive F} {b c : BlockHash} {m n target : MainHash} {info : BlockHeaderInfo}
  {blockInfo : BlockInfo} {path : List BlockHeaderInfo}

section Paths

inductive MainPath (archive : Archive F) : MainHash → List BlockHeaderInfo → MainHash → Prop
  | here (m : MainHash) : MainPath archive m [] m
  | next {info : BlockHeaderInfo} {path : List BlockHeaderInfo} {n : MainHash}
      (stored : archive.mainHeaderInfos.tryGet info.blockHash = some info) (rest : MainPath archive info.blockHash path n) :
      MainPath archive info.prevBlockHash (info :: path) n

theorem MainPath.append {path' : List BlockHeaderInfo} {k : MainHash} (first : MainPath archive m path n)
    (second : MainPath archive n path' k) : MainPath archive m (path ++ path') k := by
  induction first with
  | here => exact second
  | next stored _ ih => exact .next stored (ih second)

theorem MainPath.split {path' : List BlockHeaderInfo} {k : MainHash} (whole : MainPath archive m (path ++ path') k) :
    ∃ n, MainPath archive m path n ∧ MainPath archive n path' k := by
  induction path generalizing m with
  | nil => exact ⟨m,.here m,whole⟩
  | cons info path ih =>
      cases whole with
      | next stored rest =>
          obtain ⟨n,first,second⟩ := ih rest
          exact ⟨n,.next stored first,second⟩

theorem MainTree.pathUp (tree : MainTree world archive) {steps : Nat} (above : archive.mainLinks.up steps n = some m) :
    ∃ path, MainPath archive m path n ∧ path.length = steps := by
  induction steps generalizing n with
  | zero =>
      cases above
      exact ⟨[],.here _,rfl⟩
  | succ steps ih =>
      unfold Links.up at above
      cases isParent : archive.mainLinks.parent n with
      | error e =>
          rw [isParent] at above
          cases above
      | ok p =>
          rw [isParent] at above
          obtain ⟨path,isPath,length⟩ := ih above
          obtain ⟨info,stored,rfl⟩ := mainParentOk.mp isParent
          obtain rfl := (tree.named stored).2
          exact ⟨path ++ [info],isPath.append (.next stored (.here _)),by rw [List.length_append,length]; rfl⟩

theorem MainPath.up (isPath : MainPath archive m path n) : archive.mainLinks.up path.length n = some m := by
  induction isPath with
  | here => rfl
  | @next info path n stored _ ih =>
      rw [List.length_cons,Links.upAdd,ih,Option.bind_some,Links.up,mainParentOk.mpr ⟨info,stored,rfl⟩]
      rfl

theorem MainPath.height (isPath : MainPath archive m path n) (tree : MainTree world archive) {h : Nat}
    (known : archive.mainLinks.height n = .ok h) :
    m = MainHash.allZeros ∧ path.length = h + 1 ∨
      m ≠ MainHash.allZeros ∧ ∃ k, archive.mainLinks.height m = .ok k ∧ h = k + path.length := by
  induction isPath with
  | here m => exact .inr ⟨tree.belowNonZero (Links.Descends.refl known),h,known,rfl⟩
  | @next info path n stored _ ih =>
      have isNamed := (tree.named stored).1
      rcases ih known with ⟨zero,_⟩ | ⟨_,k,height,length⟩
      · exact absurd zero isNamed.2
      · obtain ⟨k',counted,count⟩ := tree.heights.counted stored
        obtain rfl : k' = k := Option.some.inj (counted.symm.trans (mainHeightOk.mp height))
        rcases mainCounts count with ⟨zero,rfl⟩ | ⟨k,nonZero,parent,rfl⟩
        · exact .inl ⟨zero,by rw [List.length_cons,length,Nat.zero_add]⟩
        · exact .inr ⟨nonZero,k,mainHeightOk.mpr parent,by rw [List.length_cons,length]; omega⟩

theorem MainPath.line (isPath : MainPath archive m path n) {h : Nat} {line : List BlockHeaderInfo}
    (isLine : Forward.Line archive.mainchainAncestorsRev archive.mainLinks n h line) (bound : path.length ≤ h + 1) :
    path = (line.take path.length).reverse := by
  induction isPath with
  | here => rfl
  | @next info path n stored rest ih =>
      have short : path.length ≤ h := Nat.le_of_succ_le_succ bound
      obtain ⟨a,item,above,isItem,atIndex⟩ := isLine.items path.length short
      cases rest.up.symm.trans above
      obtain rfl : info = item := Option.some.inj (stored.symm.trans (okOrOk.mp isItem))
      rw [List.length_cons,List.take_add_one,atIndex,List.reverse_append,← ih isLine (Nat.le_succ_of_le short)]
      rfl

theorem MainPath.contents (isPath : MainPath archive m path n) (steady : Steady lib world archive)
    (known : (archive.mainBlockInfos.tryGet n).isSome = true) :
    (m = MainHash.allZeros ∨ (archive.mainBlockInfos.tryGet m).isSome = true) ∧
      ∀ info ∈ path, archive.mainBlockInfos.tryGet info.blockHash = some (world.mainInfo info.blockHash) := by
  induction isPath with
  | here => exact ⟨.inr known,fun _ mem => nomatch mem⟩
  | @next info path n stored _ ih =>
      obtain ⟨before,later⟩ := ih known
      obtain ⟨blockInfo,found⟩ := Option.isSome_iff_exists.mp
        (before.resolve_left (steady.trees.main.named stored).1.2)
      obtain ⟨info',stored',closed⟩ := steady.trees.infos.closed found
      cases stored.symm.trans stored'
      refine ⟨closed,fun info' mem => ?_⟩
      rcases List.mem_cons.mp mem with rfl | rest
      · rw [found,steady.trees.infos.named found]
      · exact later info' rest

end Paths

section Steps

structure MayList (archive : Archive F) (listed : BlockHash → Prop) (m : MainHash) (b : BlockHash) (header : Header) :
    Prop where
  commitment : ∃ blockInfo, archive.mainBlockInfos.tryGet m = some blockInfo ∧ blockInfo.bmmCommitment = some b
  stored : archive.headers.tryGet b = some header
  body : (archive.bodies.tryGet b).isSome = true
  parent : ∀ p, header.prevSideHash = some p → listed p

def HasResult (archive : Archive F) (b : BlockHash) (m : MainHash) : Prop :=
  ∃ result, (archive.getBmmResults b).tryGet m = some result

def listedWith (archive : Archive F) (listed : BlockHash → Prop) (m : MainHash) (b : BlockHash) : Prop :=
  listed b ∨ ∃ header, MayList archive listed m b header ∧ archive.verifiedAt b m

/- Every commitment on the way that could be listed has a result. -/
def Answered (archive : Archive F) : (BlockHash → Prop) → List BlockHeaderInfo → Prop
  | _, [] => True
  | listed, info :: path =>
      (∀ b header, MayList archive listed info.blockHash b header → HasResult archive b info.blockHash) ∧
        Answered archive (listedWith archive listed info.blockHash) path

def HeightsStep : Option BlockHeaderInfo → List BlockHeaderInfo → Prop
  | _, [] => True
  | tipInfo, info :: path => (∀ last, tipInfo = some last → info.height = last.height + 1) ∧ HeightsStep (some info) path

theorem parentUnlisted {header : Header} : header.prevSideHash.any (fun parent =>
    (archive.sideTips.sidechainTips.tryGet parent).isNone) = true ↔ ¬ ∀ p, header.prevSideHash = some p → archive.isListed p := by
  cases header.prevSideHash with
  | none => simp
  | some p => simp [isListed]

theorem listableOk (sides : SideTree lib world archive) (contents : archive.mainBlockInfos.tryGet m = some blockInfo) :
    (∃ commitment, archive.listableCommitment m blockInfo = .ok commitment) ↔
      ∀ b header, MayList archive archive.isListed m b header → HasResult archive b m := by
  cases isCommitment : blockInfo.bmmCommitment with
  | none =>
      refine ⟨fun _ b header may => ?_,fun _ => ⟨none,by rw [listableCommitment,isCommitment]; rfl⟩⟩
      obtain ⟨_,contents',isSome⟩ := may.commitment
      cases contents.symm.trans contents'
      cases isCommitment.symm.trans isSome
  | some c =>
      have own {b : BlockHash} {header : Header} (may : MayList archive archive.isListed m b header) : b = c := by
        obtain ⟨_,contents',isSome⟩ := may.commitment
        cases contents.symm.trans contents'
        exact Option.some.inj (isSome.symm.trans isCommitment)
      simp only [listableCommitment,isCommitment]
      cases body : archive.containsBody c with
      | false =>
          rw [if_pos rfl]
          refine ⟨fun _ b header may => ?_,fun _ => ⟨none,rfl⟩⟩
          obtain rfl := own may
          cases body.symm.trans may.body
      | true =>
          obtain ⟨header,stored⟩ := Option.isSome_iff_exists.mp (sides.bodies body)
          have isHeader : archive.getHeader c = .ok header := okOrOk.mpr stored
          rw [if_neg Bool.noConfusion,isHeader]
          simp only [okBind]
          by_cases parent : ∀ p, header.prevSideHash = some p → archive.isListed p
          · have may : MayList archive archive.isListed m c header := ⟨⟨blockInfo,contents,isCommitment⟩,stored,body,parent⟩
            rw [if_neg (fun unlisted => parentUnlisted.mp unlisted parent)]
            cases found : (archive.getBmmResults c).tryGet m with
            | none =>
                refine ⟨fun ⟨_,ok⟩ => ?_,fun each => ?_⟩
                · rw [getBmmResult,found] at ok
                  cases ok
                · obtain ⟨_,result⟩ := each c header may
                  cases found.symm.trans result
            | some result =>
                refine ⟨fun _ b header' may' => ?_,fun _ => ?_⟩
                · obtain rfl := own may'
                  exact ⟨result,found⟩
                · rw [getBmmResult,found]
                  cases result with
                  | verified => exact ⟨some (c,header.prevSideHash),rfl⟩
                  | failed => exact ⟨none,rfl⟩
          · rw [if_pos (parentUnlisted.mpr parent)]
            refine ⟨fun _ b header' may => ?_,fun _ => ⟨none,rfl⟩⟩
            obtain rfl := own may
            cases stored.symm.trans may.stored
            exact absurd may.parent parent

theorem listableOwn {commitment : Option (BlockHash × Option BlockHash)}
    (ok : archive.listableCommitment m blockInfo = .ok commitment) :
    ∀ b prevSideHash, commitment = some (b,prevSideHash) → blockInfo.bmmCommitment = some b := by
  intro b prevSideHash isSome
  subst isSome
  unfold listableCommitment at ok
  split at ok
  · cases ok
  · next c isCommitment =>
      split at ok
      · cases ok
      · simp only [bindOk] at ok
        obtain ⟨_,_,ok⟩ := ok
        split at ok
        · cases ok
        · simp only [bindOk] at ok
          obtain ⟨result,_,ok⟩ := ok
          cases result with
          | verified =>
              cases ok
              exact isCommitment
          | failed => cases ok

theorem mayListSupported {header : Header} (contents : archive.mainBlockInfos.tryGet m = some blockInfo) :
    MayList archive archive.isListed m b header ↔ blockInfo.bmmCommitment = some b ∧ Supported archive b header := by
  constructor
  · intro may
    obtain ⟨_,contents',isSome⟩ := may.commitment
    cases contents.symm.trans contents'
    exact ⟨isSome,may.stored,may.body,may.parent⟩
  · intro ⟨isSome,supported⟩
    exact ⟨⟨blockInfo,contents,isSome⟩,supported.stored,supported.body,supported.parent⟩

theorem Steady.connectOk (steady : Steady lib world archive)
    (contents : archive.mainBlockInfos.tryGet info.blockHash = some blockInfo) (parent : info.prevBlockHash = archive.mainTip) :
    (∃ archive', archive.connectMainBlock info blockInfo = .ok archive') ↔
      (∀ last, archive.sideTips.mainchainTip.tipInfo = some last → info.height = last.height + 1) ∧
        ∀ b header, MayList archive archive.isListed info.blockHash b header → HasResult archive b info.blockHash := by
  rw [← listableOk steady.trees.sides contents]
  constructor
  · rintro ⟨archive',ok⟩
    obtain ⟨commitment,tips,listable,connected,_⟩ := connectMainSource ok
    simp only [SideTips.connectMainchainTip,bindOk] at connected
    obtain ⟨_,_,_,height,_⟩ := connected
    exact ⟨ensureSomeOk.mp height,commitment,listable⟩
  · rintro ⟨height,commitment,listable⟩
    have isParent : info.prevBlockHash = archive.sideTips.mainchainTip.blockHash := parent
    have connects : ∃ tips, archive.sideTips.connectMainchainTip info commitment = .ok tips := by
      have follows : ensure (info.prevBlockHash = archive.sideTips.mainchainTip.blockHash)
          (ConnectMainchainTipError.invalidMainchainParent archive.sideTips.mainchainTip.blockHash) = .ok () :=
        ensureOk.mpr isParent
      have steps : ensureSome archive.sideTips.mainchainTip.tipInfo (fun tipInfo => info.height = tipInfo.height + 1)
          (fun tipInfo => ConnectMainchainTipError.invalidTipHeight (tipInfo.height + 1)) = .ok () := ensureSomeOk.mpr height
      simp only [SideTips.connectMainchainTip,follows,steps,okBind]
      cases commitment with
      | none => exact ⟨_,rfl⟩
      | some pair =>
          obtain ⟨b,prevSideHash⟩ := pair
          obtain ⟨_,header,supported,rfl⟩ := (listableSource listable).1 b prevSideHash rfl
          have listed : ∃ tips, archive.sideTips.connectSidechainTip info.blockHash
              (archive.sideTips.mainchainTip.cumulativeWork + info.work) b header.prevSideHash = .ok tips := by
            unfold SideTips.connectSidechainTip
            cases isPrev : header.prevSideHash with
            | none =>
                simp only [pure,Except.pure,okBind]
                split <;> exact ⟨_,rfl⟩
            | some p =>
                obtain ⟨entry,found⟩ := isListedSome.mp (supported.parent p isPrev)
                simp only [found,okOr,pure,Except.pure,okBind]
                split <;> exact ⟨_,rfl⟩
          obtain ⟨tips,listed⟩ := listed
          simp only [listed,Except.mapError,okBind]
          exact ⟨_,rfl⟩
    obtain ⟨tips,connects⟩ := connects
    refine ⟨{ archive with sideTips := tips },?_⟩
    simp only [connectMainBlock,listable,connects,Except.mapError,okBind]
    rfl

theorem connectLists (contents : archive.mainBlockInfos.tryGet info.blockHash = some blockInfo)
    (ok : archive.connectMainBlock info blockInfo = .ok archive') :
    SameButTips archive archive' ∧ archive'.sideTips.mainchainTip.tipInfo = some info ∧
      archive'.isListed = listedWith archive archive.isListed info.blockHash := by
  obtain ⟨commitment,tips,listable,connected,rfl⟩ := connectMainSource ok
  obtain ⟨isListable,notListable⟩ := listableSource listable
  obtain ⟨_,listed,rfl,entry⟩ := connectMainchainSource connected
  refine ⟨⟨_,rfl⟩,rfl,funext fun b => propext ?_⟩
  have mayList {header : Header} := @mayListSupported _ archive b info.blockHash blockInfo header contents
  rcases entry with ⟨none,rfl⟩ | ⟨c,prevSideHash,isSome,connects⟩
  · refine ⟨.inl,fun either => either.resolve_right (fun ⟨header,may,verified⟩ => ?_)⟩
    obtain ⟨isCommitment,supported⟩ := mayList.mp may
    exact notListable none b header isCommitment supported verified
  · obtain ⟨verified,header,supported,rfl⟩ := isListable c prevSideHash isSome
    have isCommitment := listableOwn listable c _ isSome
    have own {b : BlockHash} {header : Header} (may : MayList archive archive.isListed info.blockHash b header) : b = c :=
      Option.some.inj (((mayListSupported contents).mp may).1.symm.trans isCommitment)
    have may : MayList archive archive.isListed info.blockHash c header :=
      (mayListSupported contents).mpr ⟨isCommitment,supported⟩
    obtain ⟨_,_,⟨present,rfl⟩ | ⟨_,rfl⟩⟩ := connectTipSource connects
    · refine ⟨.inl,fun either => either.elim id (fun ⟨_,may',_⟩ => ?_)⟩
      obtain rfl := own may'
      exact present
    · simp only [isListed,Table.tryGetPut]
      by_cases here : b = c
      · subst here
        exact ⟨fun _ => .inr ⟨header,may,verified⟩,fun _ => by rw [if_pos rfl]; rfl⟩
      · rw [if_neg here]
        exact ⟨.inl,fun either => either.elim id (fun ⟨_,may',_⟩ => absurd (own may') here)⟩

end Steps

section Runs

variable {now last : Archive F}

def connectOf (world : World) (info : BlockHeaderInfo) : MainchainEvent :=
  .connectBlock info (world.mainInfo info.blockHash)

theorem SameButTips.mayList {listed : BlockHash → Prop} {header : Header} (same : SameButTips archive now) :
    MayList now listed m b header ↔ MayList archive listed m b header := by
  obtain ⟨_,rfl⟩ := same
  exact ⟨fun may => ⟨may.commitment,may.stored,may.body,may.parent⟩,fun may => ⟨may.commitment,may.stored,may.body,may.parent⟩⟩

theorem SameButTips.hasResult (same : SameButTips archive now) : HasResult now b m ↔ HasResult archive b m := by
  obtain ⟨_,rfl⟩ := same
  rfl

theorem SameButTips.listedWith {listed : BlockHash → Prop} (same : SameButTips archive now) :
    listedWith now listed m = listedWith archive listed m := by
  refine funext fun b => propext (or_congr Iff.rfl (exists_congr fun header => and_congr same.mayList ?_))
  obtain ⟨_,rfl⟩ := same
  rfl

theorem pathStep (steady : Steady lib world now) (same : SameButTips archive now)
    (stored : archive.mainHeaderInfos.tryGet info.blockHash = some info)
    (contents : archive.mainBlockInfos.tryGet info.blockHash = some (world.mainInfo info.blockHash))
    {next : Archive F} (connected : syncEvent now (connectOf world info) = .ok next) :
    Steady lib world next ∧ SameButTips archive next ∧ next.mainTip = info.blockHash ∧
      next.sideTips.mainchainTip.tipInfo = some info ∧
      next.isListed = listedWith archive now.isListed info.blockHash := by
  obtain ⟨tips,rfl⟩ := same
  have steadyNext := @Steady.connect _ _ _ _ next info _ steady stored contents connected
  obtain ⟨kept,isTip,lists⟩ := @connectLists _ { archive with sideTips := tips } next info _ contents connected
  have same : SameButTips archive { archive with sideTips := tips } := ⟨tips,rfl⟩
  refine ⟨steadyNext,same.trans kept,?_,isTip,lists.trans same.listedWith⟩
  rw [mainTip,MainchainTip.blockHash,isTip]

theorem MainPath.connects (isPath : MainPath archive m path n) (steady : Steady lib world now)
    (same : SameButTips archive now) (onTip : now.mainTip = m)
    (contents : ∀ info ∈ path, archive.mainBlockInfos.tryGet info.blockHash = some (world.mainInfo info.blockHash)) :
    (∃ last, (path.map (connectOf world)).foldlM syncEvent now = .ok last) ↔
      HeightsStep now.sideTips.mainchainTip.tipInfo path ∧ Answered archive now.isListed path := by
  induction isPath generalizing now with
  | here => exact ⟨fun _ => ⟨trivial,trivial⟩,fun _ => ⟨now,rfl⟩⟩
  | @next info path n stored rest ih =>
      have isContents := contents info List.mem_cons_self
      have later := fun info' mem => contents info' (List.mem_cons_of_mem info mem)
      have known : now.mainBlockInfos.tryGet info.blockHash = some (world.mainInfo info.blockHash) := by
        obtain ⟨_,rfl⟩ := same
        exact isContents
      have first := steady.connectOk known onTip.symm
      simp only [same.mayList,same.hasResult] at first
      constructor
      · intro ⟨last,ok⟩
        obtain ⟨next,connected,ok⟩ := foldConsOk.mp ok
        obtain ⟨height,answered⟩ := first.mp ⟨next,connected⟩
        obtain ⟨steadyNext,sameNext,onNext,isTip,lists⟩ := pathStep steady same stored isContents connected
        obtain ⟨heights,answers⟩ := (ih steadyNext sameNext onNext later).mp ⟨last,ok⟩
        rw [isTip] at heights
        rw [lists] at answers
        exact ⟨⟨height,heights⟩,answered,answers⟩
      · intro ⟨⟨height,heights⟩,answered,answers⟩
        obtain ⟨next,connected⟩ := first.mpr ⟨height,answered⟩
        obtain ⟨steadyNext,sameNext,onNext,isTip,lists⟩ := pathStep steady same stored isContents connected
        rw [← isTip] at heights
        rw [← lists] at answers
        obtain ⟨last,ok⟩ := (ih steadyNext sameNext onNext later).mpr ⟨heights,answers⟩
        exact ⟨last,foldConsOk.mpr ⟨next,connected,ok⟩⟩

theorem MainPath.ends (isPath : MainPath archive m path n) (steady : Steady lib world now)
    (same : SameButTips archive now) (onTip : now.mainTip = m)
    (contents : ∀ info ∈ path, archive.mainBlockInfos.tryGet info.blockHash = some (world.mainInfo info.blockHash))
    (ok : (path.map (connectOf world)).foldlM syncEvent now = .ok last) :
    Steady lib world last ∧ SameButTips archive last ∧ last.mainTip = n := by
  induction isPath generalizing now with
  | here =>
      cases ok
      exact ⟨steady,same,onTip⟩
  | @next info path n stored rest ih =>
      obtain ⟨next,connected,ok⟩ := foldConsOk.mp ok
      obtain ⟨steadyNext,sameNext,onNext,_⟩ :=
        pathStep steady same stored (contents info List.mem_cons_self) connected
      exact ih steadyNext sameNext onNext (fun info' mem => contents info' (List.mem_cons_of_mem info mem)) ok

theorem connectMany {infos : List BlockHeaderInfo} {events : List MainchainEvent}
    (same : SameButTips archive now)
    (contents : ∀ info ∈ infos, archive.mainBlockInfos.tryGet info.blockHash = some (world.mainInfo info.blockHash))
    (ok : (infos.map (connectOf world)).foldlM syncEvent now = .ok last) :
    infos.foldlM connectNext ⟨now,now.sideTips.mainchainTip.tipInfo,events⟩ =
      .ok ⟨last,last.sideTips.mainchainTip.tipInfo,events ++ infos.map (connectOf world)⟩ := by
  induction infos generalizing now events with
  | nil =>
      cases ok
      rw [List.map_nil,List.append_nil]
      rfl
  | cons info infos ih =>
      obtain ⟨next,connected,others⟩ := foldConsOk.mp ok
      have isContents := contents info List.mem_cons_self
      obtain ⟨tips,rfl⟩ := same
      have isInfo : Archive.getMainBlockInfo { archive with sideTips := tips } info.blockHash =
          .ok (world.mainInfo info.blockHash) := okOrOk.mpr isContents
      obtain ⟨kept,isTip,_⟩ := @connectLists _ { archive with sideTips := tips } next info _ isContents connected
      have connects : Archive.connectMainBlock { archive with sideTips := tips } info (world.mainInfo info.blockHash) =
        .ok next := connected
      refine foldConsOk.mpr ⟨⟨next,some info,events ++ [connectOf world info]⟩,?_,?_⟩
      · simp only [connectNext,isInfo,connects,okBind]
        rfl
      · rw [← isTip,ih (SameButTips.trans ⟨tips,rfl⟩ kept) (fun info' mem => contents info' (List.mem_cons_of_mem info mem)) others]
        rw [List.map_cons,List.append_assoc]
        rfl

theorem MainPath.endHeight {targetInfo : BlockHeaderInfo} (isPath : MainPath archive m path n) (here : info.blockHash = m)
    (stored : archive.mainHeaderInfos.tryGet info.blockHash = some info)
    (target : archive.mainHeaderInfos.tryGet n = some targetInfo) (steps : HeightsStep (some info) path) :
    targetInfo.height = info.height + path.length := by
  induction isPath generalizing info with
  | here m =>
      subst here
      cases stored.symm.trans target
      rfl
  | @next next path n isStored rest ih =>
      obtain ⟨first,later⟩ := steps
      rw [ih rfl isStored target later,first info rfl,List.length_cons]
      omega

/- The first height that is told at most 31 blocks too high can be walked to. -/
def StartsLow (tipInfo : Option BlockHeaderInfo) (path : List BlockHeaderInfo) : Prop :=
  tipInfo = none → ∀ info, path.head? = some info → info.height < maxBatchSize

theorem MainPath.batch (isPath : MainPath now now.mainTip path target) (steady : Steady lib world now)
    {targetInfo : BlockHeaderInfo} (stored : now.mainHeaderInfos.tryGet target = some targetInfo)
    (fits : targetInfo.height ≤ maxU32) (steps : HeightsStep now.sideTips.mainchainTip.tipInfo path)
    (low : StartsLow now.sideTips.mainchainTip.tipInfo path) (left : path ≠ []) :
    now.mainAncestorBatch target (startHeight now.sideTips.mainchainTip.tipInfo) = .ok (path.take batchSize) := by
  obtain ⟨h,known⟩ := steady.trees.main.stored (Option.isSome_iff_exists.mpr ⟨targetInfo,stored⟩)
  have places := isPath.height steady.trees.main known
  have positive : 0 < path.length := List.length_pos_iff.mpr left
  cases isTip : now.sideTips.mainchainTip.tipInfo with
  | some last =>
      obtain ⟨tipStored,_,_⟩ := steady.tip.known isTip
      have onTip : last.blockHash = now.mainTip := by rw [mainTip,MainchainTip.blockHash,isTip]
      rw [isTip] at steps
      have ends := isPath.endHeight onTip tipStored stored steps
      obtain ⟨k,_,rfl⟩ : ∃ k, now.mainLinks.height now.mainTip = .ok k ∧ h = k + path.length := by
        rcases places with ⟨zero,_⟩ | ⟨_,place⟩
        · exact absurd (onTip.trans zero) (steady.trees.main.named tipStored).1.2
        · exact place
      have reach : targetInfo.height - startHeight (some last) < k + path.length + maxBatchSize := by
        simp only [startHeight,Option.elim_some]
        unfold maxBatchSize
        omega
      obtain ⟨line,isLine,taken⟩ := steady.trees.main.forward known stored fits reach
      have count : targetInfo.height + 1 - startHeight (some last) = path.length := by
        simp only [startHeight,Option.elim_some]
        omega
      rw [mainAncestorBatch,taken,count,← isPath.line isLine (by omega)]
  | none =>
      have noTip : now.mainTip = MainHash.allZeros := by rw [mainTip,MainchainTip.blockHash,isTip]
      have length : path.length = h + 1 := places.elim And.right (fun place => absurd noTip place.1)
      cases path with
      | nil => exact absurd rfl left
      | cons first rest =>
          generalize isZero : now.mainTip = zero at isPath
          cases isPath with
          | next isStored others =>
              have whole : MainPath now first.prevBlockHash (first :: rest) target := .next isStored others
              have ends := others.endHeight rfl isStored stored steps.2
              have height := low isTip first rfl
              rw [List.length_cons] at length
              have reach : targetInfo.height - startHeight none < h + maxBatchSize := by
                simp only [startHeight,Option.elim_none]
                omega
              obtain ⟨line,isLine,taken⟩ := steady.trees.main.forward known stored fits reach
              have every : line.take (targetInfo.height + 1 - startHeight none) = line.take (first :: rest).length := by
                simp only [startHeight,Option.elim_none]
                rw [List.take_of_length_le (by rw [isLine.length]; omega),
                  List.take_of_length_le (by rw [isLine.length,List.length_cons]; omega)]
              rw [mainAncestorBatch,taken,every,← whole.line isLine (by rw [List.length_cons]; omega)]

end Runs

section Loops

variable {now last : Archive F} {targetInfo : BlockHeaderInfo} {events : List MainchainEvent}

theorem MainPath.same (isPath : MainPath archive m path n) (same : SameButTips archive now) : MainPath now m path n := by
  induction isPath with
  | here m => exact .here m
  | next stored _ ih =>
      obtain ⟨tips,rfl⟩ := same
      exact .next stored ih

theorem MainPath.nothing (isPath : MainPath archive m [] n) : m = n := by
  cases isPath
  rfl

theorem extractedTip : extractTip now.sideTips.mainchainTip.tipInfo = now.mainTip := by
  rw [mainTip,MainchainTip.blockHash]
  cases now.sideTips.mainchainTip.tipInfo <;> rfl

theorem MainPath.proper (isPath : MainPath archive m path n) (tree : MainTree world archive) (left : path ≠ []) {h : Nat}
    (known : archive.mainLinks.height n = .ok h) : m ≠ n ∧ path.length ≤ h + 1 := by
  have positive : 0 < path.length := List.length_pos_iff.mpr left
  rcases isPath.height tree known with ⟨zero,length⟩ | ⟨_,k,height,length⟩
  · exact ⟨fun same => tree.belowNonZero (Links.Descends.refl known) (same.symm.trans zero),Nat.le_of_eq length⟩
  · refine ⟨fun same => ?_,by omega⟩
    rw [same,known] at height
    have even := Except.ok.inj height
    omega

/- By induction on the rounds left: each connects the next batch. -/
theorem MainPath.synced {fuel : Nat} (isPath : MainPath now now.mainTip path target) (steady : Steady lib world now)
    (stored : now.mainHeaderInfos.tryGet target = some targetInfo) (fits : targetInfo.height ≤ maxU32)
    (contents : ∀ info ∈ path, now.mainBlockInfos.tryGet info.blockHash = some (world.mainInfo info.blockHash))
    (low : StartsLow now.sideTips.mainchainTip.tipInfo path)
    (ok : (path.map (connectOf world)).foldlM syncEvent now = .ok last) (enough : path.length ≤ fuel) :
    connectUntil target fuel ⟨now,now.sideTips.mainchainTip.tipInfo,events⟩ =
      .ok ⟨last,last.sideTips.mainchainTip.tipInfo,events ++ path.map (connectOf world)⟩ := by
  induction fuel generalizing now path events with
  | zero =>
      obtain rfl := List.eq_nil_of_length_eq_zero (Nat.le_zero.mp enough)
      cases ok
      rw [Archive.connectUntil,if_pos (extractedTip.trans isPath.nothing),List.map_nil,List.append_nil]
      rfl
  | succ fuel ih =>
      obtain ⟨h,known⟩ := steady.trees.main.stored (Option.isSome_iff_exists.mpr ⟨targetInfo,stored⟩)
      by_cases left : path = []
      · subst left
        cases ok
        rw [Archive.connectUntil,if_pos (extractedTip.trans isPath.nothing),List.map_nil,List.append_nil]
        rfl
      · obtain ⟨other,bound⟩ := isPath.proper steady.trees.main left known
        obtain ⟨steps,_⟩ := (isPath.connects steady .refl rfl contents).mp ⟨last,ok⟩
        have isBatch := isPath.batch steady stored fits steps low left
        have positive : 0 < path.length := List.length_pos_iff.mpr left
        have parts : path.take batchSize ++ path.drop batchSize = path := List.take_append_drop batchSize path
        have contentsFirst : ∀ info ∈ path.take batchSize,
            now.mainBlockInfos.tryGet info.blockHash = some (world.mainInfo info.blockHash) :=
          fun info mem => contents info (List.mem_of_mem_take mem)
        have contentsRest : ∀ info ∈ path.drop batchSize,
            now.mainBlockInfos.tryGet info.blockHash = some (world.mainInfo info.blockHash) :=
          fun info mem => contents info (List.mem_of_mem_drop mem)
        rw [← parts,List.map_append] at ok
        obtain ⟨middle,first,rest⟩ := foldAppendOk.mp ok
        have whole := isPath
        rw [← parts] at whole
        obtain ⟨n,before,after⟩ := whole.split
        obtain ⟨steadyMiddle,same,onMiddle⟩ := before.ends steady .refl rfl contentsFirst first
        have afterMiddle := after.same same
        rw [← onMiddle] at afterMiddle
        have begun : StartsLow middle.sideTips.mainchainTip.tipInfo (path.drop batchSize) := by
          intro noTip
          have zero : n = MainHash.allZeros := by rw [← onMiddle,mainTip,MainchainTip.blockHash,noTip]
          rcases after.height steady.trees.main known with ⟨_,length⟩ | ⟨nonZero,_⟩
          · rw [List.length_drop] at length
            unfold batchSize at length
            omega
          · exact absurd zero nonZero
        have shorter : (path.drop batchSize).length ≤ fuel := by
          rw [List.length_drop]
          unfold batchSize
          omega
        have many := @connectMany _ _ now now middle _ events .refl contentsFirst first
        have storedMiddle : middle.mainHeaderInfos.tryGet target = some targetInfo := by
          obtain ⟨_,rfl⟩ := same
          exact stored
        have contentsMiddle : ∀ info ∈ path.drop batchSize,
            middle.mainBlockInfos.tryGet info.blockHash = some (world.mainInfo info.blockHash) := by
          obtain ⟨_,rfl⟩ := same
          exact contentsRest
        have others := @ih (path.drop batchSize) middle (events ++ (path.take batchSize).map (connectOf world)) afterMiddle
          steadyMiddle storedMiddle contentsMiddle begun rest shorter
        rw [Archive.connectUntil,if_neg (fun same => other (extractedTip.symm.trans same))]
        simp only [isBatch,many,okBind]
        rw [others,List.append_assoc,← List.map_append,parts]

/- A height that is told too high: the first batch is refused. -/
theorem MainPath.refused {fuel : Nat} (isPath : MainPath now now.mainTip path target) (steady : Steady lib world now)
    (stored : now.mainHeaderInfos.tryGet target = some targetInfo) (steps : HeightsStep now.sideTips.mainchainTip.tipInfo path)
    (high : ¬ StartsLow now.sideTips.mainchainTip.tipInfo path) :
    ∃ err, connectUntil target fuel ⟨now,now.sideTips.mainchainTip.tipInfo,events⟩ = .error err := by
  unfold StartsLow at high
  simp only [Classical.not_forall] at high
  obtain ⟨isTip,first,isFirst,tall⟩ := high
  obtain ⟨h,known⟩ := steady.trees.main.stored (Option.isSome_iff_exists.mpr ⟨targetInfo,stored⟩)
  cases path with
  | nil => cases isFirst
  | cons info rest =>
      cases isFirst
      obtain ⟨other,_⟩ := isPath.proper steady.trees.main (List.cons_ne_nil first rest) known
      have noTip : now.mainTip = MainHash.allZeros := by rw [mainTip,MainchainTip.blockHash,isTip]
      have length := (isPath.height steady.trees.main known).elim And.right (fun place => absurd noTip place.1)
      rw [List.length_cons] at length
      have ends : targetInfo.height = first.height + rest.length := by
        generalize isZero : now.mainTip = zero at isPath
        cases isPath with
        | next isStored others => exact others.endHeight rfl isStored stored steps.2
      have endHeight : now.mainchainAncestorsRev.endHeight target = .ok targetInfo.height := by
        simp only [mainchainAncestorsRev,getMainHeaderInfo,stored]
        rfl
      have beyond : h + maxBatchSize ≤ targetInfo.height - 0 := by omega
      obtain ⟨err,refused⟩ := steady.trees.main.reads.tooHigh known endHeight beyond (batchSize - 1)
      have goesOn : ¬ extractTip now.sideTips.mainchainTip.tipInfo = target := fun same => other (extractedTip.symm.trans same)
      cases fuel with
      | zero => exact ⟨.endless,by rw [Archive.connectUntil,if_neg goesOn]⟩
      | succ fuel =>
          have isBatch : now.mainAncestorBatch target (startHeight now.sideTips.mainchainTip.tipInfo) = .error err := by
            rw [isTip]
            exact refused
          refine ⟨err,?_⟩
          rw [Archive.connectUntil,if_neg goesOn]
          simp only [isBatch]
          rfl

end Loops

section Reaching

theorem Steady.syncStarts (steady : Steady lib world archive) (stored : (archive.mainHeaderInfos.tryGet target).isSome = true)
    (onChain : archive.sideTips.mainchainTip.tipInfo = none ∨ archive.mainLinks.Descends archive.mainTip target) :
    archive.syncSideTipsToTip target = (connectUntil target (archive.mainHeaderInfos.entries.length + 1)
      ⟨archive,archive.sideTips.mainchainTip.tipInfo,[]⟩).map (fun sync => (sync.archive,sync.events)) := by
  have starts : ∃ common, archive.syncAncestor target = .ok common ∧
      ∀ info, archive.sideTips.mainchainTip.tipInfo = some info → info.blockHash = common := by
    obtain ⟨h,known⟩ := steady.trees.main.stored stored
    have nonZero := steady.trees.main.belowNonZero (Links.Descends.refl known)
    have ancestor : archive.syncAncestor target = if archive.sideTips.mainchainTip.blockHash = MainHash.allZeros ∨
        target = MainHash.allZeros then pure MainHash.allZeros
        else archive.lastCommonMainAncestor target archive.sideTips.mainchainTip.blockHash := rfl
    rw [ancestor]
    cases isTip : archive.sideTips.mainchainTip.tipInfo with
    | none =>
        refine ⟨MainHash.allZeros,?_,fun _ isSome => absurd isSome.symm (Option.some_ne_none _)⟩
        rw [MainchainTip.blockHash,isTip]
        exact if_pos (.inl rfl)
    | some info =>
        have onTip : archive.sideTips.mainchainTip.blockHash = info.blockHash := by rw [MainchainTip.blockHash,isTip]
        have descends : archive.mainLinks.Descends info.blockHash target := by
          rw [← onTip]
          exact onChain.resolve_left (fun none => Option.some_ne_none info (isTip.symm.trans none))
        obtain ⟨tipStored,_,_⟩ := steady.tip.known isTip
        have tipZero := (steady.trees.main.named tipStored).1.2
        obtain ⟨k,_,heightTip,_⟩ := steady.trees.main.sound.descent descends known
        refine ⟨info.blockHash,?_,fun _ isSome => congrArg _ (Option.some.inj isSome).symm⟩
        rw [onTip,if_neg (not_or.mpr ⟨tipZero,nonZero⟩)]
        exact steady.trees.main.sound.lastCommonBelow known heightTip descends
  obtain ⟨common,isCommon,atTip⟩ := starts
  have stays : disconnectUntil common (archive.mainHeaderInfos.entries.length + 1)
      ⟨archive,archive.sideTips.mainchainTip.tipInfo,[]⟩ = .ok ⟨archive,archive.sideTips.mainchainTip.tipInfo,[]⟩ := by
    rw [Archive.disconnectUntil]
    cases isTip : archive.sideTips.mainchainTip.tipInfo with
    | none => rfl
    | some info =>
        simp only [atTip info isTip,if_true]
        rfl
  simp only [syncSideTipsToTip,isCommon,stays,okBind]
  cases connectUntil target (archive.mainHeaderInfos.entries.length + 1)
    ⟨archive,archive.sideTips.mainchainTip.tipInfo,[]⟩ <;> rfl

theorem MainTree.heightBound (tree : MainTree world archive) {h : Nat} (known : archive.mainLinks.height m = .ok h) :
    h < archive.mainHeaderInfos.entries.length := by
  have every : List.range (h + 1) ⊆ archive.mainHeaderInfos.entries.map (fun entry =>
      (archive.mainBlockHashToHeight.tryGet entry.1).getD 0) := by
    intro k mem
    have le : k ≤ h := Nat.le_of_lt_succ (List.mem_range.mp mem)
    obtain ⟨a,_,isHeight⟩ := tree.sound.upHeight known (Nat.sub_le h k)
    rw [Nat.sub_sub_self le] at isHeight
    obtain ⟨info,stored⟩ := tree.heights.only (mainHeightOk.mp isHeight)
    refine List.mem_map.mpr ⟨(a,info),Table.memEntries.mpr stored,?_⟩
    rw [mainHeightOk.mp isHeight]
    rfl
  simpa using List.nodup_range.length_le_of_subset every

def Reaches (world : World) (archive : Archive F) (path : List BlockHeaderInfo) (target : MainHash) : Prop :=
  ∃ synced, archive.syncSideTipsToTip target = .ok (synced,path.map (connectOf world)) ∧
    synced.sideTips.mainchainTip.blockHash = target ∧
    archive.totalWork.tryGet target = some synced.sideTips.mainchainTip.cumulativeWork

theorem MainPath.reaches {targetInfo : BlockHeaderInfo} (isPath : MainPath archive archive.mainTip path target)
    (steady : Steady lib world archive) (stored : archive.mainHeaderInfos.tryGet target = some targetInfo)
    (contents : (archive.mainBlockInfos.tryGet target).isSome = true) (fits : targetInfo.height ≤ maxU32)
    (onChain : archive.sideTips.mainchainTip.tipInfo = none ∨ archive.mainLinks.Descends archive.mainTip target) :
    Reaches world archive path target ↔ HeightsStep archive.sideTips.mainchainTip.tipInfo path ∧
      StartsLow archive.sideTips.mainchainTip.tipInfo path ∧ Answered archive archive.isListed path := by
  have isStored := Option.isSome_iff_exists.mpr ⟨targetInfo,stored⟩
  have starts := steady.syncStarts isStored onChain
  obtain ⟨_,every⟩ := isPath.contents steady contents
  have connects := isPath.connects steady .refl rfl every
  obtain ⟨h,known⟩ := steady.trees.main.stored isStored
  constructor
  · intro ⟨synced,done,_⟩
    obtain ⟨replays,_⟩ := steady.sync done
    obtain ⟨steps,answered⟩ := connects.mp ⟨synced,replays⟩
    refine ⟨steps,Classical.byContradiction (fun high => ?_),answered⟩
    obtain ⟨err,refused⟩ := @MainPath.refused _ _ _ _ path archive targetInfo [] (archive.mainHeaderInfos.entries.length + 1) isPath
      steady stored steps high
    rw [starts,refused] at done
    cases done
  · intro ⟨steps,low,answered⟩
    obtain ⟨last,ok⟩ := connects.mpr ⟨steps,answered⟩
    have enough : path.length ≤ archive.mainHeaderInfos.entries.length + 1 := by
      have bound := steady.trees.main.heightBound known
      by_cases left : path = []
      · subst left
        exact Nat.zero_le _
      · have short := (isPath.proper steady.trees.main left known).2
        omega
    obtain ⟨steadyLast,same,onLast⟩ := isPath.ends steady .refl rfl every ok
    refine ⟨last,?_,onLast,?_⟩
    · rw [starts,isPath.synced steady stored fits every low ok enough]
      rfl
    · cases isTip : last.sideTips.mainchainTip.tipInfo with
      | none =>
          have zero : target = MainHash.allZeros := by rw [← onLast,mainTip,MainchainTip.blockHash,isTip]
          exact absurd zero (steady.trees.main.belowNonZero (Links.Descends.refl known))
      | some info =>
          obtain ⟨_,_,work⟩ := steadyLast.tip.known isTip
          have here : info.blockHash = target := by rw [← onLast,mainTip,MainchainTip.blockHash,isTip]
          rw [here] at work
          obtain ⟨_,rfl⟩ := same
          exact work

end Reaching

theorem Steady.pathExists (steady : Steady lib world archive) (stored : (archive.mainHeaderInfos.tryGet target).isSome = true)
    (onChain : archive.sideTips.mainchainTip.tipInfo = none ∨ archive.mainLinks.Descends archive.mainTip target) :
    ∃ path, MainPath archive archive.mainTip path target := by
  obtain ⟨h,known⟩ := steady.trees.main.stored stored
  rcases onChain with isTip | descends
  · obtain ⟨root,info,above,isRoot,zero⟩ := steady.trees.main.generations known
    have noTip : archive.mainTip = MainHash.allZeros := by rw [mainTip,MainchainTip.blockHash,isTip]
    have before : archive.mainLinks.up (h + 1) target = some archive.mainTip := by
      rw [Links.upAdd,above,Option.bind_some,Links.up,mainParentOk.mpr ⟨info,isRoot,rfl⟩,noTip,← zero]
      rfl
    obtain ⟨path,isPath,_⟩ := steady.trees.main.pathUp before
    exact ⟨path,isPath⟩
  · obtain ⟨_,_,_,above⟩ := steady.trees.main.sound.descent descends known
    obtain ⟨path,isPath,_⟩ := steady.trees.main.pathUp above
    exact ⟨path,isPath⟩

end Archive

open Archive Reference

/- A sync reaches its target exactly if the heights on the way follow each other and every commitment that could be listed
there has a result. -/
theorem syncReachesIff {archive : Archive F} {target : MainHash} {targetInfo : BlockHeaderInfo}
    (names : ∀ op ∈ ops, op.Names lib world) (ok : runMainchain lib ops = .ok archive)
    (stored : archive.mainHeaderInfos.tryGet target = some targetInfo)
    (contents : (archive.mainBlockInfos.tryGet target).isSome = true) (fits : targetInfo.height ≤ maxU32)
    (onChain : archive.sideTips.mainchainTip.tipInfo = none ∨ archive.mainLinks.Descends archive.mainTip target) :
    (∃ path, MainPath archive archive.mainTip path target) ∧ ∀ path, MainPath archive archive.mainTip path target →
      (Reaches world archive path target ↔ HeightsStep archive.sideTips.mainchainTip.tipInfo path ∧
        StartsLow archive.sideTips.mainchainTip.tipInfo path ∧ Answered archive archive.isListed path) := by
  have steady := runMainchainSteady names ok
  refine ⟨steady.pathExists (Option.isSome_iff_exists.mpr ⟨targetInfo,stored⟩) onChain,fun path isPath => ?_⟩
  exact isPath.reaches steady stored contents fits onChain

def secondAnswered (archive : Archive Forest) : Bool :=
  (archive.mainHeaderInfos.tryGet 2 = some (tipInfo 2) && archive.mainBlockInfos.tryGet 2 = some (tipWorld.mainInfo 2)) &&
    (archive.sideTips.mainchainTip.tipInfo = some (tipInfo 1) &&
      ((archive.getBmmResults (tipHeader.hash externals)).tryGet 2).isSome)

theorem secondBlockReached : ∃ archive, runMainchain externals tipReady = .ok archive ∧
    Reaches tipWorld archive [tipInfo 2] 2 := by
  have names : ∀ op ∈ tipReady, op.Names externals tipWorld := by decide +kernel
  have checked : runsMainchain tipReady secondAnswered = true := by decide +kernel
  obtain ⟨archive,ran,checked⟩ := runsMainchainRun checked
  simp only [secondAnswered,Bool.and_eq_true,decide_eq_true_eq] at checked
  obtain ⟨⟨stored,contents⟩,isTip,answer⟩ := checked
  have steady := runMainchainSteady names ran
  have onTip : archive.mainTip = (tipInfo 2).prevBlockHash := by
    rw [mainTip,MainchainTip.blockHash,isTip]
    rfl
  have isPath : MainPath archive archive.mainTip [tipInfo 2] 2 := by
    rw [onTip]
    exact .next stored (.here _)
  obtain ⟨h,known⟩ := steady.trees.main.stored (Option.isSome_iff_exists.mpr ⟨_,stored⟩)
  have bound := (isPath.proper steady.trees.main (List.cons_ne_nil _ _) known).2
  have descends : archive.mainLinks.Descends archive.mainTip 2 := by
    refine ⟨h,1,known,?_,isPath.up⟩
    rcases isPath.height steady.trees.main known with ⟨zero,_⟩ | ⟨_,k,_,rfl⟩
    · rw [onTip] at zero
      cases zero
    · exact Nat.le_add_left 1 k
  refine ⟨archive,ran,((syncReachesIff names ran stored (Option.isSome_iff_exists.mpr ⟨_,contents⟩) (by decide)
    (.inr descends)).2 _ isPath).mpr ⟨⟨fun last isLast => ?_,trivial⟩,fun none => ?_,fun b header may => ?_,trivial⟩⟩
  · rw [isTip] at isLast
    cases isLast
    rfl
  · rw [isTip] at none
    cases none
  · obtain ⟨_,contents',isSome⟩ := may.commitment
    cases contents.symm.trans contents'
    rw [tipCommitment isSome]
    exact Option.isSome_iff_exists.mp answer

/- The block built on the first main-chain block is committed to by the third only. -/
def lateWorld : World where
  header _ := tipHeader
  mainHeader := tipWorld.mainHeader
  mainInfo m := if m = 3 then ⟨some (tipHeader.hash externals),[]⟩ else ⟨none,[]⟩

instance {op : MainchainOp} : Decidable (op.Names externals lateWorld) :=
  match op with
  | .archive op => inferInstanceAs (Decidable (op.Names externals lateWorld))
  | .syncSideTipsToTip _ => isTrue trivial

def lateOps : List MainchainOp :=
  [1,2,3].flatMap (fun m => [.archive (.putMainHeaderInfo (tipInfo m)),.archive (.putMainBlockInfo m (lateWorld.mainInfo m))]) ++
    [.archive (.putHeader tipHeader),.archive (.putBody (tipHeader.hash externals) ⟨[],[],[]⟩)]

def lateStuck (archive : Archive Forest) : Bool :=
  ((archive.mainHeaderInfos.tryGet 3).isSome && (archive.mainBlockInfos.tryGet 3).isSome) &&
    (archive.sideTips.mainchainTip.tipInfo = none && !(archive.syncSideTipsToTip 3).isOk)

theorem syncStuck : ∃ (world : World) (archive : Archive Forest) (target : MainHash),
    (∀ op ∈ lateOps, op.Names externals world) ∧ runMainchain externals lateOps = .ok archive ∧
    (archive.mainHeaderInfos.tryGet target).isSome = true ∧ (archive.mainBlockInfos.tryGet target).isSome = true ∧
    archive.sideTips.mainchainTip.tipInfo = none ∧ ∀ path, ¬ Reaches world archive path target := by
  have names : ∀ op ∈ lateOps, op.Names externals lateWorld := by decide +kernel
  have checked : runsMainchain lateOps lateStuck = true := by decide +kernel
  obtain ⟨archive,ran,checked⟩ := runsMainchainRun checked
  simp only [lateStuck,Bool.and_eq_true,decide_eq_true_eq,Bool.not_eq_true'] at checked
  obtain ⟨⟨stored,contents⟩,isTip,fails⟩ := checked
  refine ⟨lateWorld,archive,3,names,ran,stored,contents,isTip,fun path ⟨synced,done,_⟩ => ?_⟩
  rw [done] at fails
  cases fails

end Coinshift
