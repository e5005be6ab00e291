import Coinshift.ChainIteration
import Coinshift.SideTipRuns

/-! The side tips brought to a main-chain tip.
`syncSideTipsToTip` disconnects main-chain blocks back to the common ancestor and connects those after it; the events it
sends are what it has done, in order. Whatever has been connected, one block at a time or here, may have to be
disconnected again. -/
namespace Coinshift
open Checked Lineage

variable {F : Type} {lib : Externals F} {world : World}

namespace Archive

section Sync

variable (archive : Archive F)

def batchSize : Nat := 32

def mainAncestorBatch (endBlockHash : MainHash) (startHeight : Nat) : Except ArchiveError (List BlockHeaderInfo) :=
  archive.mainchainAncestorsRev.take batchSize (Position.new endBlockHash startHeight)

def connectMainBlock (info : BlockHeaderInfo) (blockInfo : BlockInfo) : Except ArchiveError (Archive F) := do
  let bmmCommitment ← archive.listableCommitment info.blockHash blockInfo
  let sideTips ← (archive.sideTips.connectMainchainTip info bmmCommitment).mapError
    (fun source => .sideTips (.connectMainchainTip info.blockHash source))
  pure { archive with sideTips }

def disconnectMainBlock (info : BlockHeaderInfo) : Except ArchiveError (Archive F × Option BlockHeaderInfo) := do
  let prevTipInfo ← archive.mainParentHeaderInfo info
  let blockInfo ← archive.getMainBlockInfo info.blockHash
  let sideTips ← (archive.sideTips.disconnectMainchainTip prevTipInfo blockInfo.bmmCommitment).mapError
    (fun source => .sideTips (.disconnectMainchainTip source))
  pure ({ archive with sideTips },prevTipInfo)

structure Syncing (F : Type) where
  archive : Archive F
  tipInfo : Option BlockHeaderInfo
  events : List MainchainEvent

def disconnectUntil (commonAncestor : MainHash) : Nat → Syncing F → Except ArchiveError (Syncing F)
  | fuel, sync =>
      match sync.tipInfo with
      | none => pure sync
      | some info =>
          if info.blockHash = commonAncestor then pure sync
          else
            match fuel with
            | 0 => .error .endless
            | fuel + 1 => do
                let (archive,prevTipInfo) ← sync.archive.disconnectMainBlock info
                disconnectUntil commonAncestor fuel ⟨archive,prevTipInfo,sync.events ++ [.disconnectBlock info.blockHash]⟩

def connectNext (sync : Syncing F) (info : BlockHeaderInfo) : Except ArchiveError (Syncing F) := do
  let blockInfo ← sync.archive.getMainBlockInfo info.blockHash
  let archive ← sync.archive.connectMainBlock info blockInfo
  pure ⟨archive,some info,sync.events ++ [.connectBlock info blockInfo]⟩

def startHeight (tipInfo : Option BlockHeaderInfo) : Nat := tipInfo.elim 0 (fun info => info.height + 1)

def extractTip (tipInfo : Option BlockHeaderInfo) : MainHash := tipInfo.elim MainHash.allZeros (·.blockHash)

def connectUntil (mainchainTip : MainHash) : Nat → Syncing F → Except ArchiveError (Syncing F)
  | fuel, sync =>
      if extractTip sync.tipInfo = mainchainTip then pure sync
      else
        match fuel with
        | 0 => .error .endless
        | fuel + 1 => do
            let infos ← sync.archive.mainAncestorBatch mainchainTip (startHeight sync.tipInfo)
            let sync ← infos.foldlM connectNext sync
            connectUntil mainchainTip fuel sync

/- Without a tip on either side everything goes. -/
def syncAncestor (mainchainTip : MainHash) : Except ArchiveError MainHash :=
  let sideTipsTip := archive.sideTips.mainchainTip
  if sideTipsTip.blockHash = MainHash.allZeros ∨ mainchainTip = MainHash.allZeros then pure MainHash.allZeros
  else archive.lastCommonMainAncestor mainchainTip sideTipsTip.blockHash

/- The stored headers bound both loops. -/
def syncSideTipsToTip (mainchainTip : MainHash) : Except ArchiveError (Archive F × List MainchainEvent) := do
  let commonAncestor ← archive.syncAncestor mainchainTip
  let bound := archive.mainHeaderInfos.entries.length + 1
  let sync ← disconnectUntil commonAncestor bound ⟨archive,archive.sideTips.mainchainTip.tipInfo,[]⟩
  let sync ← connectUntil mainchainTip bound sync
  pure (sync.archive,sync.events)

end Sync

end Archive

inductive MainchainOp where
  | archive (op : ArchiveOp)
  | syncSideTipsToTip (mainchainTip : MainHash)

def MainchainOp.apply (lib : Externals F) (archive : Archive F) : MainchainOp → Except ArchiveError (Archive F)
  | .archive op => op.apply lib archive
  | .syncSideTipsToTip mainchainTip => (archive.syncSideTipsToTip mainchainTip).map (·.1)

def MainchainOp.Names (lib : Externals F) (world : World) : MainchainOp → Prop
  | .archive op => op.Names lib world
  | .syncSideTipsToTip _ => True

def runMainchain (lib : Externals F) (ops : List MainchainOp) : Except ArchiveError (Archive F) :=
  ops.foldlM (MainchainOp.apply lib) (Archive.new F)

namespace Archive

variable {archive archive' : Archive F} {b p : BlockHash} {m n : MainHash} {info : BlockHeaderInfo} {blockInfo : BlockInfo}

section Steady

structure Steady (lib : Externals F) (world : World) (archive : Archive F) : Prop where
  trees : Trees lib world archive
  tip : TipKnown archive

theorem listAtTip {mainTip : MainHash} {header : Header} {acc acc' : Archive F × Bool} {entry : MainHash × BmmResult}
    (ok : listAt mainTip b header acc entry = .ok acc') :
    acc'.1.sideTips.mainchainTip = acc.1.sideTips.mainchainTip := by
  rcases listAtSource ok with ⟨rfl,_⟩ | ⟨_,_,_,w,tips,_,connected,rfl⟩
  · rfl
  · obtain ⟨_,_,⟨_,rfl⟩ | ⟨_,rfl⟩⟩ := connectTipSource connected <;> rfl

theorem updateSideTipsTip {mainTip : MainHash} {header : Header} {more : List BlockHash}
    (ok : updateSideTips mainTip archive b header = .ok (archive',more)) :
    archive'.sideTips.mainchainTip = archive.sideTips.mainchainTip := by
  simp only [updateSideTips,bindOk] at ok
  obtain ⟨⟨listed,connected⟩,folded,ok⟩ := ok
  have same : listed.sideTips.mainchainTip = archive.sideTips.mainchainTip :=
    foldInvariant (P := fun acc => acc.1.sideTips.mainchainTip = archive.sideTips.mainchainTip)
      (fun _ _ _ _ before done => (listAtTip done).trans before) rfl folded
  split at ok
  · simp only [bindOk,pureOk] at ok
    obtain ⟨_,_,same'⟩ := ok
    cases same'
    exact same
  · cases ok
    exact same

theorem putBodyTip {body : Body} (ok : archive.putBody b body = .ok archive') :
    archive'.sideTips.mainchainTip = archive.sideTips.mainchainTip := by
  simp only [putBody,bindOk] at ok
  obtain ⟨header,_,⟨middle,queue⟩,updated,rest⟩ := ok
  have first := updateSideTipsTip updated
  rw [updateQueueDrain] at rest
  refine Worklist.drainInvariant (P := fun now _ => now.sideTips.mainchainTip = archive.sideTips.mainchainTip) ?_ first rest
  intro now k _ next more before done
  unfold updateRound at done
  split at done
  · cases done
    exact before
  · simp only [bindOk] at done
    obtain ⟨_,_,done⟩ := done
    exact (updateSideTipsTip done).trans before

theorem deleteBodyTip (ok : archive.deleteBody b = .ok archive') :
    archive'.sideTips.mainchainTip = archive.sideTips.mainchainTip := by
  unfold deleteBody at ok
  dsimp only at ok
  rw [disconnectQueueDrain] at ok
  refine Worklist.drainInvariant (P := fun now _ => now.sideTips.mainchainTip = archive.sideTips.mainchainTip) ?_ rfl ok
  intro now k _ next more before done
  unfold disconnectRound at done
  split at done
  · cases done
    exact before
  · simp only [bindOk,pureOk] at done
    obtain ⟨_,_,same⟩ := done
    cases same
    refine Eq.trans ?_ before
    unfold SideTips.disconnectSidechainTip
    split <;> rfl

theorem Steady.added (steady : Steady lib world archive) (added : Added archive archive') (trees : Trees lib world archive') :
    Steady lib world archive' := ⟨trees,steady.tip.added added⟩

theorem Steady.new : Steady lib world (Archive.new F) := ⟨Trees.new,(@Kept.new F lib world).tip⟩

structure BlockStored (lib : Externals F) (world : World) (archive : Archive F) (info : BlockHeaderInfo)
    (blockInfo : BlockInfo) (stored : Archive F) : Prop where
  added : Added archive stored
  steady : Steady lib world stored
  header : stored.mainHeaderInfos.tryGet info.blockHash = some info
  contents : stored.mainBlockInfos.tryGet info.blockHash = some blockInfo

theorem Added.trans {archive'' : Archive F} (first : Added archive archive') (second : Added archive' archive'') :
    Added archive archive'' where
  grown := ⟨fun k v found => second.grown.headers k v (first.grown.headers k v found),
    fun k v found => second.grown.mainHeaders k v (first.grown.mainHeaders k v found),
    fun k v found => second.grown.mainHeights k v (first.grown.mainHeights k v found),
    fun k v found => second.grown.mainInfos k v (first.grown.mainInfos k v found)⟩
  heights k v found := second.heights k v (first.heights k v found)
  works k v found := second.works k v (first.works k v found)
  bodies := second.bodies.trans first.bodies
  sideTips := second.sideTips.trans first.sideTips

theorem Steady.connectEvent (steady : Steady lib world archive) (names : world.NamesMain info)
    (contains : blockInfo = world.mainInfo info.blockHash)
    (ok : archive.handleBlockEvent (.connectBlock info blockInfo) = .ok archive') :
    ∃ stored, BlockStored lib world archive info blockInfo stored ∧ stored.connectMainBlock info blockInfo = .ok archive' := by
  obtain ⟨first,second,commitment,tips,header,contents,listable,connected,rfl⟩ := connectEventSource ok
  have treesFirst := steady.trees.putMainHeader names header
  have treesSecond := treesFirst.putMainInfo contains contents
  have addedFirst := steady.trees.addsMainHeader names header
  have addedSecond := treesFirst.addsMainInfo contains contents
  have stored : second.mainHeaderInfos.tryGet info.blockHash = some info := by
    refine addedSecond.grown.mainHeaders _ _ ?_
    obtain ⟨_,_,_,_,_,_,_,_,_,rfl⟩ := putMainHeaderSource header
    exact Table.tryGetPutSelf
  have known : second.mainBlockInfos.tryGet info.blockHash = some blockInfo := by
    obtain ⟨_,_,_,⟨_,rfl⟩ | ⟨_,_,_,_,_,_,rfl⟩⟩ := putMainInfoSource contents
    · exact Table.tryGetPutSelf
    · exact Table.tryGetPutSelf
  refine ⟨second,⟨addedFirst.trans addedSecond,(steady.added addedFirst treesFirst).added addedSecond treesSecond,stored,known⟩,?_⟩
  simp only [connectMainBlock,listable,connected,Except.mapError,okBind]
  rfl

theorem connectMainSource (ok : archive.connectMainBlock info blockInfo = .ok archive') :
    ∃ commitment tips, archive.listableCommitment info.blockHash blockInfo = .ok commitment ∧
      archive.sideTips.connectMainchainTip info commitment = .ok tips ∧ archive' = { archive with sideTips := tips } := by
  simp only [connectMainBlock,bindOk,mapErrorOk,pureOk] at ok
  obtain ⟨commitment,listable,tips,connected,rfl⟩ := ok
  exact ⟨commitment,tips,listable,connected,rfl⟩

theorem Steady.connect (steady : Steady lib world archive) (stored : archive.mainHeaderInfos.tryGet info.blockHash = some info)
    (contents : archive.mainBlockInfos.tryGet info.blockHash = some blockInfo)
    (ok : archive.connectMainBlock info blockInfo = .ok archive') : Steady lib world archive' := by
  obtain ⟨commitment,tips,_,connected,rfl⟩ := connectMainSource ok
  exact ⟨steady.trees.tips,
    steady.tip.connectBlock steady.trees stored (Option.isSome_iff_exists.mpr ⟨blockInfo,contents⟩) connected⟩

theorem Steady.disconnectEvent (steady : Steady lib world archive)
    (ok : archive.handleBlockEvent (.disconnectBlock m) = .ok archive') : Steady lib world archive' := by
  obtain ⟨info,blockInfo,parent,tips,_,_,isParent,disconnected,rfl⟩ := disconnectEventSource ok
  exact ⟨steady.trees.tips,steady.tip.disconnectBlock steady.trees isParent disconnected⟩

theorem Steady.step (steady : Steady lib world archive) {op : ArchiveOp} (names : op.Names lib world)
    (ok : op.apply lib archive = .ok archive') : Steady lib world archive' := by
  have trees := steady.trees.step names ok
  cases op with
  | handleBlockEvent event =>
      cases event with
      | connectBlock info blockInfo =>
          obtain ⟨stored,block,connected⟩ := steady.connectEvent names.1 names.2 ok
          exact block.steady.connect block.header block.contents connected
      | disconnectBlock m => exact steady.disconnectEvent ok
  | putMainHeaderInfo info => exact steady.added (steady.trees.addsMainHeader names ok) trees
  | putMainBlockInfo m blockInfo => exact steady.added (steady.trees.addsMainInfo names ok) trees
  | putHeader header => exact steady.added (steady.trees.addsHeader names ok) trees
  | putBody b body =>
      have same := putBodyTip ok
      obtain ⟨_,_,rfl⟩ := putBodyFrame ok
      exact ⟨trees,steady.tip.sameTip rfl rfl rfl same⟩
  | deleteBody b =>
      have same := deleteBodyTip ok
      obtain ⟨_,rfl⟩ := disconnectQueueFrame ok
      exact ⟨trees,steady.tip.sameTip rfl rfl rfl same⟩

end Steady

section Retract

/- The block a commitment names can be taken off the list again: it is listed, in both tables if at this very block, or
it is not and will be listed with the block. -/
inductive Held (archive : Archive F) (info : BlockHeaderInfo) (b : BlockHash) : Prop
  | listed {entry : SidechainTipInfo} (found : archive.sideTips.sidechainTips.tryGet b = some entry)
      (ordered : entry.mainBlockHash = info.blockHash → (archive.sideTips.orderedSidechainTips.tryGet entry).isSome = true) :
      Held archive info b
  | listable {header : Header} (unlisted : archive.sideTips.sidechainTips.tryGet b = none)
      (supported : Supported archive b header) (next : header.prevMainHash = archive.mainTip)
      (parent : ∀ p, header.prevSideHash = some p → ∃ n, Included archive p n) : Held archive info b

def Retractable (archive : Archive F) (info : BlockHeaderInfo) (blockInfo : BlockInfo) : Prop :=
  ∀ b, blockInfo.bmmCommitment = some b → Held archive info b

def Restored (archive connected : Archive F) (m : MainHash) : Prop :=
  ∃ last, connected.handleBlockEvent (.disconnectBlock m) = .ok last ∧
    last.sideTips.mainchainTip = archive.sideTips.mainchainTip

theorem Trees.verifiedNext (trees : Trees lib world archive) {header : Header}
    (stored : archive.mainHeaderInfos.tryGet info.blockHash = some info) (parent : info.prevBlockHash = archive.mainTip)
    (contents : archive.mainBlockInfos.tryGet info.blockHash = some blockInfo)
    (commitment : blockInfo.bmmCommitment = some b) (isHeader : archive.headers.tryGet b = some header) :
    archive.verifiedAt b info.blockHash ↔ header.prevMainHash = archive.mainTip ∧
      ∀ p, header.prevSideHash = some p → ∃ n, Included archive p n := by
  have above {n : MainHash} : archive.mainLinks.Descends n info.blockHash ↔
      n = info.blockHash ∨ archive.mainLinks.Descends n archive.mainTip := by
    rw [← parent]
    exact trees.main.aboveTip stored
  constructor
  · intro verified
    obtain ⟨header',commits,parents⟩ := ((trees.results b _).mp verified).commits
    cases isHeader.symm.trans commits.stored
    obtain ⟨info',stored',next⟩ := commits.next
    cases stored.symm.trans stored'
    refine ⟨next.symm.trans parent,fun p isParent => ?_⟩
    obtain ⟨n,committed,isAbove⟩ := parents p isParent
    have verifiedParent := (trees.results p n).mpr committed
    rcases above.mp isAbove with rfl | before
    · -- the parent would be committed to by the same block
      cases trees.sameCommitment verified verifiedParent
      exact absurd isParent (trees.sides.parentOther isHeader)
    · exact ⟨n,verifiedParent,before⟩
  · intro ⟨next,parents⟩
    refine (trees.results b _).mpr (CommitsTo.committed ⟨isHeader,⟨blockInfo,contents,commitment⟩,
      ⟨info,stored,parent.trans next.symm⟩⟩ (fun p isParent => ?_))
    obtain ⟨n,included⟩ := parents p isParent
    exact ⟨n,(trees.results p n).mp included.verified,above.mpr (.inr included.onChain)⟩

theorem Held.added (held : Held archive info b) (steady : Steady lib world archive) (added : Added archive archive')
    (trees' : Trees lib world archive') : Held archive' info b := by
  cases held with
  | listed found ordered =>
      rw [← added.sideTips] at found ordered
      exact .listed found ordered
  | listable unlisted supported next parent =>
      rw [← added.sideTips] at unlisted
      refine .listable unlisted (added.supported supported) (next.trans added.mainTip.symm) (fun p isParent => ?_)
      obtain ⟨n,included⟩ := parent p isParent
      exact ⟨n,added.included steady.tip steady.trees trees' included⟩

theorem Held.before (held : Held archive' info b) (steady : Steady lib world archive) (added : Added archive archive')
    (trees' : Trees lib world archive') : Held archive info b := by
  cases held with
  | listed found ordered =>
      rw [added.sideTips] at found ordered
      exact .listed found ordered
  | listable unlisted supported next parent =>
      rw [added.sideTips] at unlisted
      have supportedBefore := added.supportedBefore steady.trees supported
      refine .listable unlisted supportedBefore (next.trans added.mainTip) (fun p isParent => ?_)
      obtain ⟨n,included⟩ := parent p isParent
      have isStored := steady.trees.sides.parentStored supportedBefore.stored isParent
      exact ⟨n,added.includedStored steady.tip steady.trees trees' isStored included⟩

theorem orderedWithoutListed {tips : SideTips} {entry : SidechainTipInfo} (found : tips.sidechainTips.tryGet b = some entry) :
    (∃ ordered, orderedWithout tips info (some b) = .ok ordered) ↔
      (entry.mainBlockHash = info.blockHash → (tips.orderedSidechainTips.tryGet entry).isSome = true) := by
  simp only [orderedWithout,found,okOr,okBind]
  split
  · next here =>
      simp only [bindOk,ensureOk,pureOk,here,true_implies]
      constructor
      · rintro ⟨_,_,isSome,_⟩
        exact isSome
      · exact fun isSome => ⟨_,(),isSome,rfl⟩
  · next elsewhere => exact ⟨fun _ here => absurd here elsewhere,fun _ => ⟨_,rfl⟩⟩

theorem orderedWithoutIff (trees : Trees lib world archive) {commitment : Option (BlockHash × Option BlockHash)} {tips : SideTips}
    (stored : archive.mainHeaderInfos.tryGet info.blockHash = some info)
    (contents : archive.mainBlockInfos.tryGet info.blockHash = some blockInfo)
    (listable : archive.listableCommitment info.blockHash blockInfo = .ok commitment)
    (connected : archive.sideTips.connectMainchainTip info commitment = .ok tips) :
    (∃ ordered, orderedWithout tips info blockInfo.bmmCommitment = .ok ordered) ↔ Retractable archive info blockInfo := by
  obtain ⟨parent,listed,rfl,entry⟩ := connectMainchainSource connected
  obtain ⟨isListable,notListable⟩ := listableSource listable
  cases isCommitment : blockInfo.bmmCommitment with
  | none => exact ⟨fun _ b isSome => (nomatch isCommitment.symm.trans isSome),fun _ => ⟨_,rfl⟩⟩
  | some b =>
      have retractable : Retractable archive info blockInfo ↔ Held archive info b := by
        refine ⟨fun each => each b isCommitment,fun held b' isSome => ?_⟩
        cases isCommitment.symm.trans isSome
        exact held
      have own : ∀ b' prevSideHash, commitment = some (b',prevSideHash) → b' = b := by
        intro b' prevSideHash isSome
        obtain ⟨verified,_⟩ := isListable b' prevSideHash isSome
        obtain ⟨_,commits,_⟩ := ((trees.results b' _).mp verified).commits
        obtain ⟨blockInfo',contents',isCommitment'⟩ := commits.commitment
        cases contents.symm.trans contents'
        exact Option.some.inj (isCommitment'.symm.trans isCommitment)
      rw [retractable]
      cases found : archive.sideTips.sidechainTips.tryGet b with
      | some old =>
          have same : listed = archive.sideTips := by
            rcases entry with ⟨_,same⟩ | ⟨b',prevSideHash,isSome,connects⟩
            · exact same
            · cases own b' prevSideHash isSome
              obtain ⟨_,_,⟨_,same⟩ | ⟨missing,_⟩⟩ := connectTipSource connects
              · exact same
              · rw [found] at missing
                cases missing
          subst same
          have asked := @orderedWithoutListed b info { archive.sideTips with
            mainchainTip := ⟨archive.sideTips.mainchainTip.cumulativeWork + info.work,some info⟩ } old found
          rw [asked]
          constructor
          · exact Held.listed found
          · intro held
            cases held with
            | listed found' ordered =>
                cases found.symm.trans found'
                exact ordered
            | listable unlisted => cases found.symm.trans unlisted
      | none =>
          rcases entry with ⟨isNone,rfl⟩ | ⟨b',prevSideHash,isSome,connects⟩
          · refine ⟨fun ⟨ordered,taken⟩ => ?_,fun held => ?_⟩
            · simp only [orderedWithout,bindOk,okOrOk,found,reduceCtorEq,false_and,exists_false] at taken
            · cases held with
              | listed found' => cases found.symm.trans found'
              | listable _ supported next parents =>
                  refine absurd ?_ (notListable isNone b _ isCommitment supported)
                  exact (trees.verifiedNext stored parent contents isCommitment supported.stored).mpr ⟨next,parents⟩
          · obtain ⟨verified,header,supported,rfl⟩ := isListable b' prevSideHash isSome
            cases own b' _ isSome
            obtain ⟨next,parents⟩ := (trees.verifiedNext stored parent contents isCommitment supported.stored).mp verified
            refine ⟨fun _ => .listable found supported next parents,fun _ => ?_⟩
            obtain ⟨height,_,⟨present,_⟩ | ⟨_,rfl⟩⟩ := connectTipSource connects
            · rw [found] at present
              cases present
            · refine (orderedWithoutListed Table.tryGetPutSelf).mpr (fun _ => ?_)
              rw [Table.tryGetPutSelf]
              rfl

theorem Steady.parentInfo (steady : Steady lib world archive) (parent : info.prevBlockHash = archive.sideTips.mainchainTip.blockHash) :
    archive.mainParentHeaderInfo info = .ok archive.sideTips.mainchainTip.tipInfo := by
  unfold mainParentHeaderInfo
  cases isTip : archive.sideTips.mainchainTip.tipInfo with
  | none =>
      rw [MainchainTip.blockHash,isTip] at parent
      rw [if_pos parent]
  | some old =>
      obtain ⟨stored,_,_⟩ := steady.tip.known isTip
      rw [MainchainTip.blockHash,isTip] at parent
      have nonZero := (steady.trees.main.named stored).1.2
      rw [parent,if_neg nonZero,getMainHeaderInfo,stored]
      rfl

theorem Steady.newTip (steady : Steady lib world archive) {commitment : Option (BlockHash × Option BlockHash)} {tips : SideTips}
    (connected : archive.sideTips.connectMainchainTip info commitment = .ok tips) :
    newTipFor info archive.sideTips.mainchainTip.tipInfo = .ok archive.sideTips.mainchainTip.tipInfo := by
  have parent := (connectMainchainSource connected).parent
  simp only [SideTips.connectMainchainTip,bindOk] at connected
  obtain ⟨_,_,_,height,_⟩ := connected
  cases isTip : archive.sideTips.mainchainTip.tipInfo with
  | none =>
      rw [MainchainTip.blockHash,isTip] at parent
      simp only [newTipFor,bindOk,ensureOk,pureOk]
      exact ⟨(),parent,trivial⟩
  | some old =>
      obtain ⟨stored,_,_⟩ := steady.tip.known isTip
      have nonZero := (steady.trees.main.named stored).1.2
      rw [MainchainTip.blockHash,isTip] at parent
      rw [isTip] at height
      have next : info.height = old.height + 1 := ensureOk.mp height
      simp only [newTipFor,bindOk,ensureOk,pureOk]
      refine ⟨(),parent.symm,(),next.symm,?_⟩
      rw [parent,if_pos nonZero]

theorem Steady.restoredIff (steady : Steady lib world archive) {connected : Archive F}
    (stored : archive.mainHeaderInfos.tryGet info.blockHash = some info)
    (contents : archive.mainBlockInfos.tryGet info.blockHash = some blockInfo)
    (ok : archive.connectMainBlock info blockInfo = .ok connected) :
    Restored archive connected info.blockHash ↔ Retractable archive info blockInfo := by
  obtain ⟨commitment,tips,listable,connects,rfl⟩ := connectMainSource ok
  have isTip : tips.mainchainTip = ⟨archive.sideTips.mainchainTip.cumulativeWork + info.work,some info⟩ := by
    obtain ⟨_,listed,rfl,_⟩ := connectMainchainSource connects
    rfl
  have parentInfo := steady.parentInfo (connectMainchainSource connects).parent
  have newTip := steady.newTip connects
  rw [← orderedWithoutIff steady.trees stored contents listable connects]
  constructor
  · rintro ⟨last,done,_⟩
    obtain ⟨info',blockInfo',prev,tips',stored',contents',isParent,disconnected,_⟩ := disconnectEventSource done
    cases stored.symm.trans stored'
    cases contents.symm.trans contents'
    rw [disconnectParts] at disconnected
    simp only [bindOk,okOrOk,isTip,Option.some_inj] at disconnected
    obtain ⟨_,rfl,_,_,ordered,isOrdered,_⟩ := disconnected
    exact ⟨ordered,isOrdered⟩
  · rintro ⟨ordered,isOrdered⟩
    have disconnected : tips.disconnectMainchainTip archive.sideTips.mainchainTip.tipInfo blockInfo.bmmCommitment =
        .ok { tips with orderedSidechainTips := ordered, mainchainTip := archive.sideTips.mainchainTip } := by
      rw [disconnectParts]
      simp only [bindOk,okOrOk,pureOk,isTip,Option.some_inj]
      refine ⟨info,rfl,_,newTip,ordered,isOrdered,?_⟩
      rw [Nat.add_sub_cancel]
    refine ⟨{ archive with sideTips := { tips with
      orderedSidechainTips := ordered
      mainchainTip := archive.sideTips.mainchainTip } },?_,rfl⟩
    simp only [handleBlockEvent,getMainHeaderInfo,getMainBlockInfo,bindOk,okOrOk,mapErrorOk,pureOk]
    exact ⟨info,stored,blockInfo,contents,_,parentInfo,_,disconnected,rfl⟩

end Retract

section Events

def syncEvent (archive : Archive F) : MainchainEvent → Except ArchiveError (Archive F)
  | .connectBlock info blockInfo => archive.connectMainBlock info blockInfo
  | .disconnectBlock blockHash => archive.handleBlockEvent (.disconnectBlock blockHash)

def KnownBlocks (archive : Archive F) (events : List MainchainEvent) : Prop :=
  ∀ info blockInfo, .connectBlock info blockInfo ∈ events → archive.mainHeaderInfos.tryGet info.blockHash = some info ∧
    archive.mainBlockInfos.tryGet info.blockHash = some blockInfo

theorem Steady.replay {events : List MainchainEvent} (steady : Steady lib world archive) (recorded : KnownBlocks archive events)
    (ok : events.foldlM syncEvent archive = .ok archive') : Steady lib world archive' ∧ SameButTips archive archive' := by
  refine foldInvariant (P := fun now => Steady lib world now ∧ SameButTips archive now) ?_ ⟨steady,.refl⟩ ok
  rintro now event next mem ⟨steadyNow,same⟩ done
  cases event with
  | connectBlock info blockInfo =>
      obtain ⟨stored,contents⟩ := recorded info blockInfo mem
      obtain ⟨tips,rfl⟩ := same
      refine ⟨steadyNow.connect stored contents done,?_⟩
      obtain ⟨_,tips',_,_,rfl⟩ := connectMainSource done
      exact ⟨tips',rfl⟩
  | disconnectBlock m =>
      refine ⟨steadyNow.disconnectEvent done,same.trans ?_⟩
      obtain ⟨_,_,_,tips',_,_,_,_,rfl⟩ := disconnectEventSource done
      exact ⟨tips',rfl⟩

structure SyncKept (start : Archive F) (sync : Syncing F) : Prop where
  tip : sync.tipInfo = sync.archive.sideTips.mainchainTip.tipInfo
  replays : sync.events.foldlM syncEvent start = .ok sync.archive
  recorded : KnownBlocks start sync.events

theorem disconnectMainBlockEvent {prev : Option BlockHeaderInfo} (steady : Steady lib world archive)
    (isTip : archive.sideTips.mainchainTip.tipInfo = some info) (ok : archive.disconnectMainBlock info = .ok (archive',prev)) :
    archive.handleBlockEvent (.disconnectBlock info.blockHash) = .ok archive' ∧
      prev = archive'.sideTips.mainchainTip.tipInfo := by
  simp only [disconnectMainBlock,getMainBlockInfo,bindOk,okOrOk,mapErrorOk,pureOk] at ok
  obtain ⟨prev',isPrev,blockInfo,contents,tips,disconnected,same⟩ := ok
  cases same
  obtain ⟨stored,_,_⟩ := steady.tip.known isTip
  constructor
  · simp only [handleBlockEvent,getMainHeaderInfo,getMainBlockInfo,bindOk,okOrOk,mapErrorOk,pureOk]
    exact ⟨info,stored,blockInfo,contents,prev,isPrev,tips,disconnected,rfl⟩
  · obtain ⟨info',newTip,_,isTip',isNew,_,rfl⟩ := disconnectMainchainSource disconnected
    cases isTip.symm.trans isTip'
    unfold mainParentHeaderInfo at isPrev
    split at isPrev
    · next zero =>
        cases isPrev
        rcases isNew with ⟨rfl,_⟩ | ⟨p,_,_,_,nonZero⟩
        · rfl
        · exact absurd zero nonZero
    · next nonZero =>
        rcases isNew with ⟨_,zero⟩ | ⟨p,rfl,rfl,_⟩
        · exact absurd zero nonZero
        · rfl

theorem recordedAppend {events : List MainchainEvent} {event : MainchainEvent} (recorded : KnownBlocks archive events)
    (last : KnownBlocks archive [event]) : KnownBlocks archive (events ++ [event]) := by
  intro info blockInfo mem
  rcases List.mem_append.mp mem with earlier | here
  · exact recorded info blockInfo earlier
  · exact last info blockInfo here

theorem SyncKept.disconnectUntil {commonAncestor : MainHash} {fuel : Nat} {sync sync' : Syncing F}
    (steady : Steady lib world archive) (kept : SyncKept archive sync)
    (ok : disconnectUntil commonAncestor fuel sync = .ok sync') : SyncKept archive sync' := by
  induction fuel generalizing sync with
  | zero =>
      unfold Archive.disconnectUntil at ok
      split at ok
      · cases ok
        exact kept
      · split at ok
        · cases ok
          exact kept
        · cases ok
  | succ fuel ih =>
      unfold Archive.disconnectUntil at ok
      split at ok
      · cases ok
        exact kept
      · next info isTip =>
          split at ok
          · cases ok
            exact kept
          · simp only [bindOk] at ok
            obtain ⟨⟨next,prev⟩,done,rest⟩ := ok
            obtain ⟨steadyNow,_⟩ := steady.replay kept.recorded kept.replays
            obtain ⟨disconnected,tip⟩ := disconnectMainBlockEvent steadyNow (kept.tip.symm.trans isTip) done
            have last : syncEvent sync.archive (.disconnectBlock info.blockHash) = .ok next := disconnected
            refine ih ⟨tip,foldAppendOk.mpr ⟨_,kept.replays,foldConsOk.mpr ⟨next,last,rfl⟩⟩,?_⟩ rest
            refine recordedAppend kept.recorded (fun _ _ mem => ?_)
            cases List.mem_singleton.mp mem

theorem mainBatchStored {startHeight : Nat} {infos : List BlockHeaderInfo} (trees : Trees lib world archive)
    (ok : archive.mainAncestorBatch m startHeight = .ok infos) :
    ∀ info ∈ infos, archive.mainHeaderInfos.tryGet info.blockHash = some info := by
  have unread : Forward.Read archive.mainchainAncestorsRev (Position.new m startHeight) := fun _ begun => nomatch begun
  intro info mem
  obtain ⟨m',isItem⟩ := Forward.takeItems unread ok info mem
  have stored := okOrOk.mp isItem
  rw [(trees.main.named stored).2]
  exact stored

theorem SyncKept.connectNext {sync sync' : Syncing F} (steady : Steady lib world archive) (kept : SyncKept archive sync)
    (stored : archive.mainHeaderInfos.tryGet info.blockHash = some info) (ok : connectNext sync info = .ok sync') :
    SyncKept archive sync' := by
  simp only [Archive.connectNext,getMainBlockInfo,bindOk,okOrOk,pureOk] at ok
  obtain ⟨blockInfo,contents,next,connected,rfl⟩ := ok
  obtain ⟨_,tips,same⟩ := steady.replay kept.recorded kept.replays
  refine ⟨?_,foldAppendOk.mpr ⟨_,kept.replays,foldConsOk.mpr ⟨next,connected,rfl⟩⟩,?_⟩
  · obtain ⟨_,tips',_,connects,rfl⟩ := connectMainSource connected
    obtain ⟨_,listed,rfl,_⟩ := connectMainchainSource connects
    rfl
  · refine recordedAppend kept.recorded (fun info' blockInfo' mem => ?_)
    cases List.mem_singleton.mp mem
    rw [same] at contents
    exact ⟨stored,contents⟩

theorem SyncKept.connectUntil {mainchainTip : MainHash} {fuel : Nat} {sync sync' : Syncing F}
    (steady : Steady lib world archive) (kept : SyncKept archive sync)
    (ok : connectUntil mainchainTip fuel sync = .ok sync') : SyncKept archive sync' := by
  induction fuel generalizing sync with
  | zero =>
      unfold Archive.connectUntil at ok
      split at ok
      · cases ok
        exact kept
      · cases ok
  | succ fuel ih =>
      unfold Archive.connectUntil at ok
      split at ok
      · cases ok
        exact kept
      · simp only [bindOk] at ok
        obtain ⟨infos,isBatch,next,connected,rest⟩ := ok
        obtain ⟨steadyNow,tips,same⟩ := steady.replay kept.recorded kept.replays
        have stored := mainBatchStored steadyNow.trees isBatch
        rw [same] at stored
        have nextKept : SyncKept archive next :=
          foldInvariant (P := SyncKept archive) (fun now info _ mem before done => before.connectNext steady (stored info mem) done)
            kept connected
        exact ih nextKept rest

theorem Steady.sync {mainchainTip : MainHash} {events : List MainchainEvent} (steady : Steady lib world archive)
    (ok : archive.syncSideTipsToTip mainchainTip = .ok (archive',events)) :
    events.foldlM syncEvent archive = .ok archive' ∧ KnownBlocks archive events := by
  simp only [syncSideTipsToTip,bindOk,pureOk] at ok
  obtain ⟨common,_,first,disconnected,last,connected,same⟩ := ok
  cases same
  have start : SyncKept archive ⟨archive,archive.sideTips.mainchainTip.tipInfo,[]⟩ := ⟨rfl,rfl,fun _ _ mem => absurd mem List.not_mem_nil⟩
  have kept := (start.disconnectUntil steady disconnected).connectUntil steady connected
  exact ⟨kept.replays,kept.recorded⟩

end Events

end Archive

theorem runMainchainSteady {ops : List MainchainOp} {archive : Archive F} (names : ∀ op ∈ ops, op.Names lib world)
    (ok : runMainchain lib ops = .ok archive) : archive.Steady lib world := by
  refine foldInvariant (P := fun archive => archive.Steady lib world) ?_ Archive.Steady.new ok
  intro now op next mem steady applied
  cases op with
  | archive op => exact steady.step (names _ mem) applied
  | syncSideTipsToTip mainchainTip =>
      obtain ⟨⟨synced,events⟩,done,rfl⟩ := mapOk.mp applied
      obtain ⟨replays,recorded⟩ := steady.sync done
      exact (steady.replay recorded replays).1

/- A connected block, by an event or in a sync, can be disconnected with the tip restored exactly if the block it commits
to is held. -/
theorem connectedRestoredIff {ops : List MainchainOp} {archive : Archive F} (names : ∀ op ∈ ops, op.Names lib world)
    (ok : runMainchain lib ops = .ok archive) :
    (∀ info blockInfo connected, world.NamesMain info → blockInfo = world.mainInfo info.blockHash →
      archive.handleBlockEvent (.connectBlock info blockInfo) = .ok connected →
      (archive.Restored connected info.blockHash ↔ archive.Retractable info blockInfo)) ∧
    ∀ mainchainTip synced events before info blockInfo after,
      archive.syncSideTipsToTip mainchainTip = .ok (synced,events) →
      events = before ++ .connectBlock info blockInfo :: after →
      ∃ middle connected, before.foldlM Archive.syncEvent archive = .ok middle ∧
        middle.connectMainBlock info blockInfo = .ok connected ∧ after.foldlM Archive.syncEvent connected = .ok synced ∧
        (middle.Restored connected info.blockHash ↔ middle.Retractable info blockInfo) := by
  have steady := runMainchainSteady names ok
  constructor
  · intro info blockInfo connected isNamed contains done
    obtain ⟨stored,block,connects⟩ := steady.connectEvent isNamed contains done
    have tips := block.added.sideTips
    have restored : archive.Restored connected info.blockHash ↔ stored.Restored connected info.blockHash := by
      rw [Archive.Restored,Archive.Restored,tips]
    rw [restored,block.steady.restoredIff block.header block.contents connects]
    constructor
    · exact fun each b isSome => (each b isSome).before steady block.added block.steady.trees
    · exact fun each b isSome => (each b isSome).added steady block.added block.steady.trees
  · intro mainchainTip synced events before info blockInfo after done split
    obtain ⟨replays,recorded⟩ := steady.sync done
    rw [split] at replays recorded
    obtain ⟨middle,first,rest⟩ := foldAppendOk.mp replays
    obtain ⟨connected,connects,last⟩ := foldConsOk.mp rest
    obtain ⟨steadyMiddle,tips,same⟩ := steady.replay (fun i bi mem => recorded i bi (List.mem_append_left _ mem)) first
    obtain ⟨stored,contents⟩ := recorded info blockInfo (List.mem_append_right _ List.mem_cons_self)
    subst same
    exact ⟨_,connected,first,connects,last,steadyMiddle.restoredIff stored contents connects⟩

section Example

open Reference

def tipInfo (m : MainHash) : BlockHeaderInfo := tipWorld.mainHeader m

def tipReady : List MainchainOp :=
  [.archive (.handleBlockEvent (.connectBlock (tipInfo 1) (tipWorld.mainInfo 1))),.archive (.putHeader tipHeader),
    .archive (.putBody (tipHeader.hash externals) ⟨[],[],[]⟩),.archive (.putMainHeaderInfo (tipInfo 2)),
    .archive (.putMainBlockInfo 2 (tipWorld.mainInfo 2))]

instance {op : MainchainOp} : Decidable (op.Names externals tipWorld) :=
  match op with
  | .archive op => inferInstanceAs (Decidable (op.Names externals tipWorld))
  | .syncSideTipsToTip _ => isTrue trivial

def runsMainchain (ops : List MainchainOp) (check : Archive Forest → Bool) : Bool :=
  match runMainchain externals ops with
  | .ok archive => check archive
  | .error _ => false

theorem runsMainchainRun {ops : List MainchainOp} {check : Archive Forest → Bool} (runs : runsMainchain ops check = true) :
    ∃ archive, runMainchain externals ops = .ok archive ∧ check archive = true := by
  unfold runsMainchain at runs
  cases ran : runMainchain externals ops with
  | error e =>
      rw [ran] at runs
      cases runs
  | ok archive =>
      rw [ran] at runs
      exact ⟨archive,rfl,runs⟩

def secondConnects (archive : Archive Forest) : Bool :=
  (archive.handleBlockEvent (.connectBlock (tipInfo 2) (tipWorld.mainInfo 2))).isOk

def secondListable (archive : Archive Forest) : Bool :=
  (archive.sideTips.sidechainTips.tryGet (tipHeader.hash externals)).isNone &&
    (archive.headers.tryGet (tipHeader.hash externals) = some tipHeader &&
      ((archive.bodies.tryGet (tipHeader.hash externals)).isSome && archive.mainTip = 1))

def secondSynced (archive : Archive Forest) : Bool :=
  (archive.syncSideTipsToTip 2).toOption.any (fun synced => synced.2 = [.connectBlock (tipInfo 2) (tipWorld.mainInfo 2)])

theorem tipCommitment {b : BlockHash} (isSome : (tipWorld.mainInfo 2).bmmCommitment = some b) : b = tipHeader.hash externals := by
  have committed : (tipWorld.mainInfo 2).bmmCommitment = some (tipHeader.hash externals) := by decide +kernel
  exact Option.some.inj (isSome.symm.trans committed)

theorem secondListableSound {archive : Archive Forest} (checked : secondListable archive = true) :
    archive.Retractable (tipInfo 2) (tipWorld.mainInfo 2) := by
  simp only [secondListable,Bool.and_eq_true,decide_eq_true_eq,Option.isNone_iff_eq_none] at checked
  obtain ⟨unlisted,stored,body,onTip⟩ := checked
  intro b isSome
  have own := tipCommitment isSome
  subst own
  refine .listable unlisted ⟨stored,body,fun p isParent => ?_⟩ onTip.symm (fun p isParent => ?_)
  · cases isParent
  · cases isParent

theorem heldBlockRestored : ∃ (archive connected synced : Archive Forest), runMainchain externals tipReady = .ok archive ∧
    archive.handleBlockEvent (.connectBlock (tipInfo 2) (tipWorld.mainInfo 2)) = .ok connected ∧
    archive.Restored connected (tipInfo 2).blockHash ∧
    archive.syncSideTipsToTip 2 = .ok (synced,[.connectBlock (tipInfo 2) (tipWorld.mainInfo 2)]) ∧
    archive.Restored synced (tipInfo 2).blockHash := by
  have names : ∀ op ∈ tipReady, op.Names externals tipWorld := by decide +kernel
  have isNamed : tipWorld.NamesMain (tipInfo 2) := by
    unfold World.NamesMain
    decide +kernel
  have checked : runsMainchain tipReady (fun archive =>
      secondConnects archive && (secondListable archive && secondSynced archive)) = true := by decide +kernel
  obtain ⟨archive,ran,checked⟩ := runsMainchainRun checked
  simp only [Bool.and_eq_true] at checked
  obtain ⟨connects,listable,syncs⟩ := checked
  obtain ⟨connected,isConnected⟩ := isOkExists connects
  obtain ⟨⟨synced,events⟩,isSynced,same⟩ := (Option.any_eq_true _ _).mp syncs
  cases of_decide_eq_true same
  have done := toOptionOk isSynced
  obtain ⟨byEvent,bySync⟩ := connectedRestoredIff names ran
  have retractable := secondListableSound listable
  obtain ⟨middle,connected',first,_,last,restored⟩ := bySync 2 synced _ [] _ _ [] done rfl
  cases first
  cases last
  have contains : tipWorld.mainInfo 2 = tipWorld.mainInfo (tipInfo 2).blockHash := by decide +kernel
  exact ⟨archive,connected,synced,ran,isConnected,(byEvent _ _ connected isNamed contains isConnected).mpr retractable,done,
    restored.mpr retractable⟩

def tipUnknown : List MainchainOp :=
  [.archive (.handleBlockEvent (.connectBlock (tipInfo 1) (tipWorld.mainInfo 1)))]

def secondStays (archive : Archive Forest) : Bool :=
  (archive.handleBlockEvent (.connectBlock (tipInfo 2) (tipWorld.mainInfo 2))).toOption.any (fun connected =>
    !(connected.handleBlockEvent (.disconnectBlock (tipInfo 2).blockHash)).isOk)

theorem unknownBlockStays : ∃ (world : World) (archive connected : Archive Forest) (info : BlockHeaderInfo) (blockInfo : BlockInfo),
    (∀ op ∈ tipUnknown, op.Names externals world) ∧ runMainchain externals tipUnknown = .ok archive ∧
    world.NamesMain info ∧ blockInfo = world.mainInfo info.blockHash ∧
    archive.handleBlockEvent (.connectBlock info blockInfo) = .ok connected ∧
    ¬ archive.Restored connected info.blockHash := by
  have names : ∀ op ∈ tipUnknown, op.Names externals tipWorld := by decide +kernel
  have isNamed : tipWorld.NamesMain (tipInfo 2) := by
    unfold World.NamesMain
    decide +kernel
  have contains : tipWorld.mainInfo 2 = tipWorld.mainInfo (tipInfo 2).blockHash := by decide +kernel
  have checked : runsMainchain tipUnknown secondStays = true := by decide +kernel
  obtain ⟨archive,ran,stays⟩ := runsMainchainRun checked
  obtain ⟨connected,isConnected,fails⟩ := (Option.any_eq_true _ _).mp stays
  refine ⟨tipWorld,archive,connected,tipInfo 2,tipWorld.mainInfo 2,names,ran,isNamed,contains,toOptionOk isConnected,?_⟩
  intro ⟨last,done,_⟩
  rw [done] at fails
  cases fails

end Example

end Coinshift
