import Coinshift.Archive

/-! The tips the node may reorganise to, as of the current main-chain tip.
A sidechain block is listed when its body arrives and when its main-chain block is connected; bodies that go and
main-chain blocks that are disconnected take listings away. A hash queue bounds its rounds by the stored headers. -/
namespace Coinshift
open Checked

namespace SideTips

def saturatingSucc (height : UInt32) : UInt32 := if height = 0xffffffff then height else height + 1

/- The error is the parent that is not listed. -/
def connectSidechainTip (tips : SideTips) (mainBlockHash : MainHash) (cumulativeWork : Nat) (blockHash : BlockHash)
    (prevSideHash : Option BlockHash) : Except BlockHash SideTips := do
  let sidechainHeight ← match prevSideHash with
    | some parent => do
        let info ← okOr (tips.sidechainTips.tryGet parent) parent
        pure (saturatingSucc info.sidechainHeight)
    | none => pure 0
  if (tips.sidechainTips.tryGet blockHash).isSome then pure tips
  else
    let info : SidechainTipInfo := ⟨sidechainHeight,BitVec.ofNat 256 cumulativeWork,mainBlockHash⟩
    pure { tips with
      sidechainTips := tips.sidechainTips.put blockHash info
      orderedSidechainTips := tips.orderedSidechainTips.put info blockHash }

def disconnectSidechainTip (tips : SideTips) (blockHash : BlockHash) : SideTips :=
  match tips.sidechainTips.tryGet blockHash with
  | none => tips
  | some info => { tips with
      sidechainTips := tips.sidechainTips.delete blockHash
      orderedSidechainTips := tips.orderedSidechainTips.delete info }

def connectMainchainTip (tips : SideTips) (headerInfo : BlockHeaderInfo)
    (bmmCommitment : Option (BlockHash × Option BlockHash)) : Except ConnectMainchainTipError SideTips := do
  let expected := tips.mainchainTip.blockHash
  ensure (headerInfo.prevBlockHash = expected) (.invalidMainchainParent expected)
  ensureSome tips.mainchainTip.tipInfo (fun tipInfo => headerInfo.height = tipInfo.height + 1)
    (fun tipInfo => .invalidTipHeight (tipInfo.height + 1))
  let cumulativeWork := tips.mainchainTip.cumulativeWork + headerInfo.work
  let tips ← match bmmCommitment with
    | some (blockHash,prevSideHash) =>
        (tips.connectSidechainTip headerInfo.blockHash cumulativeWork blockHash prevSideHash).mapError
          .missingSidechainParent
    | none => pure tips
  pure { tips with mainchainTip := ⟨cumulativeWork,some headerInfo⟩ }

def disconnectMainchainTip (tips : SideTips) (prevTipInfo : Option BlockHeaderInfo)
    (bmmCommitment : Option BlockHash) : Except DisconnectMainchainTipError SideTips := do
  let tipInfo ← okOr tips.mainchainTip.tipInfo .noMainchainTip
  let newTipInfo ← match prevTipInfo with
    | some prev => do
        ensure (prev.blockHash = tipInfo.prevBlockHash) (.invalidMainchainParent tipInfo.prevBlockHash)
        ensure (prev.height + 1 = tipInfo.height) (.invalidMainchainParentHeight tipInfo.height)
        pure (if tipInfo.prevBlockHash ≠ MainHash.allZeros then some prev else none)
    | none => do
        ensure (tipInfo.prevBlockHash = MainHash.allZeros) (.invalidMainchainParent tipInfo.prevBlockHash)
        pure none
  let ordered ← match bmmCommitment with
    | some blockHash => do
        let info ← okOr (tips.sidechainTips.tryGet blockHash) (.missingSidechainTip blockHash)
        if info.mainBlockHash = tipInfo.blockHash then do
          -- the entry of `sidechain_tips` stays
          ensure ((tips.orderedSidechainTips.tryGet info).isSome) (.missingSidechainTip blockHash)
          pure (tips.orderedSidechainTips.delete info)
        else pure tips.orderedSidechainTips
    | none => pure tips.orderedSidechainTips
  pure { tips with
    orderedSidechainTips := ordered
    mainchainTip := ⟨tips.mainchainTip.cumulativeWork - tipInfo.work,newTipInfo⟩ }

def bestSideTip (tips : SideTips) : Option (BlockHash × SidechainTipInfo) :=
  tips.orderedSidechainTips.last.map (fun entry => (entry.2,entry.1))

end SideTips

namespace Archive

variable {F : Type}

section Bodies

def listAt (mainTip : MainHash) (blockHash : BlockHash) (header : Header) (acc : Archive F × Bool)
    (entry : MainHash × BmmResult) : Except ArchiveError (Archive F × Bool) :=
  let archive := acc.1
  match entry.2 with
  | .failed => .ok acc
  | .verified =>
      if header.prevSideHash.any (fun parent => (archive.sideTips.sidechainTips.tryGet parent).isNone) then .ok acc
      else do
        let onMainchain ← archive.isMainDescendant entry.1 mainTip
        if onMainchain = false then pure acc
        else do
          let work ← archive.getTotalWork entry.1
          let sideTips ← (archive.sideTips.connectSidechainTip entry.1 work blockHash header.prevSideHash).mapError
            (fun parent => .sideTips (.missingSidechainParent parent))
          pure ({ archive with sideTips },true)

/- The archive, and the blocks to look at next. -/
def updateSideTips (mainTip : MainHash) (archive : Archive F) (blockHash : BlockHash) (header : Header) :
    Except ArchiveError (Archive F × List BlockHash) := do
  let (archive,connected) ← (archive.getBmmResults blockHash).entries.foldlM (listAt mainTip blockHash header)
    (archive,false)
  if connected then do
    let successors ← archive.getSuccessors (some blockHash)
    pure (archive,successors.items)
  else pure (archive,[])

def updateQueue (mainTip : MainHash) : Nat → Archive F → List BlockHash → Except ArchiveError (Archive F)
  | _, archive, [] => .ok archive
  | 0, _, _ :: _ => .error .endless
  | fuel + 1, archive, blockHash :: queue =>
      if archive.containsBody blockHash = false then updateQueue mainTip fuel archive queue
      else do
        let header ← archive.getHeader blockHash
        let (archive,more) ← updateSideTips mainTip archive blockHash header
        updateQueue mainTip fuel archive (queue ++ more)

def putBody (archive : Archive F) (blockHash : BlockHash) (body : Body) : Except ArchiveError (Archive F) := do
  let header ← archive.getHeader blockHash
  let archive := { archive with bodies := archive.bodies.put blockHash body }
  let mainTip := archive.sideTips.mainchainTip.blockHash
  let (archive,queue) ← updateSideTips mainTip archive blockHash header
  updateQueue mainTip archive.headers.entries.length archive queue

def disconnectQueue : Nat → Archive F → List BlockHash → Except ArchiveError (Archive F)
  | _, archive, [] => .ok archive
  | 0, _, _ :: _ => .error .endless
  | fuel + 1, archive, blockHash :: queue =>
      if (archive.sideTips.sidechainTips.tryGet blockHash).isNone then disconnectQueue fuel archive queue
      else do
        let archive := { archive with sideTips := archive.sideTips.disconnectSidechainTip blockHash }
        let successors ← archive.getSuccessors (some blockHash)
        disconnectQueue fuel archive (queue ++ successors.items)

def deleteBody (archive : Archive F) (blockHash : BlockHash) : Except ArchiveError (Archive F) :=
  let archive := { archive with bodies := archive.bodies.delete blockHash }
  disconnectQueue (archive.headers.entries.length + 1) archive [blockHash]

end Bodies

end Archive

inductive MainchainEvent where
  | connectBlock (headerInfo : BlockHeaderInfo) (blockInfo : BlockInfo)
  | disconnectBlock (blockHash : MainHash)
  deriving DecidableEq, Repr

namespace Archive

variable {F : Type}

def listableCommitment (archive : Archive F) (mainHash : MainHash) (blockInfo : BlockInfo) :
    Except ArchiveError (Option (BlockHash × Option BlockHash)) :=
  match blockInfo.bmmCommitment with
  | none => pure none
  | some blockHash =>
      if archive.containsBody blockHash = false then pure none
      else do
        let header ← archive.getHeader blockHash
        if header.prevSideHash.any (fun parent => (archive.sideTips.sidechainTips.tryGet parent).isNone) then pure none
        else do
          match ← archive.getBmmResult blockHash mainHash with
          | .verified => pure (some (blockHash,header.prevSideHash))
          | .failed => pure none

def handleBlockEvent (archive : Archive F) : MainchainEvent → Except ArchiveError (Archive F)
  | .connectBlock headerInfo blockInfo => do
      let archive ← archive.putMainHeaderInfo headerInfo
      let archive ← archive.putMainBlockInfo headerInfo.blockHash blockInfo
      let bmmCommitment ← archive.listableCommitment headerInfo.blockHash blockInfo
      let sideTips ← (archive.sideTips.connectMainchainTip headerInfo bmmCommitment).mapError
        (fun source => .sideTips (.connectMainchainTip headerInfo.blockHash source))
      pure { archive with sideTips }
  | .disconnectBlock blockHash => do
      let headerInfo ← archive.getMainHeaderInfo blockHash
      let blockInfo ← archive.getMainBlockInfo blockHash
      let parentInfo ← archive.mainParentHeaderInfo headerInfo
      let sideTips ← (archive.sideTips.disconnectMainchainTip parentInfo blockInfo.bmmCommitment).mapError
        (fun source => .sideTips (.disconnectMainchainTip source))
      pure { archive with sideTips }

end Archive

end Coinshift
