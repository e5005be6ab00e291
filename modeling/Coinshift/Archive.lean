import Coinshift.Lineage
import Coinshift.Withdrawal

/-! The archive of headers, bodies and main-chain blocks.
Both chains are trees reached through lookups. The order in which a hash map or a hash set is gone through is the
order of its keys here; a total work is a number, and only a stored key cuts it to 256 bits. -/
namespace Coinshift
open Checked Lineage

abbrev MainHash := Hash
abbrev HashSet := Table Hash Unit

def HashSet.insert (set : HashSet) (hash : Hash) : HashSet := set.put hash ()

def HashSet.items (set : HashSet) : List Hash := set.entries.map (·.1)

def MainHash.allZeros : MainHash := 0

inductive BmmResult where
  | verified | failed
  deriving DecidableEq, Repr

structure BlockHeaderInfo where
  blockHash : MainHash
  prevBlockHash : MainHash
  height : Nat
  work : Nat
  deriving DecidableEq, Repr

structure BlockInfo where
  bmmCommitment : Option BlockHash
  events : List BlockEvent
  deriving DecidableEq, Repr

structure Tip where
  blockHash : BlockHash
  mainBlockHash : MainHash
  deriving DecidableEq, Repr

inductive ConnectMainchainTipError where
  | invalidMainchainParent (expected : MainHash)
  | invalidTipHeight (expected : Nat)
  | missingSidechainParent (parent : BlockHash)
  deriving DecidableEq, Repr

inductive DisconnectMainchainTipError where
  | invalidMainchainParent (expected : MainHash)
  | invalidMainchainParentHeight (tipHeight : Nat)
  | missingSidechainTip (tip : BlockHash)
  | noMainchainTip
  deriving DecidableEq, Repr

inductive SideTipsError where
  | connectMainchainTip (tip : MainHash) (source : ConnectMainchainTipError)
  | missingSidechainParent (parent : BlockHash)
  | disconnectMainchainTip (source : DisconnectMainchainTipError)
  deriving DecidableEq, Repr

inductive ArchiveError where
  | invalidPrevSideHash
  | noAccumulator (blockHash : BlockHash)
  | noAncestor (blockHash : BlockHash) (depth : Nat)
  | noMainAncestor (blockHash : MainHash) (depth : Nat)
  | noBlockHash (blockHash : BlockHash)
  | noBmmResult (blockHash : BlockHash)
  | noBody (blockHash : BlockHash)
  | noHeader (blockHash : BlockHash)
  | noHeight (blockHash : BlockHash)
  | noMainBlockHash (blockHash : MainHash)
  | noMainBlockInfo (blockHash : MainHash)
  | noMainHeaderInfo (blockHash : MainHash)
  | noMainHeight (blockHash : MainHash)
  | sideTips (source : SideTipsError)
  -- a `get` that finds nothing
  | missingValue
  | panic
  -- a walk that does not end
  | endless
  deriving DecidableEq, Repr

/- `SidechainTipInfo`: stored with the height and the work first, most significant byte first. -/
structure SidechainTipInfo where
  sidechainHeight : UInt32
  work : BitVec 256
  mainBlockHash : MainHash
  deriving DecidableEq, Repr

def SidechainTipInfo.rank (info : SidechainTipInfo) : Nat :=
  (info.sidechainHeight.toNat * 2 ^ 256 + info.work.toNat) * 2 ^ 256 + info.mainBlockHash.toNat

instance : DbKey SidechainTipInfo where
  rank := SidechainTipInfo.rank
  rankInjective := by
    intro a b same
    have := a.work.isLt
    have := b.work.isLt
    have := a.mainBlockHash.isLt
    have := b.mainBlockHash.isLt
    simp only [SidechainTipInfo.rank] at same
    have heights : a.sidechainHeight = b.sidechainHeight := UInt32.toNat_inj.mp (by omega)
    have works : a.work = b.work := BitVec.eq_of_toNat_eq (by omega)
    have hashes : a.mainBlockHash = b.mainBlockHash := BitVec.eq_of_toNat_eq (by omega)
    cases a
    cases b
    simp_all

instance : DbKey (Option Hash) where
  rank
    | none => 0
    | some hash => hash.toNat + 1
  rankInjective := by
    intro a b same
    cases a <;> cases b <;> simp_all [BitVec.toNat_inj]

structure MainchainTip where
  cumulativeWork : Nat
  tipInfo : Option BlockHeaderInfo
  deriving DecidableEq, Repr

def MainchainTip.blockHash (tip : MainchainTip) : MainHash :=
  match tip.tipInfo with
  | some info => info.blockHash
  | none => MainHash.allZeros

structure SideTips where
  mainchainTip : MainchainTip
  sidechainTips : Table BlockHash SidechainTipInfo
  orderedSidechainTips : Table SidechainTipInfo BlockHash

structure Archive (F : Type) where
  accumulators : Table BlockHash F
  blockHashToHeight : Table BlockHash Nat
  bmmResults : Table BlockHash (Table MainHash BmmResult)
  bodies : Table BlockHash Body
  exponentialAncestors : Table BlockHash (List BlockHash)
  exponentialMainAncestors : Table MainHash (List MainHash)
  headers : Table BlockHash Header
  mainBlockHashToHeight : Table MainHash Nat
  mainBlockInfos : Table MainHash BlockInfo
  mainHeaderInfos : Table MainHash BlockHeaderInfo
  mainSuccessors : Table MainHash HashSet
  sideTips : SideTips
  successors : Table (Option BlockHash) HashSet
  totalWork : Table MainHash Nat

namespace Archive

variable {F : Type}

def new (F : Type) : Archive F where
  accumulators := ∅
  blockHashToHeight := ∅
  bmmResults := ∅
  bodies := ∅
  exponentialAncestors := ∅
  exponentialMainAncestors := ∅
  headers := ∅
  mainBlockHashToHeight := ∅
  mainBlockInfos := ∅
  mainHeaderInfos := ∅
  mainSuccessors := (∅ : Table MainHash HashSet).put MainHash.allZeros ∅
  sideTips := ⟨⟨0,none⟩,∅,∅⟩
  successors := (∅ : Table (Option BlockHash) HashSet).put none ∅
  totalWork := ∅

variable (archive : Archive F)

section Lookups

def getAccumulator (blockHash : BlockHash) : Except ArchiveError F :=
  okOr (archive.accumulators.tryGet blockHash) (.noAccumulator blockHash)

def getHeight (blockHash : BlockHash) : Except ArchiveError Nat :=
  okOr (archive.blockHashToHeight.tryGet blockHash) (.noHeight blockHash)

def getBmmResults (blockHash : BlockHash) : Table MainHash BmmResult := (archive.bmmResults.tryGet blockHash).getD ∅

def containsBody (blockHash : BlockHash) : Bool := (archive.bodies.tryGet blockHash).isSome

def getBmmResult (blockHash : BlockHash) (mainHash : MainHash) : Except ArchiveError BmmResult :=
  okOr ((archive.getBmmResults blockHash).tryGet mainHash) (.noBmmResult blockHash)

def getBody (blockHash : BlockHash) : Except ArchiveError Body :=
  okOr (archive.bodies.tryGet blockHash) (.noBody blockHash)

def getHeader (blockHash : BlockHash) : Except ArchiveError Header :=
  okOr (archive.headers.tryGet blockHash) (.noHeader blockHash)

def getMainBlockInfo (mainHash : MainHash) : Except ArchiveError BlockInfo :=
  okOr (archive.mainBlockInfos.tryGet mainHash) (.noMainBlockInfo mainHash)

def getMainHeight (mainHash : MainHash) : Except ArchiveError Nat :=
  okOr (archive.mainBlockHashToHeight.tryGet mainHash) (.noMainHeight mainHash)

def getMainHeaderInfo (mainHash : MainHash) : Except ArchiveError BlockHeaderInfo :=
  okOr (archive.mainHeaderInfos.tryGet mainHash) (.noMainHeaderInfo mainHash)

def getMainSuccessors (mainHash : MainHash) : Except ArchiveError HashSet :=
  okOr (archive.mainSuccessors.tryGet mainHash) (.noMainBlockHash mainHash)

def getSuccessors (blockHash : Option BlockHash) : Except ArchiveError HashSet :=
  match archive.successors.tryGet blockHash with
  | some successors => .ok successors
  | none =>
      match blockHash with
      | some blockHash => .error (.noBlockHash blockHash)
      | none => .error .panic

def getTotalWork (mainHash : MainHash) : Except ArchiveError Nat :=
  okOr (archive.totalWork.tryGet mainHash) (.noMainHeaderInfo mainHash)

/- The verified main-chain block with the most work; the first one listed when several have as much. -/
def tryGetBestMainVerification (blockHash : BlockHash) : Except ArchiveError (Option MainHash) := do
  let verified := ((archive.getBmmResults blockHash).entries.filter (fun entry => entry.2 = .verified)).map (·.1)
  let weighed ← collect (fun main => (archive.getTotalWork main).map (fun work => (main,work))) verified
  pure ((weighed.foldl (fun best next =>
    match best with
    | some (main,work) => if work < next.2 then some next else some (main,work)
    | none => some next) none).map (·.1))

def getBestMainVerification (blockHash : BlockHash) : Except ArchiveError MainHash := do
  okOr (← archive.tryGetBestMainVerification blockHash) (.noBmmResult blockHash)

end Lookups

section Ancestors

def links : Links ArchiveError BlockHash where
  height := archive.getHeight
  parent blockHash := do
    let header ← archive.getHeader blockHash
    okOr header.prevSideHash .panic
  jumps blockHash := okOr (archive.exponentialAncestors.tryGet blockHash) .missingValue
  noAncestor := .noAncestor
  outOfRange := .panic

def mainLinks : Links ArchiveError MainHash where
  height := archive.getMainHeight
  parent mainHash := do
    let info ← archive.getMainHeaderInfo mainHash
    pure info.prevBlockHash
  jumps mainHash := okOr (archive.exponentialMainAncestors.tryGet mainHash) .missingValue
  noAncestor := .noMainAncestor
  outOfRange := .panic

def getNthAncestor : BlockHash → Nat → Except ArchiveError BlockHash := archive.links.nthAncestor

def getNthMainAncestor : MainHash → Nat → Except ArchiveError MainHash := archive.mainLinks.nthAncestor

def isDescendant : BlockHash → BlockHash → Except ArchiveError Bool := archive.links.isDescendant

def isMainDescendant : MainHash → MainHash → Except ArchiveError Bool := archive.mainLinks.isDescendant

/- The headers bound the walk of `ancestors`. -/
def ancestorsFind {β : Type} (f : BlockHash → Except ArchiveError (Option β)) (blockHash : BlockHash) :
    Except ArchiveError (Option β) :=
  walkFind (fun b => (archive.getHeader b).map (·.prevSideHash)) f .endless archive.headers.entries.length (some blockHash)

def ancestorsUntil {β : Type} (stop : BlockHash → Bool) (f : BlockHash → Except ArchiveError (Option β))
    (blockHash : BlockHash) : Except ArchiveError (List β) :=
  walkUntil (fun b => (archive.getHeader b).map (·.prevSideHash)) stop f .endless archive.headers.entries.length
    (some blockHash)

/- The zero hash is no block. -/
def mainBlock (mainHash : MainHash) : Option MainHash := if mainHash = MainHash.allZeros then none else some mainHash

def mainAncestorsUntil {β : Type} (stop : MainHash → Bool) (f : MainHash → Except ArchiveError (Option β))
    (mainHash : MainHash) : Except ArchiveError (List β) :=
  walkUntil (fun m => (archive.getMainHeaderInfo m).map (fun info => mainBlock info.prevBlockHash)) stop f .endless
    archive.mainHeaderInfos.entries.length (mainBlock mainHash)

def lastCommonAncestor (blockHash0 blockHash1 : BlockHash) : Except ArchiveError (Option BlockHash) := do
  let (blockHash0,blockHash1,height) ← archive.links.equalize blockHash0 blockHash1
  if blockHash0 = blockHash1 then pure (some blockHash0)
  else do
    let oldest0 ← archive.getNthAncestor blockHash0 height
    let oldest1 ← archive.getNthAncestor blockHash1 height
    if oldest0 ≠ oldest1 then pure none
    else do
      let depth ← archive.links.meet blockHash0 blockHash1 height 1 height
      let ancestor ← archive.getNthAncestor blockHash0 depth
      pure (some ancestor)

def lastCommonMainAncestor : MainHash → MainHash → Except ArchiveError MainHash := archive.mainLinks.lastCommon

def sharedMainchainLineage (mainHash0 mainHash1 : MainHash) : Except ArchiveError Bool := do
  let (ancestor0,ancestor1,_) ← archive.mainLinks.equalize mainHash0 mainHash1
  pure (ancestor0 = ancestor1)

def mainParentHeaderInfo (info : BlockHeaderInfo) : Except ArchiveError (Option BlockHeaderInfo) :=
  if info.prevBlockHash = MainHash.allZeros then .ok none
  else (archive.getMainHeaderInfo info.prevBlockHash).map some

end Ancestors

section Puts

variable (lib : Externals F)

def putAccumulator (blockHash : BlockHash) (accumulator : F) : Archive F :=
  { archive with accumulators := archive.accumulators.put blockHash accumulator }

def parentVerified (parentResults : Table MainHash BmmResult) (mainBlock : MainHash) : Except ArchiveError Bool :=
  parentResults.entries.anyM (fun entry =>
    if entry.2 = .verified then archive.isMainDescendant entry.1 mainBlock else .ok false)

def bmmResultAt (header : Header) (blockHash : BlockHash) (parentResults : Option (Table MainHash BmmResult))
    (mainBlock : MainHash) : Except ArchiveError BmmResult := do
  let info ← archive.getMainBlockInfo mainBlock
  match info.bmmCommitment with
  | none => pure .failed
  | some commitment =>
      if commitment ≠ blockHash then pure .failed
      else do
        let mainHeaderInfo ← archive.getMainHeaderInfo mainBlock
        if header.prevMainHash ≠ mainHeaderInfo.prevBlockHash then pure .failed
        else
          match parentResults with
          | none => pure .verified
          | some parentResults => do
              let verified ← archive.parentVerified parentResults mainBlock
              pure (if verified then .verified else .failed)

def heightFor (header : Header) : Except ArchiveError Nat :=
  match header.prevSideHash with
  | none => pure 0
  | some parent => do
      let height ← okOr (archive.blockHashToHeight.tryGet parent) .invalidPrevSideHash
      pure (height + 1)

def exponentialAncestorsFor (header : Header) (height : Nat) : Except ArchiveError (List BlockHash) :=
  match header.prevSideHash with
  | some parent => archive.links.exponentialAncestors parent height
  | none => pure []

def putHeader (header : Header) : Except ArchiveError (Archive F) := do
  let height ← archive.heightFor header
  let blockHash := header.hash lib
  let archive := { archive with
    blockHashToHeight := archive.blockHashToHeight.put blockHash height
    headers := archive.headers.put blockHash header }
  let predSuccessors ← archive.getSuccessors header.prevSideHash
  let archive := { archive with
    successors := archive.successors.put header.prevSideHash (predSuccessors.insert blockHash) }
  let successors := (archive.successors.tryGet (some blockHash)).getD ∅
  let archive := { archive with successors := archive.successors.put (some blockHash) successors }
  let exponentialAncestors ← archive.exponentialAncestorsFor header height
  let archive := { archive with
    exponentialAncestors := archive.exponentialAncestors.put blockHash exponentialAncestors }
  let parentResults := header.prevSideHash.map archive.getBmmResults
  let mainBlocks ← archive.getMainSuccessors header.prevMainHash
  let results ← mainBlocks.items.foldlM (fun results mainBlock => do
    let result ← archive.bmmResultAt header blockHash parentResults mainBlock
    pure (results.put mainBlock result)) (archive.getBmmResults blockHash)
  pure { archive with bmmResults := archive.bmmResults.put blockHash results }

def bmmResultOf (header : Header) (mainHeaderInfo : BlockHeaderInfo) (mainHash : MainHash) :
    Except ArchiveError BmmResult :=
  if header.prevMainHash ≠ mainHeaderInfo.prevBlockHash then pure .failed
  else match header.prevSideHash with
    | some parent => do
        let verified ← archive.parentVerified (archive.getBmmResults parent) mainHash
        pure (if verified then .verified else .failed)
    | none => pure .verified

def putMainBlockInfo (mainHash : MainHash) (blockInfo : BlockInfo) : Except ArchiveError (Archive F) := do
  let mainHeaderInfo ← archive.getMainHeaderInfo mainHash
  ensure (mainHeaderInfo.prevBlockHash = MainHash.allZeros ∨
    (archive.mainBlockInfos.tryGet mainHeaderInfo.prevBlockHash).isSome) (.noMainBlockInfo mainHeaderInfo.prevBlockHash)
  let archive := { archive with mainBlockInfos := archive.mainBlockInfos.put mainHash blockInfo }
  match blockInfo.bmmCommitment with
  | none => pure archive
  | some commitment =>
      match archive.headers.tryGet commitment with
      | none => pure archive
      | some header => do
          let result ← archive.bmmResultOf header mainHeaderInfo mainHash
          let results := (archive.getBmmResults commitment).put mainHash result
          pure { archive with bmmResults := archive.bmmResults.put commitment results }

def mainHeightFor (info : BlockHeaderInfo) : Except ArchiveError Nat :=
  if info.prevBlockHash = MainHash.allZeros then pure 0
  else do
    let prevHeight ← archive.getMainHeight info.prevBlockHash
    pure (prevHeight + 1)

def totalWorkFor (info : BlockHeaderInfo) : Except ArchiveError Nat :=
  if info.prevBlockHash = MainHash.allZeros then pure info.work
  else do
    let prevWork ← archive.getTotalWork info.prevBlockHash
    pure (prevWork + info.work)

def putMainHeaderInfo (info : BlockHeaderInfo) : Except ArchiveError (Archive F) := do
  ensure ((archive.mainHeaderInfos.tryGet info.prevBlockHash).isSome ∨ info.prevBlockHash = MainHash.allZeros)
    (.noMainHeaderInfo info.prevBlockHash)
  let height ← archive.mainHeightFor info
  let totalWork ← archive.totalWorkFor info
  let archive := { archive with
    mainBlockHashToHeight := archive.mainBlockHashToHeight.put info.blockHash height
    mainHeaderInfos := archive.mainHeaderInfos.put info.blockHash info
    totalWork := archive.totalWork.put info.blockHash totalWork }
  let predSuccessors ← archive.getMainSuccessors info.prevBlockHash
  let archive := { archive with
    mainSuccessors := archive.mainSuccessors.put info.prevBlockHash (predSuccessors.insert info.blockHash) }
  let successors := (archive.mainSuccessors.tryGet info.blockHash).getD ∅
  let archive := { archive with mainSuccessors := archive.mainSuccessors.put info.blockHash successors }
  let exponentialAncestors ← archive.mainLinks.exponentialAncestors info.prevBlockHash height
  pure { archive with
    exponentialMainAncestors := archive.exponentialMainAncestors.put info.blockHash exponentialAncestors }

end Puts

section ForkChoice

/- What `f` says of a block that was committed to before `mainAncestor` or in it. -/
def ifBefore {β : Type} (mainAncestor : MainHash) (f : BlockHash → Header → Except ArchiveError β)
    (blockHash : BlockHash) : Except ArchiveError (Option β) := do
  let header ← archive.getHeader blockHash
  let before ← archive.isMainDescendant header.prevMainHash mainAncestor
  if before = false then pure none
  else if header.prevMainHash = mainAncestor then pure none
  else do
    let found ← f blockHash header
    pure (some found)

def ancestorBefore {β : Type} (mainAncestor : MainHash) (f : BlockHash → Header → Except ArchiveError β) :
    BlockHash → Except ArchiveError (Option β) := archive.ancestorsFind (archive.ifBefore mainAncestor f)

def heightBefore (mainAncestor : MainHash) : BlockHash → Except ArchiveError (Option Nat) :=
  archive.ancestorBefore mainAncestor (fun ancestor _ => archive.getHeight ancestor)

def heightAndWorkBefore (mainAncestor : MainHash) (mainAncestorHeight : Nat) :
    BlockHash → Except ArchiveError (Option (Nat × Nat)) :=
  archive.ancestorBefore mainAncestor (fun ancestor header => do
    let height ← archive.getHeight ancestor
    let prevHeight ← archive.getMainHeight header.prevMainHash
    let mainBlock ← archive.getNthMainAncestor mainAncestor (mainAncestorHeight - (prevHeight + 1))
    let work ← archive.getTotalWork mainBlock
    pure (height,work))

/- `Option`'s order: none comes before everything. -/
def place : Option Nat → Nat
  | none => 0
  | some n => n + 1

def betterTip (tip0 tip1 : Tip) : Except ArchiveError (Option Tip) :=
  if tip0 = tip1 then pure none
  else do
    let height0 ← archive.getHeight tip0.blockHash
    let height1 ← archive.getHeight tip1.blockHash
    if height0 = 0 ∧ height1 = 0 then pure none
    else if height0 = 0 then pure (some tip1)
    else if height1 = 0 then pure (some tip0)
    else do
      let work0 ← archive.getTotalWork tip0.mainBlockHash
      let work1 ← archive.getTotalWork tip1.mainBlockHash
      match compare work0 work1,compare height0 height1 with
      | .lt,.lt | .eq,.lt => pure (some tip1)
      | .eq,.gt | .gt,.gt => pure (some tip0)
      | .lt,.eq => do
          let shared ← archive.sharedMainchainLineage tip0.mainBlockHash tip1.mainBlockHash
          pure (some (if shared then tip0 else tip1))
      | .gt,.eq => do
          let shared ← archive.sharedMainchainLineage tip0.mainBlockHash tip1.mainBlockHash
          pure (some (if shared = false then tip0 else tip1))
      | .lt,.gt => do
          let mainAncestor ← archive.lastCommonMainAncestor tip0.mainBlockHash tip1.mainBlockHash
          let before0 ← archive.heightBefore mainAncestor tip0.blockHash
          pure (some (if place (some height1) ≤ place before0 then tip0 else tip1))
      | .gt,.lt => do
          let mainAncestor ← archive.lastCommonMainAncestor tip0.mainBlockHash tip1.mainBlockHash
          let before1 ← archive.heightBefore mainAncestor tip1.blockHash
          pure (some (if place before1 < place (some height0) then tip0 else tip1))
      | .eq,.eq =>
          if tip0.blockHash = tip1.blockHash then pure (some tip0)
          else do
            let mainAncestor ← archive.lastCommonMainAncestor tip0.mainBlockHash tip1.mainBlockHash
            let mainAncestorHeight ← archive.getMainHeight mainAncestor
            let before0 ← archive.heightAndWorkBefore mainAncestor mainAncestorHeight tip0.blockHash
            let before1 ← archive.heightAndWorkBefore mainAncestor mainAncestorHeight tip1.blockHash
            match compare (place (before0.map (·.2))) (place (before1.map (·.2))),
              compare (place (before0.map (·.1))) (place (before1.map (·.1))) with
            | .lt,.eq | .eq,.eq | _,.gt => pure (some tip0)
            | .gt,.eq | _,.lt => pure (some tip1)

end ForkChoice

end Archive

end Coinshift
