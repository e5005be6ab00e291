import Coinshift.ForkChoice
import Coinshift.ListedTips

/-! The comparison with the tip a peer announces.
It is the choice between two tips once more, over announced heights and works, without its first lines: those say that
a genesis block is never better than another block. -/
namespace Coinshift
open Checked Lineage

variable {F : Type} {lib : Externals F} {world : World} {ops : List ArchiveOp}

def HashSet.ofList (hashes : List Hash) : HashSet := hashes.foldl HashSet.insert ∅

structure TipInfo where
  blockHeight : Nat
  tip : Tip
  totalWork : Nat
  deriving DecidableEq, Repr

structure GetHeadersRequest where
  start : HashSet
  end_ : BlockHash
  height : Option Nat
  peerStateId : Option Hash

structure PeerTipAnswer where
  answer : Option Bool
  request : Option GetHeadersRequest

namespace Archive

section Check

variable (archive : Archive F)

def getBlockLocator (blockHash : BlockHash) : Except ArchiveError (List BlockHash) := do
  let header ← archive.getHeader blockHash
  let res ← okOr (archive.exponentialAncestors.tryGet blockHash) .missingValue
  pure (header.prevSideHash.toList ++ res)

def requestHeaders (start : Except ArchiveError (List BlockHash)) (peer : TipInfo) (peerStateId : Hash) :
    Except ArchiveError PeerTipAnswer := do
  let start ← start
  pure ⟨some false,some ⟨HashSet.ofList start,peer.tip.blockHash,some peer.blockHeight,some peerStateId⟩⟩

def requestIfMissing (start : Except ArchiveError (List BlockHash)) (peer : TipInfo) (peerStateId : Hash) :
    Except ArchiveError PeerTipAnswer :=
  if (archive.headers.tryGet peer.tip.blockHash).isNone then requestHeaders start peer peerStateId
  else pure ⟨some true,none⟩

def comparePeerTip (tip peer : TipInfo) (peerStateId : Hash) : Except ArchiveError PeerTipAnswer :=
  let start := archive.getBlockLocator tip.tip.blockHash
  match compare tip.totalWork peer.totalWork,compare tip.blockHeight peer.blockHeight with
  | .lt,.lt | .eq,.lt => archive.requestIfMissing start peer peerStateId
  | .eq,.gt | .gt,.gt => pure ⟨none,none⟩
  | .lt,.eq => do
      let shared ← archive.sharedMainchainLineage tip.tip.mainBlockHash peer.tip.mainBlockHash
      if shared then pure ⟨none,none⟩ else archive.requestIfMissing start peer peerStateId
  | .gt,.eq => do
      let shared ← archive.sharedMainchainLineage tip.tip.mainBlockHash peer.tip.mainBlockHash
      if shared = false then pure ⟨none,none⟩ else archive.requestIfMissing start peer peerStateId
  | .lt,.gt => do
      let mainAncestor ← archive.lastCommonMainAncestor tip.tip.mainBlockHash peer.tip.mainBlockHash
      let tipAncestorHeight ← archive.heightBefore mainAncestor tip.tip.blockHash
      if place (some peer.blockHeight) ≤ place tipAncestorHeight then pure ⟨none,none⟩
      else archive.requestIfMissing start peer peerStateId
  | .gt,.lt =>
      if (archive.headers.tryGet peer.tip.blockHash).isNone then requestHeaders start peer peerStateId
      else do
        let mainAncestor ← archive.lastCommonMainAncestor tip.tip.mainBlockHash peer.tip.mainBlockHash
        let peerTipAncestorHeight ← archive.heightBefore mainAncestor peer.tip.blockHash
        if place peerTipAncestorHeight < place (some tip.blockHeight) then pure ⟨none,none⟩ else pure ⟨some true,none⟩
  | .eq,.eq =>
      if peer.tip.blockHash = tip.tip.blockHash then pure ⟨none,none⟩
      else if (archive.headers.tryGet peer.tip.blockHash).isNone then requestHeaders start peer peerStateId
      else do
        let mainAncestor ← archive.lastCommonMainAncestor tip.tip.mainBlockHash peer.tip.mainBlockHash
        let mainAncestorHeight ← archive.getMainHeight mainAncestor
        let tipAncestor ← archive.heightAndWorkBefore mainAncestor mainAncestorHeight tip.tip.blockHash
        let peerTipAncestor ← archive.heightAndWorkBefore mainAncestor mainAncestorHeight peer.tip.blockHash
        match compare (place (tipAncestor.map (·.2))) (place (peerTipAncestor.map (·.2))),
          compare (place (tipAncestor.map (·.1))) (place (peerTipAncestor.map (·.1))) with
        | .lt,.eq | .eq,.eq | _,.gt => pure ⟨none,none⟩
        | .gt,.eq | _,.lt => pure ⟨some true,none⟩

/- A peer whose main-chain block is not on the current main chain is ignored. -/
def checkPeerTipAndRequestHeaders (tip : Option TipInfo) (peer : TipInfo) (peerStateId : Hash) :
    Except ArchiveError PeerTipAnswer :=
  if (archive.mainHeaderInfos.tryGet peer.tip.mainBlockHash).isNone then pure ⟨none,none⟩
  else match archive.sideTips.mainchainTip.tipInfo with
    | none => pure ⟨none,none⟩
    | some sideTipsTip => do
        let onChain ← archive.isMainDescendant peer.tip.mainBlockHash sideTipsTip.blockHash
        if onChain = false then pure ⟨none,none⟩
        else match tip with
          | none => archive.requestIfMissing (pure []) peer peerStateId
          | some tip => archive.comparePeerTip tip peer peerStateId

end Check

variable {archive : Archive F} {tip peer : TipInfo} {t u : Tip} {h0 h1 w0 w1 : Nat} {x : MainHash}

section Search

variable {β : Type} {f : BlockHash → Header → Except ArchiveError β} {b c : BlockHash} {header : Header}

def StrictlyAbove (archive : Archive F) (q x : MainHash) : Prop := archive.mainLinks.Descends q x ∧ q ≠ x

/- Going up from a block: the first one that names a main-chain block strictly above `x`, after blocks that name known
blocks elsewhere. -/
inductive FirstBefore (archive : Archive F) (x : MainHash) : BlockHash → Option BlockHash → Prop
  | here {b : BlockHash} {header : Header} (stored : archive.headers.tryGet b = some header)
      (above : archive.StrictlyAbove header.prevMainHash x) : FirstBefore archive x b (some b)
  | last {b : BlockHash} {header : Header} {k : Nat} (stored : archive.headers.tryGet b = some header)
      (known : archive.mainLinks.height header.prevMainHash = .ok k) (apart : ¬ archive.StrictlyAbove header.prevMainHash x)
      (first : header.prevSideHash = none) : FirstBefore archive x b none
  | up {b p : BlockHash} {header : Header} {k : Nat} {found : Option BlockHash}
      (stored : archive.headers.tryGet b = some header)
      (known : archive.mainLinks.height header.prevMainHash = .ok k) (apart : ¬ archive.StrictlyAbove header.prevMainHash x)
      (isParent : header.prevSideHash = some p) (rest : FirstBefore archive x p found) : FirstBefore archive x b found

def Says (archive : Archive F) (f : BlockHash → Header → Except ArchiveError β) : Option BlockHash → Option β → Prop
  | none, result => result = none
  | some c, result => ∃ header value, archive.headers.tryGet c = some header ∧ f c header = .ok value ∧ result = some value

theorem MainTree.ifAbove (tree : MainTree world archive) {h : Nat} (height : archive.mainLinks.height x = .ok h)
    (stored : archive.headers.tryGet b = some header) (above : archive.StrictlyAbove header.prevMainHash x) {value : β}
    (isValue : f b header = .ok value) : archive.ifBefore x f b = .ok (some value) := by
  obtain ⟨k,_,known,_⟩ := tree.sound.descent above.1 height
  obtain ⟨answer,isAnswer,holds⟩ := tree.sound.isDescendant known height
  have before : archive.isMainDescendant header.prevMainHash x = .ok true := by
    rw [isMainDescendant,isAnswer,holds.mpr above.1]
  rw [Archive.ifBefore,getHeader,okOrOk.mpr stored,okBind,before,okBind,if_neg (by decide),if_neg above.2,isValue]
  rfl

theorem MainTree.ifElsewhere (tree : MainTree world archive) {h k : Nat} (height : archive.mainLinks.height x = .ok h)
    (stored : archive.headers.tryGet b = some header) (known : archive.mainLinks.height header.prevMainHash = .ok k)
    (apart : ¬ archive.StrictlyAbove header.prevMainHash x) : archive.ifBefore x f b = .ok none := by
  obtain ⟨answer,isAnswer,holds⟩ := tree.sound.isDescendant known height
  rw [Archive.ifBefore,getHeader,okOrOk.mpr stored,okBind,isMainDescendant,isAnswer,okBind]
  split
  · rfl
  · next succeeds =>
      rw [if_pos]
      · rfl
      · refine not_not.mp (fun other => apart ⟨holds.mp ?_,other⟩)
        rwa [Bool.not_eq_false] at succeeds

theorem SideTree.heightBound (sides : SideTree lib world archive) {h : Nat}
    (height : archive.blockHashToHeight.tryGet b = some h) : h < archive.headers.entries.length := by
  have every : List.range (h + 1) ⊆ archive.headers.entries.map (fun entry => archive.heightOf entry.1) := by
    intro k mem
    have le : k ≤ h := Nat.le_of_lt_succ (List.mem_range.mp mem)
    obtain ⟨a,_,isHeight⟩ := sides.sound.upHeight (heightOk.mpr height) (Nat.sub_le h k)
    rw [Nat.sub_sub_self le] at isHeight
    obtain ⟨header,stored⟩ := sides.heights.only (heightOk.mp isHeight)
    refine List.mem_map.mpr ⟨(a,header),Table.memEntries.mpr stored,?_⟩
    rw [heightOf,heightOk.mp isHeight]
    rfl
  simpa using List.nodup_range.length_le_of_subset every

/- By induction on the search: the blocks above are fewer than the headers, so that the walk does not end early. -/
theorem FirstBefore.walks {found : Option BlockHash} {result : Option β} {fuel h hx : Nat}
    (search : FirstBefore archive x b found) (sides : SideTree lib world archive) (tree : MainTree world archive)
    (heightX : archive.mainLinks.height x = .ok hx) (tells : Says archive f found result)
    (height : archive.blockHashToHeight.tryGet b = some h) (enough : h < fuel) :
    walkFind (fun b => (archive.getHeader b).map (·.prevSideHash)) (archive.ifBefore x f) .endless fuel (some b) =
      .ok result := by
  induction search generalizing fuel h with
  | @here b header stored above =>
      obtain ⟨header',value,stored',isValue,rfl⟩ := tells
      cases stored.symm.trans stored'
      obtain ⟨fuel,rfl⟩ := Nat.exists_eq_add_of_le' (Nat.lt_of_le_of_lt (Nat.zero_le h) enough)
      have answer := tree.ifAbove heightX stored above isValue
      rw [walkFind,getHeader,okOrOk.mpr stored]
      simp only [Except.map,okBind,answer]
  | @last b header k stored known apart first =>
      cases tells
      obtain ⟨fuel,rfl⟩ := Nat.exists_eq_add_of_le' (Nat.lt_of_le_of_lt (Nat.zero_le h) enough)
      have answer : archive.ifBefore x f b = .ok none := tree.ifElsewhere heightX stored known apart
      rw [walkFind,getHeader,okOrOk.mpr stored]
      simp only [Except.map,okBind,answer,first]
      cases fuel <;> rfl
  | @up b p header k found stored known apart isParent rest ih =>
      obtain ⟨fuel,rfl⟩ := Nat.exists_eq_add_of_le' (Nat.lt_of_le_of_lt (Nat.zero_le h) enough)
      have answer : archive.ifBefore x f b = .ok none := tree.ifElsewhere heightX stored known apart
      obtain ⟨h',height',count⟩ := sides.heights.counted stored
      cases height.symm.trans height'
      rcases sideCounts count with ⟨first,_⟩ | ⟨q,j,isChild,parentHeight,rfl⟩
      · cases first.symm.trans isParent
      · cases isChild.symm.trans isParent
        rw [walkFind,getHeader,okOrOk.mpr stored]
        simp only [Except.map,okBind,answer,isParent]
        exact ih tells parentHeight (Nat.lt_of_succ_lt_succ enough)

theorem MainTree.walkSearch (tree : MainTree world archive) {fuel hx : Nat} {result : Option β}
    (heightX : archive.mainLinks.height x = .ok hx)
    (ok : walkFind (fun b => (archive.getHeader b).map (·.prevSideHash)) (archive.ifBefore x f) .endless fuel (some b) =
      .ok result) : ∃ found, FirstBefore archive x b found ∧ Says archive f found result := by
  induction fuel generalizing b with
  | zero => cases ok
  | succ fuel ih =>
      simp only [walkFind,bindOk] at ok
      obtain ⟨following,isNext,answer,isAnswer,rest⟩ := ok
      obtain ⟨header,isStored,isFollowing⟩ := mapOk.mp isNext
      have stored := okOrOk.mp isStored
      obtain ⟨⟨k,known⟩,⟨rfl,apart⟩ | ⟨above,value,isValue,rfl⟩⟩ := tree.ifBefore heightX stored isAnswer
      · cases following with
        | none =>
            have nothing : result = none := by cases fuel <;> cases rest <;> rfl
            exact ⟨none,.last stored known apart isFollowing,nothing⟩
        | some p =>
            obtain ⟨found,search,tells⟩ := ih rest
            exact ⟨found,.up stored known apart isFollowing search,tells⟩
      · cases rest
        exact ⟨some b,.here stored above,header,value,stored,isValue,rfl⟩

theorem Trees.ancestorBeforeOk (trees : Trees lib world archive) {h hx : Nat} {result : Option β}
    (heightX : archive.mainLinks.height x = .ok hx) (height : archive.blockHashToHeight.tryGet b = some h) :
    archive.ancestorBefore x f b = .ok result ↔ ∃ found, FirstBefore archive x b found ∧ Says archive f found result := by
  constructor
  · exact trees.main.walkSearch heightX
  · rintro ⟨found,search,tells⟩
    exact search.walks trees.sides trees.main heightX tells height (trees.sides.heightBound height)

end Search

section Agreement

def rankTips (archive : Archive F) (t u : Tip) (h0 h1 w0 w1 : Nat) : Except ArchiveError (Option Tip) :=
  match compare w0 w1,compare h0 h1 with
  | .lt,.lt | .eq,.lt => pure (some u)
  | .eq,.gt | .gt,.gt => pure (some t)
  | .lt,.eq => do
      let shared ← archive.sharedMainchainLineage t.mainBlockHash u.mainBlockHash
      pure (some (if shared then t else u))
  | .gt,.eq => do
      let shared ← archive.sharedMainchainLineage t.mainBlockHash u.mainBlockHash
      pure (some (if shared = false then t else u))
  | .lt,.gt => do
      let mainAncestor ← archive.lastCommonMainAncestor t.mainBlockHash u.mainBlockHash
      let before0 ← archive.heightBefore mainAncestor t.blockHash
      pure (some (if place (some h1) ≤ place before0 then t else u))
  | .gt,.lt => do
      let mainAncestor ← archive.lastCommonMainAncestor t.mainBlockHash u.mainBlockHash
      let before1 ← archive.heightBefore mainAncestor u.blockHash
      pure (some (if place before1 < place (some h0) then t else u))
  | .eq,.eq =>
      if t.blockHash = u.blockHash then pure (some t)
      else do
        let mainAncestor ← archive.lastCommonMainAncestor t.mainBlockHash u.mainBlockHash
        let mainAncestorHeight ← archive.getMainHeight mainAncestor
        let before0 ← archive.heightAndWorkBefore mainAncestor mainAncestorHeight t.blockHash
        let before1 ← archive.heightAndWorkBefore mainAncestor mainAncestorHeight u.blockHash
        match compare (place (before0.map (·.2))) (place (before1.map (·.2))),
          compare (place (before0.map (·.1))) (place (before1.map (·.1))) with
        | .lt,.eq | .eq,.eq | _,.gt => pure (some t)
        | .gt,.eq | _,.lt => pure (some u)

structure Claims (archive : Archive F) (info : TipInfo) : Prop where
  stored : (archive.headers.tryGet info.tip.blockHash).isSome = true
  height : archive.blockHashToHeight.tryGet info.tip.blockHash = some info.blockHeight
  work : archive.totalWork.tryGet info.tip.mainBlockHash = some info.totalWork

def called (peer : Tip) (better : Option Tip) : Option Bool := if better = some peer then some true else none

theorem betterTipCases (claims : archive.Claims tip) (claimsPeer : archive.Claims peer) (different : tip.tip ≠ peer.tip) :
    archive.betterTip tip.tip peer.tip =
      if tip.blockHeight = 0 ∧ peer.blockHeight = 0 then pure none
      else if tip.blockHeight = 0 then pure (some peer.tip)
      else if peer.blockHeight = 0 then pure (some tip.tip)
      else archive.rankTips tip.tip peer.tip tip.blockHeight peer.blockHeight tip.totalWork peer.totalWork := by
  rw [betterTip,if_neg different,getHeight,okOrOk.mpr claims.height,okBind,getHeight,okOrOk.mpr claimsPeer.height,okBind,
    getTotalWork,okOrOk.mpr claims.work,okBind,getTotalWork,okOrOk.mpr claimsPeer.work,okBind]
  rfl

theorem compareRanks (claimsPeer : archive.Claims peer) (different : tip.tip ≠ peer.tip) {peerStateId : Hash} :
    (archive.comparePeerTip tip peer peerStateId).map (·.answer) =
      (archive.rankTips tip.tip peer.tip tip.blockHeight peer.blockHeight tip.totalWork peer.totalWork).map
        (called peer.tip) := by
  obtain ⟨header,stored⟩ := Option.isSome_iff_exists.mp claimsPeer.stored
  have available {start : Except ArchiveError (List BlockHash)} :
      archive.requestIfMissing start peer peerStateId = pure ⟨some true,none⟩ := by
    rw [requestIfMissing,stored]
    rfl
  have mine : called peer.tip (some tip.tip) = none := if_neg (fun same => different (Option.some.inj same))
  have theirs : called peer.tip (some peer.tip) = some true := if_pos rfl
  have chosen {P : Prop} [Decidable P] : called peer.tip (some (if P then tip.tip else peer.tip)) =
      if P then none else some true := by
    split
    · exact mine
    · exact theirs
  unfold comparePeerTip rankTips
  simp only [available,stored,Option.isNone_some,Bool.false_eq_true,if_false,eq_comm (b := tip.tip.blockHash)]
  split
  · exact congrArg Except.ok theirs.symm
  · exact congrArg Except.ok theirs.symm
  · exact congrArg Except.ok mine.symm
  · exact congrArg Except.ok mine.symm
  · simp only [mapBind,mapPure,chosen]
    congr 1
    funext shared
    cases shared <;> rfl
  · simp only [mapBind,mapPure,chosen]
    congr 1
    funext shared
    cases shared <;> rfl
  · simp only [mapBind,mapPure,chosen]
    congr 1
    funext mainAncestor
    congr 1
    funext before
    split <;> rfl
  · simp only [mapBind,mapPure,chosen]
    congr 1
    funext mainAncestor
    congr 1
    funext before
    split <;> rfl
  · split
    · exact congrArg Except.ok mine.symm
    · simp only [mapBind]
      congr 1
      funext mainAncestor
      congr 1
      funext mainAncestorHeight
      congr 1
      funext before0
      congr 1
      funext before1
      split
      · exact congrArg Except.ok mine.symm
      · exact congrArg Except.ok mine.symm
      · exact congrArg Except.ok mine.symm
      · exact congrArg Except.ok theirs.symm
      · exact congrArg Except.ok theirs.symm

def WorkAt (archive : Archive F) (x : MainHash) (c : BlockHash) (w : Nat) : Prop :=
  ∃ header n info, archive.headers.tryGet c = some header ∧ archive.mainHeaderInfos.tryGet n = some info ∧
    info.prevBlockHash = header.prevMainHash ∧ archive.mainLinks.Descends n x ∧ archive.totalWork.tryGet n = some w

theorem Trees.workAt (trees : Trees lib world archive) {hx h : Nat} {c : BlockHash} {header : Header}
    (heightX : archive.mainLinks.height x = .ok hx) (stored : archive.headers.tryGet c = some header)
    (above : archive.StrictlyAbove header.prevMainHash x) (height : archive.blockHashToHeight.tryGet c = some h) :
    ∃ w, archive.WorkAt x c w ∧ (do
      let height ← archive.getHeight c
      let prevHeight ← archive.getMainHeight header.prevMainHash
      let mainBlock ← archive.getNthMainAncestor x (hx - (prevHeight + 1))
      let work ← archive.getTotalWork mainBlock
      pure (height,work)) = .ok (h,w) := by
  obtain ⟨k,below,known,up⟩ := trees.main.sound.descent above.1 heightX
  have less : k < hx := by
    refine Nat.lt_of_le_of_ne below (fun same => ?_)
    subst same
    rw [Nat.sub_self] at up
    exact above.2 (Option.some.inj up).symm
  obtain ⟨n,isNth,upN,heightN⟩ := trees.main.sound.nth heightX (Nat.sub_le hx (k + 1))
  rw [Nat.sub_sub_self less] at heightN
  obtain ⟨info,isInfo⟩ := trees.main.heights.only (mainHeightOk.mp heightN)
  obtain ⟨w,work,_⟩ := trees.main.works.counted isInfo
  obtain ⟨p,isParent,_⟩ := trees.main.sound.step heightN
  obtain ⟨info',isInfo',named⟩ := mainParentOk.mp isParent
  cases isInfo.symm.trans isInfo'
  have next : info.prevBlockHash = header.prevMainHash := by
    rw [show hx - k = (hx - (k + 1)) + 1 by omega,Links.upAdd,upN,Option.bind_some,Links.up,isParent] at up
    exact named.trans (Option.some.inj up)
  refine ⟨w,⟨header,n,info,stored,isInfo,next,⟨hx,_,heightX,Nat.sub_le hx (k + 1),upN⟩,work⟩,?_⟩
  rw [getHeight,okOrOk.mpr height,okBind,getMainHeight,okOrOk.mpr (mainHeightOk.mp known),okBind,getNthMainAncestor,isNth,
    okBind,getTotalWork,okOrOk.mpr work]
  rfl

theorem MainTree.workAtOnce (tree : MainTree world archive) {c : BlockHash} {w w' : Nat} (known : ∃ header k, archive.headers.tryGet c = some header ∧
      archive.mainLinks.height header.prevMainHash = .ok k)
    (first : archive.WorkAt x c w) (second : archive.WorkAt x c w') : w = w' := by
  obtain ⟨header,k,stored,isKnown⟩ := known
  obtain ⟨header',n,info,stored',isInfo,next,above,work⟩ := first
  obtain ⟨header'',n',info',stored'',isInfo',next',above',work'⟩ := second
  cases stored.symm.trans stored'
  cases stored.symm.trans stored''
  obtain ⟨height,_⟩ := tree.parentAbove isInfo (next ▸ isKnown)
  obtain ⟨height',_⟩ := tree.parentAbove isInfo' (next' ▸ isKnown)
  have one := tree.sound.descentLine above above' height height' (Nat.le_refl _)
  have other := tree.sound.descentLine above' above height' height (Nat.le_refl _)
  cases tree.sound.descentAntisymm one other
  exact Option.some.inj (work.symm.trans work')

theorem FirstBefore.found {b c : BlockHash} (search : FirstBefore archive x b (some c)) :
    ∃ header, archive.headers.tryGet c = some header ∧ archive.StrictlyAbove header.prevMainHash x := by
  generalize isFound : some c = found at search
  induction search with
  | here stored above =>
      cases isFound
      exact ⟨_,stored,above⟩
  | last => cases isFound
  | up _ _ _ _ _ ih => exact ih isFound

theorem FirstBefore.ownGenesis {b c : BlockHash} (search : FirstBefore archive x b (some c))
    (sides : SideTree lib world archive) (height : archive.blockHashToHeight.tryGet b = some 0) : c = b := by
  cases search with
  | here => rfl
  | up stored _ _ isParent =>
      obtain ⟨h,isHeight,count⟩ := sides.heights.counted stored
      cases height.symm.trans isHeight
      rcases sideCounts count with ⟨first,_⟩ | ⟨_,_,_,_,positive⟩
      · cases first.symm.trans isParent
      · cases positive

theorem Trees.heightBeforeSome (trees : Trees lib world archive) {b : BlockHash} {h hx : Nat}
    (heightX : archive.mainLinks.height x = .ok hx) (height : archive.blockHashToHeight.tryGet b = some h) :
    (∃ before, archive.heightBefore x b = .ok before ∧ before ≠ none) ↔ ∃ c, FirstBefore archive x b (some c) := by
  constructor
  · rintro ⟨before,ok,isSome⟩
    obtain ⟨found,search,tells⟩ := (trees.ancestorBeforeOk heightX height).mp ok
    cases found with
    | none => exact absurd tells isSome
    | some c => exact ⟨c,search⟩
  · rintro ⟨c,search⟩
    obtain ⟨header,stored,_⟩ := search.found
    obtain ⟨k,isHeight,_⟩ := trees.sides.heights.counted stored
    refine ⟨some k,(trees.ancestorBeforeOk heightX height).mpr ⟨some c,search,header,k,stored,?_,rfl⟩,by simp⟩
    exact heightOk.mpr isHeight

theorem MainTree.commonHeight (tree : MainTree world archive) {m n : MainHash} {h k : Nat}
    (heightM : archive.mainLinks.height m = .ok h) (heightN : archive.mainLinks.height n = .ok k)
    (common : archive.lastCommonMainAncestor m n = .ok x) : ∃ hx, archive.mainLinks.height x = .ok hx := by
  obtain ⟨x',_,isX,_,above,_⟩ := tree.sound.lastCommon heightM heightN
  cases isX.symm.trans common
  obtain ⟨hx,_,heightX,_⟩ := tree.sound.descent above heightM
  exact ⟨hx,heightX⟩

theorem placeNone {before : Option Nat} : place before < place (some 0) ↔ before = none := by
  cases before <;> simp [place]

section Ranks

variable {m n : MainHash} {k l : Nat} (trees : Trees lib world archive) (different : t ≠ u)
  (heightM : archive.mainLinks.height t.mainBlockHash = .ok k) (heightN : archive.mainLinks.height u.mainBlockHash = .ok l)

include trees different heightM heightN

theorem rankOverOwn (height : archive.blockHashToHeight.tryGet u.blockHash = some h1) (later : h1 ≠ 0) :
    archive.rankTips t u 0 h1 w0 w1 = .ok (some u) ↔ (w1 < w0 →
      ∃ x c, archive.lastCommonMainAncestor t.mainBlockHash u.mainBlockHash = .ok x ∧
        FirstBefore archive x u.blockHash (some c)) := by
  have heights : compare 0 h1 = .lt := Nat.compare_eq_lt.mpr (Nat.pos_of_ne_zero later)
  unfold rankTips
  rw [heights]
  rcases Nat.lt_trichotomy w0 w1 with less | same | more
  · rw [Nat.compare_eq_lt.mpr less]
    exact ⟨fun _ heavier => absurd heavier (Nat.lt_asymm less),fun _ => rfl⟩
  · rw [Nat.compare_eq_eq.mpr same]
    exact ⟨fun _ heavier => absurd same (Nat.ne_of_gt heavier),fun _ => rfl⟩
  · rw [Nat.compare_eq_gt.mpr more]
    simp only [bindOk,pureOk,Option.some.injEq,placeNone]
    constructor
    · rintro ⟨x,common,before,found,chosen⟩ _
      obtain ⟨hx,heightX⟩ := trees.main.commonHeight heightM heightN common
      have isSome : before ≠ none := fun none => different (by rw [if_pos none] at chosen; exact chosen)
      obtain ⟨c,search⟩ := (trees.heightBeforeSome heightX height).mp ⟨before,found,isSome⟩
      exact ⟨x,c,common,search⟩
    · intro built
      obtain ⟨x,c,common,search⟩ := built more
      obtain ⟨hx,heightX⟩ := trees.main.commonHeight heightM heightN common
      obtain ⟨before,found,isSome⟩ := (trees.heightBeforeSome heightX height).mpr ⟨c,search⟩
      exact ⟨x,common,before,found,if_neg isSome⟩

theorem rankOverPeer (height : archive.blockHashToHeight.tryGet t.blockHash = some h0) (later : h0 ≠ 0) :
    archive.rankTips t u h0 0 w0 w1 = .ok (some t) ↔ (w0 < w1 →
      ∃ x c, archive.lastCommonMainAncestor t.mainBlockHash u.mainBlockHash = .ok x ∧
        FirstBefore archive x t.blockHash (some c)) := by
  have heights : compare h0 0 = .gt := Nat.compare_eq_gt.mpr (Nat.pos_of_ne_zero later)
  unfold rankTips
  rw [heights]
  rcases Nat.lt_trichotomy w0 w1 with less | same | more
  · rw [Nat.compare_eq_lt.mpr less]
    simp only [bindOk,pureOk,Option.some.injEq,← Nat.not_lt,placeNone]
    constructor
    · rintro ⟨x,common,before,found,chosen⟩ _
      obtain ⟨hx,heightX⟩ := trees.main.commonHeight heightM heightN common
      have isSome : before ≠ none := fun none => different (by rw [if_neg (not_not.mpr none)] at chosen; exact chosen.symm)
      obtain ⟨c,search⟩ := (trees.heightBeforeSome heightX height).mp ⟨before,found,isSome⟩
      exact ⟨x,c,common,search⟩
    · intro built
      obtain ⟨x,c,common,search⟩ := built less
      obtain ⟨hx,heightX⟩ := trees.main.commonHeight heightM heightN common
      obtain ⟨before,found,isSome⟩ := (trees.heightBeforeSome heightX height).mpr ⟨c,search⟩
      exact ⟨x,common,before,found,if_pos isSome⟩
  · rw [Nat.compare_eq_eq.mpr same]
    exact ⟨fun _ lighter => absurd same (Nat.ne_of_lt lighter),fun _ => rfl⟩
  · rw [Nat.compare_eq_gt.mpr more]
    exact ⟨fun _ lighter => absurd lighter (Nat.lt_asymm more),fun _ => rfl⟩

def NotAhead (archive : Archive F) (x : MainHash) (found found' : Option BlockHash) : Prop :=
  found' = none ∨ ∃ c c' w w', found = some c ∧ found' = some c' ∧ archive.WorkAt x c w ∧ archive.WorkAt x c' w' ∧ w ≤ w'

omit different heightM heightN in
theorem workBefore {b : BlockHash} {hx : Nat} {before : Option (Nat × Nat)}
    (heightX : archive.mainLinks.height x = .ok hx) (height : archive.blockHashToHeight.tryGet b = some 0) :
    archive.heightAndWorkBefore x hx b = .ok before ↔ FirstBefore archive x b none ∧ before = none ∨
      ∃ w, FirstBefore archive x b (some b) ∧ archive.WorkAt x b w ∧ before = some (0,w) := by
  refine (trees.ancestorBeforeOk heightX height).trans ⟨?_,?_⟩
  · rintro ⟨found,search,tells⟩
    cases found with
    | none => exact .inl ⟨search,tells⟩
    | some c =>
        cases search.ownGenesis trees.sides height
        obtain ⟨header,stored,above⟩ := search.found
        obtain ⟨header',value,stored',isValue,rfl⟩ := tells
        cases stored.symm.trans stored'
        obtain ⟨w,work,computed⟩ := trees.workAt heightX stored above height
        cases computed.symm.trans isValue
        exact .inr ⟨w,search,work,rfl⟩
  · rintro (⟨search,rfl⟩ | ⟨w,search,work,rfl⟩)
    · exact ⟨none,search,rfl⟩
    · obtain ⟨header,stored,above⟩ := search.found
      obtain ⟨k,_,known,_⟩ := trees.main.sound.descent above.1 heightX
      obtain ⟨w',work',computed⟩ := trees.workAt heightX stored above height
      cases trees.main.workAtOnce ⟨header,k,stored,known⟩ work work'
      exact ⟨some b,search,header,(0,w),stored,computed,rfl⟩

omit different heightM heightN in
theorem workZero {b : BlockHash} {hx : Nat} {before : Option (Nat × Nat)}
    (heightX : archive.mainLinks.height x = .ok hx) (height : archive.blockHashToHeight.tryGet b = some 0)
    (found : archive.heightAndWorkBefore x hx b = .ok before) : ∀ v, before = some v → v.1 = 0 := by
  rcases (workBefore trees heightX height).mp found with ⟨_,rfl⟩ | ⟨w,_,_,rfl⟩
  · exact nofun
  · rintro v isValue
    cases isValue
    rfl

omit different heightM heightN in
theorem workFound {b : BlockHash} {hx : Nat} {found : Option BlockHash} (heightX : archive.mainLinks.height x = .ok hx)
    (height : archive.blockHashToHeight.tryGet b = some 0) (search : FirstBefore archive x b found) :
    ∃ before, archive.heightAndWorkBefore x hx b = .ok before ∧
      match found with
      | none => before = none
      | some c => ∀ w, archive.WorkAt x c w → before = some (0,w) := by
  cases found with
  | none => exact ⟨none,(workBefore trees heightX height).mpr (.inl ⟨search,rfl⟩),rfl⟩
  | some c =>
      have own : c = b := search.ownGenesis trees.sides height
      subst own
      obtain ⟨header,stored,above⟩ := search.found
      obtain ⟨k,_,known,_⟩ := trees.main.sound.descent above.1 heightX
      obtain ⟨w,work,_⟩ := trees.workAt heightX stored above height
      refine ⟨some (0,w),(workBefore trees heightX height).mpr (.inr ⟨w,search,work,rfl⟩),fun w' work' => ?_⟩
      rw [trees.main.workAtOnce ⟨header,k,stored,known⟩ work work']

omit trees heightM heightN in
theorem genesisChoice {before0 before1 : Option (Nat × Nat)} (zero0 : ∀ v, before0 = some v → v.1 = 0)
    (zero1 : ∀ v, before1 = some v → v.1 = 0) :
    (match compare (place (before0.map (·.2))) (place (before1.map (·.2))),
      compare (place (before0.map (·.1))) (place (before1.map (·.1))) with
    | .lt,.eq | .eq,.eq | _,.gt => (pure (some t) : Except ArchiveError (Option Tip))
    | .gt,.eq | _,.lt => pure (some u)) = .ok (some t) ↔
      before1 = none ∨ ∃ w w', before0 = some (0,w) ∧ before1 = some (0,w') ∧ w ≤ w' := by
  have notOther : ¬ (pure (some u) : Except ArchiveError (Option Tip)) = .ok (some t) :=
    fun same => different (Option.some.inj (pureOk.mp same)).symm
  cases before1 with
  | none =>
      refine ⟨fun _ => .inl rfl,fun _ => ?_⟩
      cases before0 with
      | none => rfl
      | some v => rfl
  | some v' =>
      obtain ⟨h',w'⟩ := v'
      cases zero1 _ rfl
      cases before0 with
      | none =>
          refine ⟨fun chosen => absurd chosen notOther,?_⟩
          rintro (none | ⟨_,_,none,_⟩) <;> cases none
      | some v =>
          obtain ⟨h,w⟩ := v
          cases zero0 _ rfl
          simp only [Option.map_some,place,Nat.compare_eq_eq.mpr rfl]
          constructor
          · intro chosen
            refine .inr ⟨w,w',rfl,rfl,Nat.not_lt.mp (fun more => ?_)⟩
            rw [Nat.compare_eq_gt.mpr (Nat.succ_lt_succ more)] at chosen
            exact notOther chosen
          · rintro (none | ⟨_,_,isFirst,isSecond,le⟩)
            · cases none
            · cases isFirst
              cases isSecond
              rcases Nat.lt_or_eq_of_le le with less | same
              · rw [Nat.compare_eq_lt.mpr (Nat.succ_lt_succ less)]
                rfl
              · rw [Nat.compare_eq_eq.mpr (congrArg Nat.succ same)]
                rfl

structure OwnGenesisStays (archive : Archive F) (t u : Tip) (w0 w1 : Nat) : Prop where
  heavier : w0 < w1 → archive.mainLinks.Descends t.mainBlockHash u.mainBlockHash ∨
    archive.mainLinks.Descends u.mainBlockHash t.mainBlockHash
  lighter : w1 < w0 → ¬ (archive.mainLinks.Descends t.mainBlockHash u.mainBlockHash ∨
    archive.mainLinks.Descends u.mainBlockHash t.mainBlockHash)
  even : w0 = w1 → t.blockHash ≠ u.blockHash → ∃ x found found',
    archive.lastCommonMainAncestor t.mainBlockHash u.mainBlockHash = .ok x ∧ FirstBefore archive x t.blockHash found ∧
    FirstBefore archive x u.blockHash found' ∧ archive.NotAhead x found found'

theorem rankGenesis (height0 : archive.blockHashToHeight.tryGet t.blockHash = some 0)
    (height1 : archive.blockHashToHeight.tryGet u.blockHash = some 0) :
    archive.rankTips t u 0 0 w0 w1 = .ok (some t) ↔ archive.OwnGenesisStays t u w0 w1 := by
  obtain ⟨answer,shared,holds⟩ := trees.main.sharedTotal heightM heightN
  unfold rankTips
  rw [Nat.compare_eq_eq.mpr rfl]
  rcases Nat.lt_trichotomy w0 w1 with less | same | more
  · rw [Nat.compare_eq_lt.mpr less]
    simp only [shared,okBind,pureOk,Option.some.injEq]
    constructor
    · intro chosen
      refine ⟨fun _ => holds.mp ?_,fun lighter => absurd lighter (Nat.lt_asymm less),
        fun even => absurd even (Nat.ne_of_lt less)⟩
      cases answer with
      | true => rfl
      | false => exact absurd chosen.symm different
    · intro stays
      rw [holds.mpr (stays.heavier less)]
      rfl
  · rw [Nat.compare_eq_eq.mpr same]
    have unequal : ¬ w0 < w1 ∧ ¬ w1 < w0 := ⟨Nat.not_lt.mpr (Nat.le_of_eq same.symm),Nat.not_lt.mpr (Nat.le_of_eq same)⟩
    dsimp only
    split
    · next sameBlock =>
        exact ⟨fun _ => ⟨fun less => absurd less unequal.1,fun more => absurd more unequal.2,
          fun _ apart => absurd sameBlock apart⟩,fun _ => rfl⟩
    · next apart =>
        simp only [bindOk]
        constructor
        · rintro ⟨x,common,hx,heightX,before0,found0,before1,found1,chosen⟩
          refine ⟨fun less => absurd less unequal.1,fun more => absurd more unequal.2,fun _ _ => ?_⟩
          have choice := (genesisChoice different (workZero trees heightX height0 found0)
            (workZero trees heightX height1 found1)).mp chosen
          rcases (workBefore trees heightX height1).mp found1 with ⟨search1,rfl⟩ | ⟨w',search1,work1,rfl⟩
          · obtain ⟨found,search0,_⟩ := (trees.ancestorBeforeOk heightX height0).mp found0
            exact ⟨x,found,none,common,search0,search1,.inl rfl⟩
          · rcases choice with none | ⟨w,_,isFirst,isSecond,le⟩
            · cases none
            · cases isSecond
              subst isFirst
              rcases (workBefore trees heightX height0).mp found0 with ⟨_,none⟩ | ⟨_,search0,work0,isWork⟩
              · cases none
              · cases isWork
                exact ⟨x,_,_,common,search0,search1,.inr ⟨_,_,w,w',rfl,rfl,work0,work1,le⟩⟩
        · intro stays
          obtain ⟨x,found,found',common,search0,search1,notAhead⟩ := stays.even same apart
          obtain ⟨hx,heightX⟩ := trees.main.commonHeight heightM heightN common
          obtain ⟨before0,found0,tells0⟩ := workFound trees heightX height0 search0
          obtain ⟨before1,found1,tells1⟩ := workFound trees heightX height1 search1
          refine ⟨x,common,hx,okOrOk.mpr (mainHeightOk.mp heightX),before0,found0,before1,found1,?_⟩
          refine (genesisChoice different (workZero trees heightX height0 found0)
            (workZero trees heightX height1 found1)).mpr ?_
          rcases notAhead with none | ⟨c,c',w,w',rfl,rfl,work,work',le⟩
          · subst none
            exact .inl tells1
          · exact .inr ⟨w,w',tells0 w work,tells1 w' work',le⟩
  · rw [Nat.compare_eq_gt.mpr more]
    simp only [shared,okBind,pureOk,Option.some.injEq]
    constructor
    · intro chosen
      refine ⟨fun heavier => absurd heavier (Nat.lt_asymm more),fun _ line => ?_,
        fun even => absurd even (Nat.ne_of_gt more)⟩
      cases holds.mpr line
      exact different chosen.symm
    · intro stays
      cases answer with
      | true => exact absurd (holds.mp rfl) (stays.lighter more)
      | false => rfl

end Ranks

def PeerTipAgrees (archive : Archive F) (tip peer : TipInfo) (peerStateId : Hash) : Prop :=
  (archive.checkPeerTipAndRequestHeaders (some tip) peer peerStateId).map (·.answer) =
    (archive.betterTip tip.tip peer.tip).map (called peer.tip)

structure GenesisSecond (archive : Archive F) (tip peer : TipInfo) : Prop where
  own : tip.blockHeight = 0 → peer.blockHeight ≠ 0 → peer.totalWork < tip.totalWork →
    ∃ x c, archive.lastCommonMainAncestor tip.tip.mainBlockHash peer.tip.mainBlockHash = .ok x ∧
      FirstBefore archive x peer.tip.blockHash (some c)
  theirs : tip.blockHeight ≠ 0 → peer.blockHeight = 0 → tip.totalWork < peer.totalWork →
    ∃ x c, archive.lastCommonMainAncestor tip.tip.mainBlockHash peer.tip.mainBlockHash = .ok x ∧
      FirstBefore archive x tip.tip.blockHash (some c)
  both : tip.blockHeight = 0 → peer.blockHeight = 0 →
    archive.OwnGenesisStays tip.tip peer.tip tip.totalWork peer.totalWork

theorem calledTheirs {ranked : Except ArchiveError (Option Tip)} :
    ranked.map (called u) = .ok (some true) ↔ ranked = .ok (some u) := by
  cases ranked with
  | error e => simp [Except.map]
  | ok better => simp [Except.map,called]

theorem calledMine {ranked : Except ArchiveError (Option Tip)} (either : ∀ better, ranked = .ok better →
      better = some t ∨ better = some u) (different : t ≠ u) :
    ranked.map (called u) = .ok none ↔ ranked = .ok (some t) := by
  cases ranked with
  | error e => simp [Except.map]
  | ok better =>
      rcases either better rfl with rfl | rfl
      · simp [Except.map,called,different]
      · simp [Except.map,called,different.symm]

theorem ranksEither {better : Option Tip} (ok : archive.rankTips t u h0 h1 w0 w1 = .ok better) :
    better = some t ∨ better = some u := by
  unfold rankTips at ok
  split at ok
  · exact .inr (pureOk.mp ok).symm
  · exact .inr (pureOk.mp ok).symm
  · exact .inl (pureOk.mp ok).symm
  · exact .inl (pureOk.mp ok).symm
  · simp only [bindOk,pureOk] at ok
    obtain ⟨shared,_,rfl⟩ := ok
    cases shared <;> simp
  · simp only [bindOk,pureOk] at ok
    obtain ⟨shared,_,rfl⟩ := ok
    cases shared <;> simp
  · simp only [bindOk,pureOk] at ok
    obtain ⟨_,_,before,_,rfl⟩ := ok
    split <;> simp
  · simp only [bindOk,pureOk] at ok
    obtain ⟨_,_,before,_,rfl⟩ := ok
    split <;> simp
  · split at ok
    · exact .inl (pureOk.mp ok).symm
    · simp only [bindOk] at ok
      obtain ⟨_,_,_,_,_,_,_,_,chosen⟩ := ok
      split at chosen
      · exact .inl (pureOk.mp chosen).symm
      · exact .inl (pureOk.mp chosen).symm
      · exact .inl (pureOk.mp chosen).symm
      · exact .inr (pureOk.mp chosen).symm
      · exact .inr (pureOk.mp chosen).symm

theorem MainTree.checkCompares (tree : MainTree world archive) {peerStateId : Hash} {h : Nat}
    (known : archive.mainLinks.height peer.tip.mainBlockHash = .ok h)
    (onChain : archive.mainLinks.Descends peer.tip.mainBlockHash archive.mainTip) :
    archive.checkPeerTipAndRequestHeaders (some tip) peer peerStateId = archive.comparePeerTip tip peer peerStateId := by
  obtain ⟨mainInfo,isStored⟩ := tree.heights.only (mainHeightOk.mp known)
  have nonZero := tree.belowNonZero onChain
  cases current : archive.sideTips.mainchainTip.tipInfo with
  | none =>
      refine absurd ?_ nonZero
      rw [mainTip,MainchainTip.blockHash,current]
  | some info =>
      have isTip : archive.mainTip = info.blockHash := by rw [mainTip,MainchainTip.blockHash,current]
      rw [isTip] at onChain
      obtain ⟨k,_,tipHeight,_⟩ := onChain
      obtain ⟨answer,isAnswer,holds⟩ := tree.sound.isDescendant known tipHeight
      have found : archive.isMainDescendant peer.tip.mainBlockHash info.blockHash = .ok true := by
        rw [isMainDescendant,isAnswer,holds.mpr ⟨k,_,tipHeight,‹_›⟩]
      rw [checkPeerTipAndRequestHeaders,isStored,current]
      simp only [found,okBind]
      rfl

theorem sameTipAgrees (claims : archive.Claims tip) (claimsPeer : archive.Claims peer) (same : tip.tip = peer.tip)
    {peerStateId : Hash} (compares : archive.checkPeerTipAndRequestHeaders (some tip) peer peerStateId =
      archive.comparePeerTip tip peer peerStateId) :
    archive.PeerTipAgrees tip peer peerStateId ∧ archive.GenesisSecond tip peer := by
  have heights : tip.blockHeight = peer.blockHeight :=
    Option.some.inj ((claims.height.symm.trans (congrArg (fun t => archive.blockHashToHeight.tryGet t.blockHash) same)).trans
      claimsPeer.height)
  have works : tip.totalWork = peer.totalWork :=
    Option.some.inj ((claims.work.symm.trans (congrArg (fun t => archive.totalWork.tryGet t.mainBlockHash) same)).trans
      claimsPeer.work)
  constructor
  · rw [PeerTipAgrees,compares,comparePeerTip,Nat.compare_eq_eq.mpr works,Nat.compare_eq_eq.mpr heights]
    simp only [same,if_true,betterTip]
    rfl
  · refine ⟨fun zero later => absurd (heights ▸ zero) later,fun later zero => absurd (heights.trans zero) later,
      fun _ _ => ⟨fun less => absurd works (Nat.ne_of_lt less),fun more => absurd works (Nat.ne_of_gt more),
        fun _ apart => absurd (congrArg Tip.blockHash same) apart⟩⟩

theorem Trees.rankedAgree (trees : Trees lib world archive) (claims : archive.Claims tip) (claimsPeer : archive.Claims peer)
    (different : tip.tip ≠ peer.tip) :
    (archive.rankTips tip.tip peer.tip tip.blockHeight peer.blockHeight tip.totalWork peer.totalWork).map
      (called peer.tip) = (archive.betterTip tip.tip peer.tip).map (called peer.tip) ↔ archive.GenesisSecond tip peer := by
  obtain ⟨_,_,_,knownTip⟩ := trees.main.workKnown (okOrOk.mpr claims.work)
  obtain ⟨_,_,_,knownPeer⟩ := trees.main.workKnown (okOrOk.mpr claimsPeer.work)
  have heightTip := claims.height
  have heightPeer := claimsPeer.height
  rw [betterTipCases claims claimsPeer different]
  by_cases zero : tip.blockHeight = 0
  · by_cases zeroPeer : peer.blockHeight = 0
    · rw [if_pos ⟨zero,zeroPeer⟩,mapPure]
      rw [zero] at heightTip ⊢
      rw [zeroPeer] at heightPeer ⊢
      refine (calledMine (fun _ => ranksEither) different).trans
        ((rankGenesis trees different knownTip knownPeer heightTip heightPeer).trans ⟨fun stays => ?_,fun second => ?_⟩)
      · exact ⟨fun _ later => absurd zeroPeer later,fun later => absurd zero later,fun _ _ => stays⟩
      · exact second.both zero zeroPeer
    · rw [if_neg (fun both => zeroPeer both.2),if_pos zero,mapPure,called,if_pos rfl]
      rw [zero]
      refine calledTheirs.trans ((rankOverOwn trees different knownTip knownPeer heightPeer zeroPeer).trans
        ⟨fun first => ?_,fun second => ?_⟩)
      · exact ⟨fun _ _ => first,fun later => absurd zero later,fun _ none => absurd none zeroPeer⟩
      · exact second.own zero zeroPeer
  · rw [if_neg (fun both => zero both.1),if_neg zero]
    by_cases zeroPeer : peer.blockHeight = 0
    · rw [if_pos zeroPeer,mapPure,called,if_neg (fun same => different (Option.some.inj same))]
      rw [zeroPeer]
      refine (calledMine (fun _ => ranksEither) different).trans
        ((rankOverPeer trees different knownTip knownPeer heightTip zero).trans ⟨fun first => ?_,fun second => ?_⟩)
      · exact ⟨fun none => absurd none zero,fun _ _ => first,fun none => absurd none zero⟩
      · exact second.theirs zero zeroPeer
    · rw [if_neg zeroPeer]
      exact iff_of_true rfl ⟨fun none => absurd none zero,fun _ none => absurd none zeroPeer,fun none => absurd none zero⟩

theorem peerTipAgreesIff (names : ∀ op ∈ ops, op.Names lib world) (ok : runArchive lib ops = .ok archive)
    (claims : archive.Claims tip) (claimsPeer : archive.Claims peer)
    (onChain : archive.mainLinks.Descends peer.tip.mainBlockHash archive.mainTip) (peerStateId : Hash) :
    archive.PeerTipAgrees tip peer peerStateId ↔ archive.GenesisSecond tip peer := by
  have trees := runTrees names ok
  obtain ⟨_,_,_,known⟩ := trees.main.workKnown (okOrOk.mpr claimsPeer.work)
  have compares : archive.checkPeerTipAndRequestHeaders (some tip) peer peerStateId =
      archive.comparePeerTip tip peer peerStateId := trees.main.checkCompares known onChain
  by_cases same : tip.tip = peer.tip
  · obtain ⟨agrees,second⟩ := sameTipAgrees claims claimsPeer same compares
    exact iff_of_true agrees second
  · rw [PeerTipAgrees,compares,compareRanks claimsPeer same]
    exact trees.rankedAgree claims claimsPeer same

end Agreement

section Announced

open Reference

def announcedCheck (archive : Archive Forest) (info : TipInfo) : Bool :=
  (archive.headers.tryGet info.tip.blockHash).isSome &&
    (archive.blockHashToHeight.tryGet info.tip.blockHash = some info.blockHeight &&
      archive.totalWork.tryGet info.tip.mainBlockHash = some info.totalWork)

theorem announcedCheckSound {archive : Archive Forest} {info : TipInfo} (checked : announcedCheck archive info = true) :
    archive.Claims info := by
  simp only [announcedCheck,Bool.and_eq_true,decide_eq_true_eq] at checked
  exact ⟨checked.1,checked.2.1,checked.2.2⟩

def comparableCheck (archive : Archive Forest) (tip peer : TipInfo) : Bool :=
  announcedCheck archive tip && (announcedCheck archive peer &&
    match archive.isMainDescendant peer.tip.mainBlockHash archive.mainTip with
    | .ok answer => answer
    | .error _ => false)

theorem comparableCheckSound {ops : List ArchiveOp} {archive : Archive Forest}
    (names : ∀ op ∈ ops, op.Names externals world) (ran : runArchive externals ops = .ok archive)
    (checked : comparableCheck archive tip peer = true) :
    archive.Claims tip ∧ archive.Claims peer ∧
      archive.mainLinks.Descends peer.tip.mainBlockHash archive.mainTip := by
  simp only [comparableCheck,Bool.and_eq_true] at checked
  obtain ⟨isTip,isPeer,onChain⟩ := checked
  have claimsPeer := announcedCheckSound isPeer
  have trees := runTrees names ran
  obtain ⟨_,_,_,known⟩ := trees.main.workKnown (okOrOk.mpr claimsPeer.work)
  refine ⟨announcedCheckSound isTip,claimsPeer,?_⟩
  split at onChain
  · next answer isAnswer => exact (trees.main.descendant known isAnswer).mp onChain
  · cases onChain

/- Two genesis blocks, the second committed to by a later main-chain block. -/
def lateGenesis : Header := ⟨9,none,2,[]⟩

def genesisMain : List (BlockHeaderInfo × Option Header) :=
  [(⟨1,0,0,1⟩,none),(⟨2,1,1,1⟩,some forkGenesis),(⟨3,2,2,1⟩,some lateGenesis)]

def genesisOps : List ArchiveOp :=
  genesisMain.map (fun entry => .handleBlockEvent (.connectBlock entry.1 (forkInfo entry.2))) ++
    [.putHeader forkGenesis,.putHeader lateGenesis]

def genesisWorld : World where
  header b := if b = lateGenesis.hash externals then lateGenesis else forkGenesis
  mainHeader m := ((genesisMain.find? (fun entry => entry.1.blockHash = m)).map (·.1)).getD ⟨0,0,0,0⟩
  mainInfo m := forkInfo ((genesisMain.find? (fun entry => entry.1.blockHash = m)).bind (·.2))

def earlierAnnounced (archive : Archive Forest) : Bool :=
  match archive.checkPeerTipAndRequestHeaders (some ⟨0,⟨lateGenesis.hash externals,3⟩,3⟩)
      ⟨0,⟨forkGenesis.hash externals,2⟩,2⟩ 0,
    archive.betterTip ⟨lateGenesis.hash externals,3⟩ ⟨forkGenesis.hash externals,2⟩ with
  | .ok answer,.ok better => answer.answer = some true && better = none
  | _,_ => false

theorem earlierGenesisAnnounced : ∃ (world : World) (archive : Archive Forest) (tip peer : TipInfo),
    (∀ op ∈ genesisOps, op.Names externals world) ∧ runArchive externals genesisOps = .ok archive ∧
    archive.Claims tip ∧ archive.Claims peer ∧
    archive.mainLinks.Descends peer.tip.mainBlockHash archive.mainTip ∧
    ¬ archive.PeerTipAgrees tip peer 0 := by
  have names : ∀ op ∈ genesisOps, op.Names externals genesisWorld := by decide +kernel
  have checked : runsTo externals genesisOps (fun archive =>
      comparableCheck archive ⟨0,⟨lateGenesis.hash externals,3⟩,3⟩ ⟨0,⟨forkGenesis.hash externals,2⟩,2⟩ &&
      earlierAnnounced archive) = true := by decide +kernel
  obtain ⟨archive,ran,holds⟩ := runsToRun checked
  rw [Bool.and_eq_true] at holds
  obtain ⟨claims,claimsPeer,onChain⟩ := comparableCheckSound names ran holds.1
  refine ⟨genesisWorld,archive,_,_,names,ran,claims,claimsPeer,onChain,fun agrees => ?_⟩
  obtain ⟨_,differ⟩ := holds
  unfold earlierAnnounced at differ
  split at differ
  · next answer better isAnswer isBetter =>
      rw [PeerTipAgrees,isAnswer,isBetter] at agrees
      simp only [Bool.and_eq_true,decide_eq_true_eq] at differ
      simp [Except.map,differ,called] at agrees
  · cases differ

def announcedOps : List ArchiveOp :=
  (forkMain.take 4).map (fun entry => .handleBlockEvent (.connectBlock entry.1 (forkInfo entry.2))) ++
    (forkHeaders.take 3).map .putHeader

theorem childrenAgree : ∃ archive, runArchive externals announcedOps = .ok archive ∧
    archive.PeerTipAgrees ⟨1,forkTip 1 2 3,3⟩ ⟨1,forkTip 2 3 4,5⟩ 0 := by
  have names : ∀ op ∈ announcedOps, op.Names externals forkWorld := by decide +kernel
  have checked : runsTo externals announcedOps (fun archive =>
      comparableCheck archive ⟨1,forkTip 1 2 3,3⟩ ⟨1,forkTip 2 3 4,5⟩) = true := by decide +kernel
  obtain ⟨archive,ran,holds⟩ := runsToRun checked
  obtain ⟨claims,claimsPeer,onChain⟩ := comparableCheckSound names ran holds
  refine ⟨archive,ran,(peerTipAgreesIff names ran claims claimsPeer onChain 0).mpr ⟨?_,?_,?_⟩⟩
  · exact fun none => absurd none (by decide)
  · exact fun _ none => absurd none (by decide)
  · exact fun none => absurd none (by decide)

end Announced

end Archive

end Coinshift
