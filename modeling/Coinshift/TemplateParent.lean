import Coinshift.BlockTemplate
import Coinshift.PeerTips

/-! The parent of a block to mine.
It is chosen by the main-chain blocks that the headers name; what counts is where the commitments are, one block
later. The two differ for the blocks that name the main-chain block at a fork. -/
namespace Coinshift
open Checked Lineage

variable {F : Type} {lib : Externals F} {world : World} {ops : List ArchiveOp}

namespace Archive

variable {archive archive' : Archive F} {b c tip : BlockHash} {m n v x : MainHash} {header header' : Header}

def VerifiedOn (archive : Archive F) (m : MainHash) (b : BlockHash) : Prop :=
  ∃ n, archive.verifiedAt b n ∧ archive.mainLinks.Descends n m

def HighestOn (archive : Archive F) (m : MainHash) (tip : BlockHash) : Option BlockHash → Prop
  | none => ∀ c, archive.links.Descends c tip → ¬ archive.VerifiedOn m c
  | some b => archive.links.Descends b tip ∧ archive.VerifiedOn m b ∧
      ∀ c, archive.links.Descends c tip → archive.VerifiedOn m c → archive.links.Descends c b

section Chain

theorem SideTree.onChain (sides : SideTree lib world archive) (stored : archive.headers.tryGet b = some header)
    (above : archive.links.Descends c b) :
    c = b ∨ ∃ p, header.prevSideHash = some p ∧ archive.links.Descends c p := by
  rcases sides.sound.descendsParent above with same | ⟨p,isParent,above⟩
  · exact .inl same
  · obtain ⟨header',stored',isParent⟩ := parentOk.mp isParent
    cases stored.symm.trans stored'
    exact .inr ⟨p,isParent,above⟩

theorem SideTree.own (sides : SideTree lib world archive) (stored : archive.headers.tryGet b = some header) :
    archive.links.Descends b b := by
  obtain ⟨h,height,_⟩ := sides.heights.counted stored
  exact .refl (heightOk.mpr height)

theorem SideTree.parentOn (sides : SideTree lib world archive) {p : BlockHash}
    (stored : archive.headers.tryGet b = some header) (isParent : header.prevSideHash = some p) :
    archive.links.Descends p b := by
  obtain ⟨h,height,count⟩ := sides.heights.counted stored
  rcases sideCounts count with ⟨first,_⟩ | ⟨q,j,isChild,parentHeight,rfl⟩
  · cases first.symm.trans isParent
  · have above : archive.links.up 1 b = some p := by
      rw [Links.up,parentOk.mpr ⟨header,stored,isParent⟩]
      rfl
    exact ⟨j + 1,1,heightOk.mpr height,Nat.le_add_left 1 j,above⟩

theorem MainTree.belowNamed (tree : MainTree world archive) {k : Nat} (commits : CommitsTo archive n b header)
    (known : archive.mainLinks.height header.prevMainHash = .ok k) :
    archive.mainLinks.height n = .ok (k + 1) ∧ archive.mainLinks.Descends header.prevMainHash n ∧
      header.prevMainHash ≠ n := by
  obtain ⟨info,stored,next⟩ := commits.next
  rw [← next] at known ⊢
  obtain ⟨height,_,above,apart⟩ := tree.parentAbove stored known
  exact ⟨height,above,apart⟩

theorem MainTree.namedKnown (tree : MainTree world archive) (commits : CommitsTo archive n b header)
    (nonZero : header.prevMainHash ≠ MainHash.allZeros) : ∃ k, archive.mainLinks.height header.prevMainHash = .ok k := by
  obtain ⟨info,stored,next⟩ := commits.next
  obtain ⟨h,_,count⟩ := tree.heights.counted stored
  rw [← next] at nonZero ⊢
  cases count with
  | root zero => exact absurd (mainBlockNone.mp zero) nonZero
  | child isParent known =>
      obtain ⟨_,rfl⟩ := mainBlockSome.mp isParent
      exact ⟨_,mainHeightOk.mpr known⟩

theorem MainTree.aboveNamed (tree : MainTree world archive) (commits : CommitsTo archive v b header)
    (above : archive.mainLinks.Descends n v) (apart : n ≠ v) : archive.mainLinks.Descends n header.prevMainHash := by
  obtain ⟨info,stored,next⟩ := commits.next
  rcases tree.sound.descendsParent above with same | ⟨p,isParent,above⟩
  · exact absurd same apart
  · obtain ⟨info',stored',rfl⟩ := mainParentOk.mp isParent
    cases stored.symm.trans stored'
    rwa [← next]

/- By induction on the commitments: the blocks before `b` were committed to before the main-chain block it names. -/
theorem Trees.above (trees : Trees lib world archive) (committed : archive.Committed b v)
    (stored : archive.headers.tryGet b = some header) (onChain : archive.links.Descends c b) :
    c = b ∨ ∃ n, archive.Committed c n ∧ archive.mainLinks.Descends n header.prevMainHash := by
  induction committed generalizing header with
  | @genesis b v own commits first =>
      rcases trees.sides.onChain commits.stored onChain with same | ⟨p,isParent,_⟩
      · exact .inl same
      · cases first.symm.trans isParent
  | @child b v own p n commits isParent parent above ih =>
      cases commits.stored.symm.trans stored
      have apart : n ≠ v := by
        rintro rfl
        have same := trees.sameCommitment ((trees.results _ _).mpr parent)
          ((trees.results _ _).mpr (.child commits isParent parent above))
        exact trees.sides.parentOther stored (same ▸ isParent)
      have parentAbove := trees.main.aboveNamed commits above apart
      rcases trees.sides.onChain stored onChain with same | ⟨q,isParent',onChain⟩
      · exact .inl same
      · cases isParent.symm.trans isParent'
        obtain ⟨parentHeader,parentCommits,_⟩ := parent.commits
        rcases ih parentCommits.stored onChain with rfl | ⟨k,earlier,isOver⟩
        · exact .inr ⟨n,parent,parentAbove⟩
        · obtain ⟨h,_,known,_⟩ := id isOver
          have overParent := (trees.main.belowNamed parentCommits known).2.1
          exact .inr ⟨k,earlier,trees.main.sound.descentTrans isOver (trees.main.sound.descentTrans overParent parentAbove)⟩

theorem Trees.committedOn (trees : Trees lib world archive) (committed : archive.Committed b v)
    (onChain : archive.links.Descends c b) : ∃ n, archive.Committed c n := by
  obtain ⟨header,commits,_⟩ := committed.commits
  rcases trees.above committed commits.stored onChain with rfl | ⟨n,earlier,_⟩
  · exact ⟨v,committed⟩
  · exact ⟨n,earlier⟩

theorem Trees.namedAbove (trees : Trees lib world archive) (committed : archive.Committed tip v)
    (stored : archive.headers.tryGet tip = some header) (onChain : archive.links.Descends c tip)
    (storedC : archive.headers.tryGet c = some header') {k : Nat}
    (known : archive.mainLinks.height header'.prevMainHash = .ok k) :
    archive.mainLinks.Descends header'.prevMainHash header.prevMainHash := by
  rcases trees.above committed stored onChain with rfl | ⟨n,earlier,isOver⟩
  · cases stored.symm.trans storedC
    exact .refl known
  · obtain ⟨own,commits,_⟩ := earlier.commits
    cases storedC.symm.trans commits.stored
    exact trees.main.sound.descentTrans (trees.main.belowNamed commits known).2.1 isOver

end Chain

section Boundary

/- Away from the last common ancestor `x` the choice is right: a block of the chain that names another main-chain
block is verified on the chain of `m` just when that block is strictly above `x`. -/
theorem Trees.verifiedStrictly (trees : Trees lib world archive) (committed : archive.Committed tip v)
    (stored : archive.headers.tryGet tip = some header)
    (common : archive.lastCommonMainAncestor m header.prevMainHash = .ok x) (onChain : archive.links.Descends c tip)
    (storedC : archive.headers.tryGet c = some header') {k : Nat}
    (known : archive.mainLinks.height header'.prevMainHash = .ok k) (other : header'.prevMainHash ≠ x) :
    archive.VerifiedOn m c ↔ archive.StrictlyAbove header'.prevMainHash x := by
  have sound := trees.main.sound
  have aboveTip := trees.namedAbove committed stored onChain storedC known
  constructor
  · rintro ⟨n,verified,below⟩
    obtain ⟨own,commits⟩ := trees.commits verified
    cases storedC.symm.trans commits.stored
    have aboveM := sound.descentTrans (trees.main.belowNamed commits known).2.1 below
    exact ⟨sound.lastCommonGreatest aboveM aboveTip common,other⟩
  · rintro ⟨above,_⟩
    obtain ⟨hx,_,heightX,_⟩ := id above
    obtain ⟨k',below,known',_⟩ := sound.descent above heightX
    cases known.symm.trans known'
    have strictly : k < hx := by
      refine Nat.lt_of_le_of_ne below (fun same => other ?_)
      subst same
      obtain ⟨j,_,isJ,up⟩ := sound.descent above heightX
      cases known.symm.trans isJ
      rw [Nat.sub_self] at up
      exact (Option.some.inj up).symm
    have overM : archive.mainLinks.Descends x m := sound.lastCommonAbove common
    have overTip : archive.mainLinks.Descends x header.prevMainHash :=
      (sound.lastCommonBoth (sound.descentTrans above overM) aboveTip common).2
    rcases trees.above committed stored onChain with rfl | ⟨n,earlier,isOver⟩
    · cases stored.symm.trans storedC
      exact absurd (sound.descentAntisymm above overTip) other
    · obtain ⟨own,commits,_⟩ := earlier.commits
      cases storedC.symm.trans commits.stored
      have heightN := (trees.main.belowNamed commits known).1
      have overX := sound.descentLine isOver overTip heightN heightX strictly
      exact ⟨n,(trees.results c n).mpr earlier,sound.descentTrans overX overM⟩

structure Passed (archive : Archive F) (x : MainHash) (d : BlockHash) : Prop where
  apart : ∃ header k, archive.headers.tryGet d = some header ∧ archive.mainLinks.height header.prevMainHash = .ok k ∧
    ¬ archive.StrictlyAbove header.prevMainHash x

theorem FirstBefore.passes {found : Option BlockHash} (search : FirstBefore archive x b found)
    (sides : SideTree lib world archive) {d : BlockHash} (onChain : archive.links.Descends d b) :
    Passed archive x d ∨ ∃ c, found = some c ∧ archive.links.Descends d c := by
  induction search with
  | @here b header stored above => exact .inr ⟨b,rfl,onChain⟩
  | @last b header k stored known apart first =>
      rcases sides.onChain stored onChain with rfl | ⟨p,isParent,_⟩
      · exact .inl ⟨header,k,stored,known,apart⟩
      · cases first.symm.trans isParent
  | @up b p header k found stored known apart isParent rest ih =>
      rcases sides.onChain stored onChain with rfl | ⟨q,isParent',onChain⟩
      · exact .inl ⟨header,k,stored,known,apart⟩
      · cases isParent.symm.trans isParent'
        exact ih onChain

theorem FirstBefore.foundOn (search : FirstBefore archive x b (some c)) (sides : SideTree lib world archive) :
    archive.links.Descends c b := by
  generalize isFound : some c = found at search
  induction search with
  | here stored above =>
      cases isFound
      exact sides.own stored
  | last => cases isFound
  | up stored _ _ isParent _ ih => exact sides.sound.descentTrans (ih isFound) (sides.parentOn stored isParent)

/- The search returns unless it comes to a first block that names no main-chain block. -/
def SearchEnds (archive : Archive F) (x : MainHash) (b : BlockHash) : Prop :=
  (∀ c header, archive.links.Descends c b → archive.headers.tryGet c = some header →
      header.prevMainHash ≠ MainHash.allZeros) ∨
    ∃ c header, archive.links.Descends c b ∧ archive.headers.tryGet c = some header ∧
      archive.StrictlyAbove header.prevMainHash x

theorem SearchEnds.up {p : BlockHash} (ends : SearchEnds archive x b) (sides : SideTree lib world archive)
    (stored : archive.headers.tryGet b = some header) (isParent : header.prevSideHash = some p)
    (apart : ¬ archive.StrictlyAbove header.prevMainHash x) : SearchEnds archive x p := by
  rcases ends with named | ⟨c,header',above,storedC,strictly⟩
  · exact .inl (fun c header' above => named c header' (sides.sound.descentTrans above (sides.parentOn stored isParent)))
  · rcases sides.onChain stored above with rfl | ⟨q,isParent',above⟩
    · cases stored.symm.trans storedC
      exact absurd strictly apart
    · cases isParent.symm.trans isParent'
      exact .inr ⟨c,header',above,storedC,strictly⟩

theorem Trees.searches (trees : Trees lib world archive) (committed : archive.Committed b v)
    (ends : SearchEnds archive x b) : ∃ found, FirstBefore archive x b found := by
  induction committed with
  | @genesis b v header commits first =>
      by_cases strictly : archive.StrictlyAbove header.prevMainHash x
      · exact ⟨some b,.here commits.stored strictly⟩
      · have nonZero : header.prevMainHash ≠ MainHash.allZeros := by
          rcases ends with named | ⟨c,header',above,storedC,strictlyC⟩
          · exact named b header (trees.sides.own commits.stored) commits.stored
          · rcases trees.sides.onChain commits.stored above with rfl | ⟨p,isParent,_⟩
            · cases commits.stored.symm.trans storedC
              exact absurd strictlyC strictly
            · cases first.symm.trans isParent
        obtain ⟨k,known⟩ := trees.main.namedKnown commits nonZero
        exact ⟨none,.last commits.stored known strictly first⟩
  | @child b v header p n commits isParent parent above ih =>
      by_cases strictly : archive.StrictlyAbove header.prevMainHash x
      · exact ⟨some b,.here commits.stored strictly⟩
      · obtain ⟨found,search⟩ := ih (ends.up trees.sides commits.stored isParent strictly)
        have onChain := trees.sides.parentOn commits.stored isParent
        rcases trees.above (.child commits isParent parent above) commits.stored onChain with same | ⟨_,_,k,_,known,_⟩
        · exact absurd (same ▸ isParent) (trees.sides.parentOther commits.stored)
        · exact ⟨found,.up commits.stored known strictly isParent search⟩

theorem FirstBefore.ends {found : Option BlockHash} (search : FirstBefore archive x b found)
    (trees : Trees lib world archive) : SearchEnds archive x b := by
  cases found with
  | some c =>
      obtain ⟨header,stored,strictly⟩ := search.found
      exact .inr ⟨c,header,search.foundOn trees.sides,stored,strictly⟩
  | none =>
      refine .inl (fun c header onChain stored zero => ?_)
      rcases search.passes trees.sides onChain with ⟨header',k,stored',known,_⟩ | ⟨_,isSome,_⟩
      · cases stored.symm.trans stored'
        exact trees.main.belowNonZero (.refl known) zero
      · cases isSome

/- What the search finds is the highest block unless it went past one that names `x` itself. -/
theorem Trees.highestFound (trees : Trees lib world archive) (committed : archive.Committed tip v)
    (stored : archive.headers.tryGet tip = some header)
    (common : archive.lastCommonMainAncestor m header.prevMainHash = .ok x) {found : Option BlockHash}
    (search : FirstBefore archive x tip found) : archive.HighestOn m tip found ↔
      ∀ c header', archive.links.Descends c tip → archive.headers.tryGet c = some header' →
        header'.prevMainHash = x → ¬ archive.VerifiedOn m c := by
  have sound := trees.main.sound
  have verifiedFound {c : BlockHash} (clear : ∀ c header', archive.links.Descends c tip →
      archive.headers.tryGet c = some header' → header'.prevMainHash = x → ¬ archive.VerifiedOn m c)
      (onChain : archive.links.Descends c tip) (verified : archive.VerifiedOn m c) : ¬ Passed archive x c := by
    rintro ⟨header',k,storedC,known,apart⟩
    by_cases same : header'.prevMainHash = x
    · exact clear c header' onChain storedC same verified
    · exact apart ((trees.verifiedStrictly committed stored common onChain storedC known same).mp verified)
  cases found with
  | none =>
      refine ⟨fun highest c _ onChain _ _ => highest c onChain,fun clear c onChain verified => ?_⟩
      rcases search.passes trees.sides onChain with passed | ⟨_,isSome,_⟩
      · exact verifiedFound clear onChain verified passed
      · cases isSome
  | some b =>
      obtain ⟨own,storedB,strictly⟩ := search.found
      have onChainB := search.foundOn trees.sides
      obtain ⟨k,_,heightX,_⟩ := id strictly.1
      obtain ⟨k',_,known,_⟩ := sound.descent strictly.1 heightX
      constructor
      · intro highest c header' onChain storedC same verified
        -- above the block found, headers name blocks further up
        obtain ⟨n,committedB⟩ := trees.committedOn committed onChainB
        have above := trees.namedAbove committedB storedB (highest.2.2 c onChain verified) storedC (same ▸ heightX)
        rw [same] at above
        exact strictly.2 (sound.descentAntisymm strictly.1 above)
      · intro clear
        refine ⟨onChainB,?_,fun c onChain verified => ?_⟩
        · exact (trees.verifiedStrictly committed stored common onChainB storedB known strictly.2).mpr strictly
        · rcases search.passes trees.sides onChain with passed | ⟨c',isFound,above⟩
          · exact absurd passed (verifiedFound clear onChain verified)
          · cases isFound
            exact above

end Boundary

section Growth

theorem Grown.bodies {bodies : Table BlockHash Body} {sideTips : SideTips} {accumulators : Table BlockHash F} :
    Grown archive { archive with bodies,sideTips,accumulators } :=
  ⟨fun _ _ found => found,fun _ _ found => found,fun _ _ found => found,fun _ _ found => found⟩

theorem Grown.trans {archive'' : Archive F} (first : Grown archive archive') (second : Grown archive' archive'') :
    Grown archive archive'' :=
  ⟨fun _ _ found => second.headers _ _ (first.headers _ _ found),
    fun _ _ found => second.mainHeaders _ _ (first.mainHeaders _ _ found),
    fun _ _ found => second.mainHeights _ _ (first.mainHeights _ _ found),
    fun _ _ found => second.mainInfos _ _ (first.mainInfos _ _ found)⟩

theorem Trees.stepGrown (trees : Trees lib world archive) {op : ArchiveOp} (names : op.Names lib world)
    (ok : op.apply lib archive = .ok archive') : Grown archive archive' := by
  cases op with
  | handleBlockEvent event =>
      cases event with
      | connectBlock info blockInfo =>
          obtain ⟨first,second,_,_,isFirst,isSecond,_,_,rfl⟩ := connectEventSource ok
          have contents := (trees.putMainHeader names.1 isFirst).addsMainInfo names.2 isSecond
          exact ((trees.addsMainHeader names.1 isFirst).grown.trans contents.grown).trans .bodies
      | disconnectBlock m =>
          obtain ⟨_,_,_,_,_,_,_,_,rfl⟩ := disconnectEventSource ok
          exact .bodies
  | putMainHeaderInfo info => exact (trees.addsMainHeader names ok).grown
  | putMainBlockInfo m blockInfo => exact (trees.addsMainInfo names ok).grown
  | putHeader header => exact (trees.addsHeader names ok).grown
  | putBody b body =>
      obtain ⟨_,tips,rfl⟩ := putBodyFrame ok
      exact .bodies
  | deleteBody b =>
      obtain ⟨tips,rfl⟩ := disconnectQueueFrame ok
      exact .bodies

theorem runGrown {more : List ArchiveOp} (trees : Trees lib world archive) (names : ∀ op ∈ more, op.Names lib world)
    (ok : more.foldlM (ArchiveOp.apply lib) archive = .ok archive') :
    Trees lib world archive' ∧ Grown archive archive' :=
  foldInvariant (P := fun now => Trees lib world now ∧ Grown archive now)
    (fun _ op _ mem kept applied =>
      ⟨kept.1.step (names op mem) applied,kept.2.trans (kept.1.stepGrown (names op mem) applied)⟩) ⟨trees,.bodies⟩ ok

end Growth

/- A block on this parent, mined at a child of `m`, is recorded as verified, whatever the archive does until then. -/
def MinedOn (lib : Externals F) (world : World) (ops : List ArchiveOp) (m : MainHash) (parent : Option BlockHash) : Prop :=
  ∀ more archive' header m' info blockInfo, (∀ op ∈ more, op.Names lib world) →
    runArchive lib (ops ++ more) = .ok archive' → archive'.headers.tryGet (header.hash lib) = some header →
    header.prevSideHash = parent → header.prevMainHash = m → archive'.mainHeaderInfos.tryGet m' = some info →
    info.prevBlockHash = m → archive'.mainBlockInfos.tryGet m' = some blockInfo →
    blockInfo.bmmCommitment = some (header.hash lib) → archive'.verifiedAt (header.hash lib) m'

theorem HighestOn.minedOn (names : ∀ op ∈ ops, op.Names lib world) (ran : runArchive lib ops = .ok archive)
    {known : BlockHeaderInfo} (isKnown : archive.mainHeaderInfos.tryGet m = some known) {parent : Option BlockHash}
    (highest : archive.HighestOn m tip parent) : MinedOn lib world ops m parent := by
  have trees := runTrees names ran
  intro more archive' header m' info blockInfo namesMore ranMore stored isParent isMain storedMain isNext contents commitment
  obtain ⟨middle,ran',later⟩ := foldAppendOk.mp ranMore
  cases ran.symm.trans ran'
  obtain ⟨trees',grown⟩ := runGrown trees namesMore later
  have commits : CommitsTo archive' m' (header.hash lib) header :=
    ⟨stored,⟨blockInfo,contents,commitment⟩,⟨info,storedMain,isNext.trans isMain.symm⟩⟩
  refine (trees'.results _ _).mpr (commits.committed (fun p isParent' => ?_))
  cases isParent.symm.trans isParent'
  obtain ⟨n,verified,below⟩ := highest.2.1
  obtain ⟨h,height,_⟩ := trees'.main.heights.counted (grown.mainHeaders _ _ isKnown)
  obtain ⟨_,follows,_⟩ := trees'.main.belowNamed commits (k := h) (by rw [isMain]; exact mainHeightOk.mpr height)
  rw [isMain] at follows
  refine ⟨n,((trees.results p n).mp verified).grow grown trees.main,?_⟩
  exact trees'.main.sound.descentTrans ((grown.descends trees.main isKnown).mpr below) follows

/- The state of the archive in which the choice is right. `x` is the last main-chain block that the chain of `m` has in
common with that of the block the tip names. -/
structure ForkClear (archive : Archive F) (m : MainHash) (tip : BlockHash) (header : Header) (x : MainHash) : Prop where
  stored : archive.headers.tryGet tip = some header
  common : archive.lastCommonMainAncestor m header.prevMainHash = .ok x
  boundary : ∀ c header', archive.links.Descends c tip → archive.headers.tryGet c = some header' →
    header'.prevMainHash = x → (archive.VerifiedOn m c ↔ c = tip)
  ends : header.prevMainHash = x ∨ SearchEnds archive x tip

end Archive

namespace NetTask
open Archive

variable {archive : Archive F} {tip : BlockHash} {m v x : MainHash} {header : Header} {parent : Option BlockHash}

theorem searchBefore (b : BlockHash) : (do
      let header ← archive.getHeader b
      if header.prevMainHash = x then pure none
      else do
        let isBefore ← archive.isMainDescendant header.prevMainHash x
        pure (if isBefore then some b else none)) = archive.ifBefore x (fun b _ => pure b) b := by
  unfold Archive.ifBefore
  congr 1
  funext header
  by_cases same : header.prevMainHash = x
  · have own : archive.isMainDescendant header.prevMainHash x = .ok true := by
      rw [same,isMainDescendant,Links.isDescendant,if_pos rfl]
    rw [if_pos same,own,okBind,if_neg (by decide),if_pos same]
  · simp only [if_neg same]
    congr 1
    funext isBefore
    cases isBefore <;> rfl

structure TemplateParentSource (archive : Archive F) (m : MainHash) (tip : BlockHash) (header : Header) (x : MainHash)
    (parent : Option BlockHash) : Prop where
  stored : archive.headers.tryGet tip = some header
  common : archive.lastCommonMainAncestor m header.prevMainHash = .ok x
  chosen : x = header.prevMainHash ∧ parent = some tip ∨ x ≠ header.prevMainHash ∧ FirstBefore archive x tip parent

theorem saysFound {b : BlockHash} {found : Option BlockHash} (search : FirstBefore archive x b found) :
    Says archive (fun b _ => pure b) found parent ↔ parent = found := by
  cases found with
  | none => exact Iff.rfl
  | some c =>
      obtain ⟨header,stored,_⟩ := search.found
      constructor
      · rintro ⟨_,value,_,isValue,rfl⟩
        rw [pureOk.mp isValue]
      · rintro rfl
        exact ⟨header,c,stored,rfl,rfl⟩

theorem templateParentOk (trees : Trees lib world archive) : templateParent archive (some tip) m = .ok parent ↔
    ∃ header x, TemplateParentSource archive m tip header x parent := by
  have search {x : MainHash} {h : Nat} (common : ∃ q, archive.lastCommonMainAncestor m q = .ok x)
      (height : archive.blockHashToHeight.tryGet tip = some h) :
      archive.ancestorBefore x (fun b _ => pure b) tip = .ok parent ↔ FirstBefore archive x tip parent := by
    obtain ⟨q,isCommon⟩ := common
    obtain ⟨hm,_,heightM,_⟩ := Links.lastCommonKnown isCommon
    obtain ⟨hx,_,heightX,_⟩ := trees.main.sound.descent (trees.main.sound.lastCommonAbove isCommon) heightM
    rw [trees.ancestorBeforeOk heightX height]
    constructor
    · rintro ⟨found,search,tells⟩
      cases (saysFound search).mp tells
      exact search
    · intro search
      exact ⟨parent,search,(saysFound search).mpr rfl⟩
  simp only [templateParent,searchBefore]
  simp only [getHeader,bindOk,okOrOk]
  refine exists_congr (fun header => ?_)
  constructor
  · rintro ⟨stored,x,common,chosen⟩
    obtain ⟨h,height,_⟩ := trees.sides.heights.counted stored
    refine ⟨x,stored,common,?_⟩
    split at chosen
    · next same => exact .inl ⟨same,(pureOk.mp chosen).symm⟩
    · next other => exact .inr ⟨other,(search ⟨_,common⟩ height).mp chosen⟩
  · rintro ⟨x,stored,common,chosen⟩
    obtain ⟨h,height,_⟩ := trees.sides.heights.counted stored
    refine ⟨stored,x,common,?_⟩
    rcases chosen with ⟨same,rfl⟩ | ⟨other,found⟩
    · rw [if_pos same]
      rfl
    · rw [if_neg other]
      exact (search ⟨_,common⟩ height).mpr found

theorem namesOnce (trees : Trees lib world archive) (committed : archive.Committed tip v)
    (stored : archive.headers.tryGet tip = some header) {c : BlockHash} {header' : Header}
    (onChain : archive.links.Descends c tip) (storedC : archive.headers.tryGet c = some header')
    (same : header'.prevMainHash = header.prevMainHash) : c = tip := by
  rcases trees.above committed stored onChain with isTip | ⟨n,earlier,isOver⟩
  · exact isTip
  · obtain ⟨own,commits,_⟩ := earlier.commits
    cases storedC.symm.trans commits.stored
    obtain ⟨k,_,known,_⟩ := id isOver
    rw [← same] at isOver known
    obtain ⟨_,above,apart⟩ := trees.main.belowNamed commits known
    exact absurd (trees.main.sound.descentAntisymm above isOver) apart

theorem TemplateParentSource.highest (source : TemplateParentSource archive m tip header x parent)
    (trees : Trees lib world archive) (committed : archive.Committed tip v) :
    archive.HighestOn m tip parent ↔ archive.ForkClear m tip header x := by
  obtain ⟨stored,common,⟨rfl,rfl⟩ | ⟨other,search⟩⟩ := source
  · constructor
    · intro highest
      refine ⟨stored,common,fun c header' onChain storedC same => ?_,.inl rfl⟩
      obtain rfl := namesOnce trees committed stored onChain storedC same
      exact iff_of_true highest.2.1 rfl
    · intro clear
      have own := trees.sides.own stored
      exact ⟨own,(clear.boundary tip header own stored rfl).mpr rfl,fun c onChain _ => onChain⟩
  · rw [trees.highestFound committed stored common search]
    have notTip {c : BlockHash} {header' : Header} (storedC : archive.headers.tryGet c = some header')
        (same : header'.prevMainHash = x) : c ≠ tip := by
      rintro rfl
      cases stored.symm.trans storedC
      exact other same.symm
    constructor
    · intro clear
      refine ⟨stored,common,fun c header' onChain storedC same => ?_,.inr (search.ends trees)⟩
      exact iff_of_false (clear c header' onChain storedC same) (notTip storedC same)
    · intro clear c header' onChain storedC same verified
      exact notTip storedC same ((clear.boundary c header' onChain storedC same).mp verified)

/- The choice is the highest block that can be mined on just when the blocks at the fork allow it. -/
theorem templateParentHighestIff (names : ∀ op ∈ ops, op.Names lib world) (ran : runArchive lib ops = .ok archive)
    (verified : archive.verifiedAt tip v) {info : BlockHeaderInfo}
    (known : archive.mainHeaderInfos.tryGet m = some info) :
    (∃ parent, templateParent archive (some tip) m = .ok parent ∧ archive.HighestOn m tip parent ∧
      MinedOn lib world ops m parent) ↔ ∃ header x, archive.ForkClear m tip header x := by
  have trees := runTrees names ran
  have committed := (trees.results tip v).mp verified
  constructor
  · rintro ⟨parent,chosen,highest,_⟩
    obtain ⟨header,x,source⟩ := (templateParentOk trees).mp chosen
    exact ⟨header,x,(source.highest trees committed).mp highest⟩
  · rintro ⟨header,x,clear⟩
    have total : ∃ parent, TemplateParentSource archive m tip header x parent := by
      by_cases same : x = header.prevMainHash
      · exact ⟨some tip,clear.stored,clear.common,.inl ⟨same,rfl⟩⟩
      · obtain ⟨found,search⟩ := trees.searches committed (clear.ends.resolve_left (fun here => same here.symm))
        exact ⟨found,clear.stored,clear.common,.inr ⟨same,search⟩⟩
    obtain ⟨parent,source⟩ := total
    have highest := (source.highest trees committed).mpr clear
    exact ⟨parent,(templateParentOk trees).mpr ⟨header,x,source⟩,highest,highest.minedOn names ran known⟩

end NetTask

namespace Reference
open Archive NetTask

variable {archive : Archive Forest} {tip : BlockHash} {m x : MainHash} {header : Header}

def verifiedOnCheck (archive : Archive Forest) (m : MainHash) (b : BlockHash) : Bool :=
  (archive.getBmmResults b).entries.any
    (fun entry => entry.2 = .verified && (archive.isMainDescendant entry.1 m).toOption = some true)

theorem verifiedOnChecked (trees : Trees externals world archive) {info : BlockHeaderInfo}
    (known : archive.mainHeaderInfos.tryGet m = some info) {b : BlockHash} :
    archive.VerifiedOn m b ↔ verifiedOnCheck archive m b = true := by
  obtain ⟨h,height,_⟩ := trees.main.heights.counted known
  have above {n : MainHash} (verified : archive.verifiedAt b n) :
      (archive.isMainDescendant n m).toOption = some true ↔ archive.mainLinks.Descends n m := by
    obtain ⟨_,info,_,stored,_⟩ := ((trees.results b n).mp verified).known
    obtain ⟨k,height',_⟩ := trees.main.heights.counted stored
    obtain ⟨answer,isAnswer,holds⟩ := trees.main.sound.isDescendant (mainHeightOk.mpr height') (mainHeightOk.mpr height)
    rw [isMainDescendant,isAnswer,← holds]
    exact Option.some_inj
  simp only [verifiedOnCheck,List.any_eq_true,Bool.and_eq_true,decide_eq_true_eq,Prod.exists]
  constructor
  · rintro ⟨n,verified,below⟩
    exact ⟨n,.verified,Table.memEntries.mpr verified,rfl,(above verified).mpr below⟩
  · rintro ⟨n,_,mem,rfl,below⟩
    have verified : archive.verifiedAt b n := Table.memEntries.mp mem
    exact ⟨n,verified,(above verified).mp below⟩

def forkApartCheck (archive : Archive Forest) (tip : BlockHash) (x : MainHash) : Bool :=
  archive.headers.entries.all (fun entry =>
    (entry.2.prevMainHash ≠ x || (archive.links.isDescendant entry.1 tip).toOption = some false) &&
      entry.2.prevMainHash ≠ MainHash.allZeros)

theorem forkApartClear (trees : Trees externals world archive) (stored : archive.headers.tryGet tip = some header)
    (common : archive.lastCommonMainAncestor m header.prevMainHash = .ok x) (apart : forkApartCheck archive tip x = true) :
    archive.ForkClear m tip header x := by
  have each {c : BlockHash} {header' : Header} (storedC : archive.headers.tryGet c = some header') :=
    List.all_eq_true.mp apart (c,header') (Table.memEntries.mpr storedC)
  simp only [Bool.and_eq_true,Bool.or_eq_true,decide_eq_true_eq] at each
  refine ⟨stored,common,fun c header' onChain storedC same => ?_,.inr (.inl fun c header' _ storedC => (each storedC).2)⟩
  obtain ⟨h,height,_⟩ := trees.sides.heights.counted stored
  obtain ⟨k,height',_⟩ := trees.sides.heights.counted storedC
  obtain ⟨answer,isAnswer,holds⟩ := trees.sides.sound.isDescendant (heightOk.mpr height') (heightOk.mpr height)
  rw [holds.mpr onChain] at isAnswer
  have notOn := (each storedC).1.resolve_left (fun other => other same)
  rw [isAnswer] at notOn
  cases notOn

/- The tip was mined on one side of the fork, and a block is to be mined on the other. -/
theorem forkTemplateParent : ∃ archive, runArchive externals forkOps = .ok archive ∧
    archive.verifiedAt (forkTip 2 3 4).blockHash 4 ∧ (archive.mainHeaderInfos.tryGet 5).isSome = true ∧
      ∃ parent, templateParent archive (some (forkTip 2 3 4).blockHash) 5 = .ok parent ∧
        archive.HighestOn 5 (forkTip 2 3 4).blockHash parent ∧ MinedOn externals forkWorld forkOps 5 parent := by
  have checked : runsTo externals forkOps (fun archive =>
      (archive.getBmmResults (forkTip 2 3 4).blockHash).tryGet 4 = some .verified &&
      (archive.mainHeaderInfos.tryGet 5).isSome &&
      (archive.headers.tryGet (forkTip 2 3 4).blockHash = some (forkChild 2 3) &&
        (archive.lastCommonMainAncestor 5 3).toOption = some 2 &&
          forkApartCheck archive (forkTip 2 3 4).blockHash 2)) = true := by decide +kernel
  obtain ⟨archive,ran,holds⟩ := runsToRun checked
  simp only [Bool.and_eq_true,decide_eq_true_eq] at holds
  obtain ⟨⟨verified,isKnown⟩,⟨stored,common⟩,apart⟩ := holds
  obtain ⟨info,known⟩ := Option.isSome_iff_exists.mp isKnown
  have clear := forkApartClear (runTrees forkNames ran) stored (toOptionOk common) apart
  exact ⟨archive,ran,verified,isKnown,(templateParentHighestIff forkNames ran verified known).mpr ⟨_,_,clear⟩⟩

/- The main chain forks at the block that the tip names: the tip is chosen although it was mined on the other side. -/
theorem forkParentElsewhere : ∃ archive, runArchive externals forkOps = .ok archive ∧
    archive.verifiedAt (forkTip 1 2 3).blockHash 3 ∧ (archive.mainHeaderInfos.tryGet 5).isSome = true ∧
      templateParent archive (some (forkTip 1 2 3).blockHash) 5 = .ok (some (forkTip 1 2 3).blockHash) ∧
        ¬ archive.HighestOn 5 (forkTip 1 2 3).blockHash (some (forkTip 1 2 3).blockHash) ∧
          archive.VerifiedOn 5 (forkGenesis.hash externals) := by
  have checked : runsTo externals forkOps (fun archive =>
      (archive.getBmmResults (forkTip 1 2 3).blockHash).tryGet 3 = some .verified &&
      (archive.mainHeaderInfos.tryGet 5).isSome &&
      ((templateParent archive (some (forkTip 1 2 3).blockHash) 5).toOption = some (some (forkTip 1 2 3).blockHash) &&
        !verifiedOnCheck archive 5 (forkTip 1 2 3).blockHash &&
          verifiedOnCheck archive 5 (forkGenesis.hash externals))) = true := by decide +kernel
  obtain ⟨archive,ran,holds⟩ := runsToRun checked
  simp only [Bool.and_eq_true,decide_eq_true_eq,Bool.not_eq_true'] at holds
  obtain ⟨⟨verified,isKnown⟩,⟨chosen,fails⟩,genesis⟩ := holds
  obtain ⟨info,known⟩ := Option.isSome_iff_exists.mp isKnown
  have trees := runTrees forkNames ran
  refine ⟨archive,ran,verified,isKnown,toOptionOk chosen,fun highest => ?_,(verifiedOnChecked trees known).mpr genesis⟩
  rw [(verifiedOnChecked trees known).mp highest.2.1] at fails
  cases fails

end Reference

end Coinshift
