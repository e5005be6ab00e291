import Coinshift.ArrivalOrder
import Coinshift.HeaderStore

/-! A header asked for and sent. The request names blocks of the asking node's chain, the answer goes from the first of
them that the other node comes to, or from the genesis block, and the asking node counts the heights anew. -/
namespace Coinshift.NetTask
open Checked Lineage

variable {F : Type} {lib : Externals F} {world : World} {archive archive' : Archive F} {b p end_ : BlockHash}
  {start : HashSet}

inductive HeadersReply where
  | headers (headers : List Header)
  | noHeader (blockHash : BlockHash)
  deriving DecidableEq, Repr

def handleGetHeaders (archive : Archive F) (start : HashSet) (end_ : BlockHash) : Except ArchiveError HeadersReply :=
  if (archive.headers.tryGet end_).isSome then do
    let headers ← archive.ancestorsUntil (fun b => (start.tryGet b).isSome) (fun b => (archive.getHeader b).map some) end_
    pure (.headers headers.reverse)
  else pure (.noHeader end_)

def requestStart (archive : Archive F) : Option BlockHash → Except ArchiveError (List BlockHash)
  | some tip => archive.getBlockLocator tip
  | none => pure []

section Locator

theorem ofListMem {hashes : List Hash} {hash : Hash} :
    ((HashSet.ofList hashes).tryGet hash).isSome = true ↔ hash ∈ hashes := by
  have inserts (set : HashSet) : ((hashes.foldl HashSet.insert set).tryGet hash).isSome = true ↔
      (set.tryGet hash).isSome = true ∨ hash ∈ hashes := by
    induction hashes generalizing set with
    | nil => simp
    | cons first rest ih =>
        rw [List.foldl_cons,ih,HashSet.insert,Table.tryGetPut]
        split
        · next here => simp [here]
        · next other => simp [other]
  rw [HashSet.ofList,inserts,Table.tryGetEmpty]
  simp

theorem locatorStored (woods : archive.Woods lib world) {tip : BlockHash}
    (stored : (archive.headers.tryGet tip).isSome = true) :
    ∃ hashes, archive.getBlockLocator tip = .ok hashes ∧ ∀ s ∈ hashes, (archive.headers.tryGet s).isSome = true := by
  obtain ⟨header,isStored⟩ := Option.isSome_iff_exists.mp stored
  obtain ⟨h,height,_⟩ := woods.sides.heights.counted isStored
  obtain ⟨js,isJumps,right⟩ := woods.sides.sound.jump (Archive.heightOk.mpr height)
  have jumps : archive.exponentialAncestors.tryGet tip = some js := okOrOk.mp isJumps
  refine ⟨header.prevSideHash.toList ++ js,?_,fun s mem => ?_⟩
  · rw [Archive.getBlockLocator,Archive.getHeader,okOrOk.mpr isStored,okBind,okOrOk.mpr jumps]
    rfl
  · rcases List.mem_append.mp mem with isParent | isJump
    · exact (sideForest woods.sides).closed isStored (Option.mem_toList.mp isParent)
    · obtain ⟨i,inside,atIndex⟩ := List.mem_iff_getElem.mp isJump
      have fits := woods.jumps height jumps i inside
      obtain ⟨a,isAt,up⟩ := right i fits
      rw [List.getElem?_eq_getElem inside,atIndex] at isAt
      cases isAt
      obtain ⟨a,up',aHeight⟩ := woods.sides.sound.upHeight (Archive.heightOk.mpr height) fits
      cases up.symm.trans up'
      exact Option.isSome_iff_exists.mpr (woods.sides.heights.only (Archive.heightOk.mp aHeight))

theorem requestStored (woods : archive.Woods lib world) {tip : Option BlockHash} {hashes : List BlockHash}
    (asks : requestStart archive tip = .ok hashes) : ∀ s ∈ hashes, (archive.headers.tryGet s).isSome = true := by
  cases tip with
  | none =>
      cases asks
      exact fun s mem => nomatch mem
  | some t =>
      have stored : (archive.headers.tryGet t).isSome = true := by
        simp only [requestStart,Archive.getBlockLocator,Archive.getHeader,bindOk,okOrOk] at asks
        obtain ⟨header,stored,_⟩ := asks
        exact Option.isSome_iff_exists.mpr ⟨header,stored⟩
      obtain ⟨hashes',asks',all⟩ := locatorStored woods stored
      cases asks.symm.trans asks'
      exact all

theorem heightsAgree (tree : archive.SideTree lib world) (tree' : archive'.SideTree lib world) {h k : Nat}
    (height : archive.blockHashToHeight.tryGet b = some h) (height' : archive'.blockHashToHeight.tryGet b = some k) :
    h = k := by
  induction h generalizing b k with
  | zero =>
      obtain ⟨header,stored⟩ := tree.heights.only height
      obtain ⟨header',stored'⟩ := tree'.heights.only height'
      cases (tree.named stored).1.trans (tree'.named stored').1.symm
      cases isParent : header.prevSideHash with
      | none => exact Option.some.inj (((sideForest tree').first stored' isParent).symm.trans height')
      | some p =>
          obtain ⟨j,_,next⟩ := (sideForest tree).next stored isParent
          cases height.symm.trans next
  | succ h ih =>
      obtain ⟨header,stored⟩ := tree.heights.only height
      obtain ⟨header',stored'⟩ := tree'.heights.only height'
      cases (tree.named stored).1.trans (tree'.named stored').1.symm
      cases isParent : header.prevSideHash with
      | none => cases height.symm.trans ((sideForest tree).first stored isParent)
      | some p =>
          obtain ⟨j,above,next⟩ := (sideForest tree).next stored isParent
          obtain ⟨j',above',next'⟩ := (sideForest tree').next stored' isParent
          cases height.symm.trans next
          cases height'.symm.trans next'
          exact congrArg Nat.succ (ih above above')

end Locator

section Answer

inductive Chain (lib : Externals F) : Option BlockHash → List Header → Option BlockHash → Prop
  | nil {previous : Option BlockHash} : Chain lib previous [] previous
  | cons {header : Header} {headers : List Header} {last : Option BlockHash}
      (rest : Chain lib (some (header.hash lib)) headers last) : Chain lib header.prevSideHash (header :: headers) last

theorem Chain.snoc {first : Option BlockHash} {headers : List Header} {header : Header}
    (chain : Chain lib first headers header.prevSideHash) :
    Chain lib first (headers ++ [header]) (some (header.hash lib)) := by
  generalize isLast : header.prevSideHash = last at chain
  induction chain with
  | nil =>
      rw [← isLast]
      exact .cons .nil
  | cons _ ih => exact .cons (ih isLast)

/- What is answered, in order: a chain after a block of the request or from a genesis block on, with as many blocks as
the heights differ by. -/
structure Answers (lib : Externals F) (archive : Archive F) (start : HashSet) (b : BlockHash) (h : Nat)
    (headers : List Header) : Prop where
  stored : ∀ header ∈ headers, archive.headers.tryGet (header.hash lib) = some header
  chain : ∃ first, Chain lib first headers (some b) ∧ (first = none ∧ headers.length = h + 1 ∨
    ∃ s k, first = some s ∧ (start.tryGet s).isSome = true ∧ archive.blockHashToHeight.tryGet s = some k ∧
      k + headers.length = h)

theorem walkAnswers (tree : archive.SideTree lib world) {fuel h : Nat}
    (height : archive.blockHashToHeight.tryGet b = some h) (enough : h < fuel) :
    ∃ headers, walkUntil (fun b => (archive.getHeader b).map (·.prevSideHash)) (fun b => (start.tryGet b).isSome)
      (fun b => (archive.getHeader b).map some) .endless fuel (some b) = .ok headers ∧
      Answers lib archive start b h headers.reverse := by
  induction fuel generalizing b h with
  | zero => exact absurd enough (Nat.not_lt_zero h)
  | succ fuel ih =>
      obtain ⟨header,stored⟩ := tree.heights.only height
      have own := (tree.named stored).2
      have found : archive.getHeader b = .ok header := okOrOk.mpr stored
      have isNext : (archive.getHeader b).map (·.prevSideHash) = .ok header.prevSideHash := by
        rw [found]
        rfl
      have isKept : (archive.getHeader b).map some = .ok (some header) := by
        rw [found]
        rfl
      simp only [walkUntil,isNext,isKept,okBind]
      split
      · next hit =>
          have nothing : Answers lib archive start b h [] :=
            ⟨fun _ mem => absurd mem List.not_mem_nil,some b,.nil,.inr ⟨b,h,rfl,hit,height,rfl⟩⟩
          exact ⟨[],rfl,nothing⟩
      · cases isParent : header.prevSideHash with
          | none =>
              cases height.symm.trans ((sideForest tree).first stored isParent)
              refine ⟨[header],by cases fuel <;> rfl,?_,none,?_,.inl ⟨rfl,rfl⟩⟩
              · intro only mem
                cases List.mem_singleton.mp mem
                rw [own,stored]
              · rw [← own,← isParent]
                exact .cons .nil
          | some p =>
              obtain ⟨j,above,next⟩ := (sideForest tree).next stored isParent
              cases height.symm.trans next
              obtain ⟨headers,walked,rest,first,chain,ends⟩ := ih above (Nat.lt_of_succ_lt_succ enough)
              refine ⟨header :: headers,?_,?_,first,?_,?_⟩
              · rw [walked]
                rfl
              · rw [List.reverse_cons]
                intro each mem
                rcases List.mem_append.mp mem with later | here
                · exact rest each later
                · cases List.mem_singleton.mp here
                  rw [own,stored]
              · rw [List.reverse_cons,← own]
                exact .snoc (isParent ▸ chain)
              · rw [List.reverse_cons,List.length_append,List.length_singleton]
                rcases ends with ⟨none,count⟩ | ⟨s,k,isFirst,inStart,known,count⟩
                · exact .inl ⟨none,by omega⟩
                · exact .inr ⟨s,k,isFirst,inStart,known,by omega⟩

theorem getHeadersAnswers (tree : archive.SideTree lib world) {h : Nat}
    (height : archive.blockHashToHeight.tryGet b = some h) :
    ∃ headers, handleGetHeaders archive start b = .ok (.headers headers) ∧ Answers lib archive start b h headers := by
  obtain ⟨header,stored⟩ := tree.heights.only height
  obtain ⟨headers,walked,answers⟩ := @walkAnswers F lib world archive b start tree _ h height (tree.heightBound height)
  refine ⟨headers.reverse,?_,answers⟩
  rw [handleGetHeaders,stored,if_pos Option.isSome_some,Archive.ancestorsUntil,walked]
  rfl

end Answer

section Storing

variable {headers : List Header} {first last : Option BlockHash}

theorem Chain.ends (chain : Chain lib first headers last) :
    headers = [] ∧ last = first ∨ ∃ header, headers.getLast? = some header ∧ last = some (header.hash lib) := by
  induction chain with
  | nil => exact .inl ⟨rfl,rfl⟩
  | @cons header headers last rest ih =>
      rcases ih with ⟨rfl,isLast⟩ | ⟨final,isFinal,isLast⟩
      · exact .inr ⟨header,rfl,isLast⟩
      · refine .inr ⟨final,?_,isLast⟩
        rw [List.getLast?_cons,isFinal]
        rfl

theorem Chain.begins (chain : Chain lib first headers last) (nonempty : headers ≠ []) :
    headers.head?.bind (·.prevSideHash) = first := by
  cases chain with
  | nil => exact absurd rfl nonempty
  | cons => rfl

theorem Chain.inSequence {marked : Marked F} (chain : Chain lib first headers last)
    (valid : ∀ header ∈ headers, marked.invalidatedBlock (header.hash lib) = false) :
    checkSequence lib marked first headers = .stored := by
  induction chain with
  | nil => rfl
  | @cons header headers last rest ih =>
      rw [checkSequence,if_neg (not_not.mpr rfl),valid header List.mem_cons_self,if_neg (by decide)]
      exact ih (fun next mem => valid next (List.mem_cons_of_mem _ mem))

structure MainDataReady (archive : Archive F) (header : Header) : Prop where
  main : (archive.mainHeaderInfos.tryGet header.prevMainHash).isSome = true ∨ header.prevMainHash = MainHash.allZeros
  infos : ∀ m info, archive.mainHeaderInfos.tryGet m = some info → info.prevBlockHash = header.prevMainHash →
    (archive.mainBlockInfos.tryGet m).isSome = true

theorem MainDataReady.after {header other : Header} (ready : MainDataReady archive other)
    (put : archive.putHeader lib header = .ok archive') : MainDataReady archive' other := by
  obtain ⟨_,_,_,_,_,_,_,_,_,_,rfl⟩ := Archive.putHeaderSource put
  exact ⟨ready.main,ready.infos⟩

theorem parentStored {parent : Option BlockHash} : parent.any (fun p => (archive.headers.tryGet p).isNone) = false ↔
    ∀ p, parent = some p → (archive.headers.tryGet p).isSome = true := by
  cases parent with
  | none => simp
  | some p => simp

theorem storeHeadersAll (woods : archive.Woods lib world) (chain : Chain lib first headers last)
    (begun : ∀ s, first = some s → (archive.headers.tryGet s).isSome = true)
    (names : ∀ header ∈ headers, header = world.header (header.hash lib))
    (ready : ∀ header ∈ headers, MainDataReady archive header) :
    ∃ archive', storeHeaders lib archive headers = .ok archive' ∧ archive'.Woods lib world ∧
      ∀ s, last = some s → (archive'.headers.tryGet s).isSome = true := by
  induction chain generalizing archive with
  | nil => exact ⟨archive,rfl,woods,begun⟩
  | @cons header headers last rest ih =>
      have later := fun next mem => names next (List.mem_cons_of_mem _ mem)
      have readyLater := fun next mem => ready next (List.mem_cons_of_mem _ mem)
      unfold storeHeaders
      split
      · next stored =>
          refine ih woods (fun s same => ?_) later readyLater
          cases same
          exact stored
      · rw [if_neg]
        · have isReady : archive.HeaderReady header :=
            ⟨begun,(ready header List.mem_cons_self).main,(ready header List.mem_cons_self).infos⟩
          obtain ⟨middle,put⟩ := woods.putHeaderTotal (names header List.mem_cons_self) isReady
          rw [put,okBind]
          refine ih (woods.putHeader (names header List.mem_cons_self) put) (fun s same => ?_) later
            (fun next mem => (readyLater next mem).after put)
          cases same
          rw [putHeaderHeaders put,Table.tryGetPutSelf]
          rfl
        · rw [parentStored.mpr begun]
          exact Bool.false_ne_true

theorem Answers.begins {marked : Marked F} (woods : marked.archive.Woods lib world) (tree : archive.SideTree lib world)
    {h : Nat} (known : ∀ s, (start.tryGet s).isSome = true → (marked.archive.headers.tryGet s).isSome = true)
    (counts : first = none ∧ headers.length = h + 1 ∨ ∃ s k, first = some s ∧ (start.tryGet s).isSome = true ∧
      archive.blockHashToHeight.tryGet s = some k ∧ k + headers.length = h) :
    first.any (fun s => (start.tryGet s).isNone) = false ∧ ∃ startHeight,
      startHeightOf marked.archive first = .ok startHeight ∧ endHeightOf startHeight headers.length = h := by
  rcases counts with ⟨rfl,count⟩ | ⟨s,k,rfl,inStart,height,count⟩
  · refine ⟨rfl,none,rfl,?_⟩
    rw [endHeightOf,count]
    rfl
  · obtain ⟨header,stored⟩ := Option.isSome_iff_exists.mp (known s inStart)
    obtain ⟨k',height',_⟩ := woods.sides.heights.counted stored
    cases heightsAgree woods.sides tree height' height
    refine ⟨by simpa using inStart,some k,?_,count⟩
    rw [startHeightOf,Archive.getHeight,okOrOk.mpr height']
    rfl

theorem checkPasses {marked : Marked F} (woods : marked.archive.Woods lib world) (tree : archive.SideTree lib world) {h : Nat}
    (answers : Answers lib archive start end_ h headers) (missing : start.tryGet end_ = none)
    (known : ∀ s, (start.tryGet s).isSome = true → (marked.archive.headers.tryGet s).isSome = true)
    (valid : ∀ header ∈ headers, marked.invalidatedBlock (header.hash lib) = false) :
    checkHeaders lib marked start end_ h headers = .ok .stored := by
  obtain ⟨first,chain,counts⟩ := answers.chain
  obtain ⟨inStart,startHeight,isHeight,isEndHeight⟩ := Answers.begins woods tree known counts
  have inSequence := chain.inSequence valid
  rcases chain.ends with ⟨_,isFirst⟩ | ⟨header,isLast,isEnd⟩
  · rw [← isFirst,Option.any_some,missing] at inStart
    cases inStart
  · have nonempty : headers ≠ [] := fun none => by
      rw [none] at isLast
      cases isLast
    unfold checkHeaders
    rw [isLast]
    dsimp only
    rw [if_neg (not_not.mpr (Option.some.inj isEnd).symm),chain.begins nonempty,inStart,if_neg Bool.false_ne_true,
      isHeight,okBind,if_neg (not_not.mpr isEndHeight),inSequence]
    rfl

end Storing

section Sync

variable {ctxt ctxt' : BatchVerificationContext} {prove prove' : F → List Hash → Except Text UtreexoProof}
  {ops ops' : List StoreOp}

theorem headerSyncSucceeds (names : ∀ op ∈ ops, op.Names lib world) (names' : ∀ op ∈ ops', op.Names lib world)
    {tip : Option BlockHash} {hashes : List BlockHash} {height : Nat}
    (asks : requestStart (runStore lib ctxt prove ops).archive tip = .ok hashes)
    (lacks : (runStore lib ctxt prove ops).archive.headers.tryGet end_ = none)
    (has : (runStore lib ctxt' prove' ops').archive.blockHashToHeight.tryGet end_ = some height) (peerStateId : Hash) :
    ∃ headers,
      handleGetHeaders (runStore lib ctxt' prove' ops').archive (HashSet.ofList hashes) end_ = .ok (.headers headers) ∧
      ((∀ header ∈ headers, (runStore lib ctxt prove ops).marked.invalidatedBlock (header.hash lib) = false ∧
          MainDataReady (runStore lib ctxt prove ops).archive header) →
        ∃ archive, handleHeaders lib (runStore lib ctxt prove ops).marked
            ⟨HashSet.ofList hashes,end_,some height,some peerStateId⟩ headers = .ok (archive,.stored) ∧
          (archive.headers.tryGet end_).isSome = true ∧ archive.blockHashToHeight.tryGet end_ = some height) := by
  have woods : (runStore lib ctxt prove ops).archive.Woods lib world := runWoods names
  have woods' : (runStore lib ctxt' prove' ops').archive.Woods lib world := runWoods names'
  generalize isAsking : runStore lib ctxt prove ops = asking at *
  generalize isAnswering : runStore lib ctxt' prove' ops' = answering at *
  have stored := requestStored woods asks
  obtain ⟨headers,reply,answers⟩ := @getHeadersAnswers F lib world answering.archive end_ (HashSet.ofList hashes)
    woods'.sides height has
  refine ⟨headers,reply,fun ready => ?_⟩
  have known (s : Hash) (inStart : ((HashSet.ofList hashes).tryGet s).isSome = true) :
      (asking.marked.archive.headers.tryGet s).isSome = true := stored s (ofListMem.mp inStart)
  have missing : (HashSet.ofList hashes).tryGet end_ = none := by
    rw [← Option.not_isSome_iff_eq_none]
    intro inStart
    have isStored := known end_ inStart
    rw [MarkedDb.marked,lacks] at isStored
    cases isStored
  have passes : checkHeaders lib asking.marked (HashSet.ofList hashes) end_ height headers = .ok .stored :=
    checkPasses woods woods'.sides answers missing known (fun header mem => (ready header mem).1)
  obtain ⟨first,chain,counts⟩ := answers.chain
  have begun (s : BlockHash) (isFirst : first = some s) : (asking.archive.headers.tryGet s).isSome = true := by
    rcases counts with ⟨none,_⟩ | ⟨s',_,isStart,inStart,_⟩
    · cases isFirst.symm.trans none
    · cases isFirst.symm.trans isStart
      exact known s inStart
  have isNamed (header : Header) (mem : header ∈ headers) : header = world.header (header.hash lib) :=
    (woods'.sides.named (answers.stored header mem)).1
  obtain ⟨archive,stores,after,last⟩ := storeHeadersAll woods chain begun isNamed (fun header mem => (ready header mem).2)
  have isStored := last end_ rfl
  refine ⟨archive,?_,isStored,?_⟩
  · rw [handleHeaders]
    dsimp only
    rw [passes,okBind,if_pos rfl]
    show (storeHeaders lib asking.archive headers >>= fun archive => pure (archive,HeadersVerdict.stored)) = _
    rw [stores]
    rfl
  · obtain ⟨header,isHeader⟩ := Option.isSome_iff_exists.mp isStored
    obtain ⟨h,isHeight,_⟩ := after.sides.heights.counted isHeader
    rw [isHeight,heightsAgree after.sides woods'.sides isHeight has]

open Reference Archive

instance {header : Header} : Decidable (MainDataReady archive header) :=
  decidable_of_iff
    (((archive.mainHeaderInfos.tryGet header.prevMainHash).isSome = true ∨ header.prevMainHash = MainHash.allZeros) ∧
      ∀ entry ∈ archive.mainHeaderInfos.entries, entry.2.prevBlockHash = header.prevMainHash →
        (archive.mainBlockInfos.tryGet entry.1).isSome = true)
    ⟨fun ⟨main,infos⟩ => ⟨main,fun m info stored => infos (m,info) (Table.memEntries.mpr stored)⟩,
      fun ready => ⟨ready.main,fun _ mem => ready.infos _ _ (Table.memEntries.mp mem)⟩⟩

def childOps (child : Header) : List StoreOp :=
  forkMain.flatMap (fun entry => [.other ⟨.putMainHeaderInfo entry.1,rfl⟩,
    .other ⟨.putMainBlockInfo entry.1.blockHash (forkInfo entry.2),rfl⟩]) ++
    [.headersResponse ⟨∅,child.hash externals,some 1,some 0⟩ [forkGenesis,child]]

theorem siblingSyncs : ∃ hashes archive,
    requestStart (runStore externals context noProof (childOps (forkChild 1 2))).archive
      (some ((forkChild 1 2).hash externals)) = .ok hashes ∧
    handleHeaders externals (runStore externals context noProof (childOps (forkChild 1 2))).marked
      ⟨HashSet.ofList hashes,(forkChild 2 3).hash externals,some 1,some 0⟩ [forkChild 2 3] = .ok (archive,.stored) ∧
    archive.blockHashToHeight.tryGet ((forkChild 2 3).hash externals) = some 1 := by
  have names : ∀ op ∈ childOps (forkChild 1 2),op.Names externals forkWorld := by decide +kernel
  have names' : ∀ op ∈ childOps (forkChild 2 3),op.Names externals forkWorld := by decide +kernel
  have asks : requestStart (runStore externals context noProof (childOps (forkChild 1 2))).archive
      (some ((forkChild 1 2).hash externals)) = .ok [forkGenesis.hash externals] := by decide +kernel
  have lacks : (runStore externals context noProof (childOps (forkChild 1 2))).archive.headers.tryGet
      ((forkChild 2 3).hash externals) = none := by decide +kernel
  have has : (runStore externals context noProof (childOps (forkChild 2 3))).archive.blockHashToHeight.tryGet
      ((forkChild 2 3).hash externals) = some 1 := by decide +kernel
  obtain ⟨headers,reply,syncs⟩ := headerSyncSucceeds names names' asks lacks has 0
  have answer : handleGetHeaders (runStore externals context noProof (childOps (forkChild 2 3))).archive
      (HashSet.ofList [forkGenesis.hash externals]) ((forkChild 2 3).hash externals) =
        .ok (.headers [forkChild 2 3]) := by decide +kernel
  cases reply.symm.trans answer
  have ready : ∀ header ∈ [forkChild 2 3],
      (runStore externals context noProof (childOps (forkChild 1 2))).marked.invalidatedBlock (header.hash externals) =
        false ∧ MainDataReady (runStore externals context noProof (childOps (forkChild 1 2))).archive header := by
    decide +kernel
  obtain ⟨archive,handled,_,height⟩ := syncs ready
  exact ⟨_,archive,asks,handled,height⟩

end Sync

end Coinshift.NetTask
