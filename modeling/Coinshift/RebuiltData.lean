import Coinshift.PegEffectRuns

/-! The peg data that is put together again for a tip, beside the data it was connected with.
The search for the block to start from passes over the entries of the parent too, finds the latest entry of each kind only
among the first 256, and of two entries of one block takes the older. So the events of the parent, or of a block before it,
may come with those of the tip; and those of a first block are left out. -/
namespace Coinshift.NetTask
open Checked Lineage Archive

variable {F : Type} {lib : Externals F} {ctxt : BatchVerificationContext}
  {prove : F → List Hash → Except Text UtreexoProof} {world : World} {db db' : Db F} {archive : Archive F}
  {kind : Hash × BlockEvent → Option Hash} {below : List Connected} {c : Connected} {data : TwoWayPegData}

/- What disconnect_tip_ puts together before it disconnects anything. -/
def rebuiltData (db : Db F) : Except NodeError TwoWayPegData := do
  let tipBlockHash ← okOr db.state.tip (.state .noTip)
  let tipHeader ← (db.archive.getHeader tipBlockHash).mapError .archive
  let height ← okOr db.state.height (.state .noTip)
  tipTwoWayPegData db tipHeader height

theorem disconnectsRebuilt (done : disconnectTip_ lib prove db = .ok db') :
    ∃ data middle, rebuiltData db = .ok data ∧ disconnectTwoWayPegData lib db.state data = .ok middle := by
  obtain ⟨header,body,source⟩ := disconnectTipSource done
  obtain ⟨tip,isTip,isHeader,_⟩ := source.stored
  obtain ⟨height,data,middle,_,_,isHeight,isData,pegs,_⟩ := source.state
  refine ⟨data,middle,?_,pegs⟩
  simp only [rebuiltData,getHeader,bindOk,mapErrorOk,okOrOk]
  exact ⟨tip,isTip,header,isHeader,height,isHeight,isData⟩

section Latest

def anyBlock (event : Hash × BlockEvent) : Option Hash := some event.1

/- The last block of a kind, if its entry gets one of the first 256 numbers. -/
def listedLast (c : Connected) (below : List Connected) (kind : Hash × BlockEvent → Option Hash) : Option Hash :=
  if (marks kind below).length < 256 then c.twoWayPegData.lastOf kind else none

def listedBlocks (c : Connected) (below : List Connected) : List Hash :=
  [listedLast c below depositBlock,listedLast c below reportBlock].filterMap id

/- The latest block with events left entries that a search finds, and they name the last main-chain block with events. -/
def LatestListed : List Connected → Prop
  | [] => True
  | c :: below =>
      if c.twoWayPegData.events = [] then LatestListed below
      else listedBlocks c below ≠ [] ∧ ∀ m ∈ listedBlocks c below, c.twoWayPegData.lastOf anyBlock = some m

def Rebuildable : List Connected → Prop
  | [] => True
  | [c] => c.twoWayPegData.events = []
  | _ :: parent :: lower => parent.twoWayPegData.events = [] ∧ LatestListed lower

theorem lastMarkMem {m : Hash × Nat} {connected : List Connected} (isLast : lastMark kind connected = some m) :
    m ∈ marks kind connected := List.mem_of_mem_take (List.mem_of_getLast? isLast)

theorem lastMarkCons : lastMark kind (c :: below) =
    ((listedLast c below kind).map (·,below.length)).or (lastMark kind below) := by
  unfold lastMark listedLast
  rw [marks]
  split
  · next few =>
      cases c.twoWayPegData.lastOf kind with
      | none => rw [Option.map_none,Option.toList_none,List.append_nil,Option.none_or]
      | some x =>
          rw [Option.map_some,Option.toList_some,List.take_of_length_le (by simp; omega),List.getLast?_concat]
          rfl
  · next many => rw [Option.map_none,Option.none_or,List.take_append_of_le_length (Nat.not_lt.mp many)]

theorem lastMarkQuiet (none : c.twoWayPegData.events = []) : lastMark kind (c :: below) = lastMark kind below :=
  congrArg (fun marks : List (Hash × Nat) => (marks.take 256).getLast?) (marksQuiet (lastOfQuiet none))

end Latest

section Start

/- Nothing with a property comes before the block to stop at if that is the first that has it. -/
theorem takeWhileFree {α : Type} [DecidableEq α] {p : α → Bool} {xs : List α} {start : Option α}
    (stops : ∀ x, start = some x → x ∈ xs ∧ p x = true) :
    (xs.takeWhile (fun x => !decide (some x = start))).filter p = [] ↔ xs.find? p = start := by
  induction xs with
  | nil =>
      cases start with
      | none => exact iff_of_true rfl rfl
      | some x => exact absurd (stops x rfl).1 List.not_mem_nil
  | cons y ys ih =>
      rw [List.takeWhile_cons,List.find?_cons]
      by_cases here : some y = start
      · rw [decide_eq_true here,(stops y here.symm).2]
        exact iff_of_true rfl here
      · rw [decide_eq_false here]
        cases passes : p y with
        | true => simp [passes,here]
        | false =>
            have rest := ih (fun x isStart => by
              obtain ⟨mem,passes'⟩ := stops x isStart
              refine ⟨(List.mem_cons.mp mem).resolve_left ?_,passes'⟩
              rintro rfl
              exact here isStart.symm)
            simpa [passes] using rest

theorem dealtLast {own : List MainHash} (isData : data.blockInfo = (own.map (eventsOf world)).reverse) :
    data.lastOf anyBlock = own.find? (hasEvents world) := by
  obtain ⟨blocks⟩ := data
  dsimp only at isData
  subst isData
  induction own with
  | nil => rfl
  | cons m own ih =>
      simp only [TwoWayPegData.lastOf,TwoWayPegData.events] at ih ⊢
      rw [List.map_cons,List.reverse_cons,List.flatMap_append,List.filterMap_append,List.find?_cons,List.getLast?_append,ih,
        List.flatMap_singleton]
      rcases List.eq_nil_or_concat (world.mainInfo m).events with none | ⟨front,event,isEvents⟩
      · simp [eventsOf,hasEvents,none]
      · have some : hasEvents world m = true := by
          rw [hasEvents,isEvents]
          cases front <;> rfl
        simp [eventsOf,isEvents,anyBlock,some]

variable {line : List MainHash} {x y m : MainHash} {h : Nat}

/- Of two entries of one block the older is taken. -/
theorem tiedStart (tree : MainTree world archive) {hm : Nat} (known : archive.mainLinks.height m = .ok hm)
    (deposit : archive.mainLinks.Descends x m) (report : archive.mainLinks.Descends y m) :
    startBlockHash archive (some (x,h)) (some (y,h)) = .ok (some m) ↔ x = m ∧ y = m := by
  unfold startBlockHash
  simp only [lt_irrefl,if_false]
  constructor
  · intro ok
    simp only [bindOk,mapErrorOk] at ok
    obtain ⟨isEvent,answers,ok⟩ := ok
    split at ok
    · next yes =>
        cases ok
        subst yes
        exact ⟨tree.sound.descentAntisymm deposit ((tree.descendant known answers).mp rfl),rfl⟩
    · simp only [bindOk,mapErrorOk,ensureOk,pureOk] at ok
      obtain ⟨isDeposit,answers,_,yes,same⟩ := ok
      cases same
      exact ⟨rfl,tree.sound.descentAntisymm report ((tree.descendant known answers).mp yes)⟩
  · rintro ⟨rfl,rfl⟩
    rw [isMainDescendant,Links.isDescendant,if_pos rfl]
    rfl

theorem startEarlier {other : Option (Hash × Nat)} (lower : ∀ mark ∈ other, mark.2 < h) :
    startBlockHash archive (some (x,h)) other = .ok (some x) ∧
      startBlockHash archive other (some (x,h)) = .ok (some x) := by
  cases other with
  | none => exact ⟨rfl,rfl⟩
  | some mark =>
      have less := lower mark rfl
      unfold startBlockHash
      simp only [less,Nat.lt_asymm less,if_true,if_false]
      exact ⟨rfl,rfl⟩

theorem noEventsLast : data.lastOf anyBlock = none ↔ data.events = [] := by
  rw [TwoWayPegData.lastOf,List.getLast?_eq_none_iff,List.filterMap_eq_nil_iff]
  constructor
  · exact fun none => List.eq_nil_iff_forall_not_mem.mpr (fun event mem => Option.some_ne_none _ (none event mem))
  · intro none event mem
    rw [none] at mem
    cases mem

/- An entry of the latest block goes before every earlier one. -/
theorem nearestStart {deposit report : Option MainHash} {earlier earlier' : Option (Hash × Nat)}
    (tree : MainTree world archive) {hm : Nat} (known : archive.mainLinks.height m = .ok hm)
    (before : ∀ x ∈ [deposit,report].filterMap id, archive.mainLinks.Descends x m) (lower : ∀ mark ∈ earlier, mark.2 < h)
    (lower' : ∀ mark ∈ earlier', mark.2 < h) (apart : startBlockHash archive earlier earlier' ≠ .ok (some m)) :
    startBlockHash archive ((deposit.map (·,h)).or earlier) ((report.map (·,h)).or earlier') = .ok (some m) ↔
      [deposit,report].filterMap id ≠ [] ∧ ∀ x ∈ [deposit,report].filterMap id, some m = some x := by
  cases deposit with
  | none =>
      cases report with
      | none => exact iff_of_false apart (fun latest => latest.1 rfl)
      | some y =>
          have starts := (@startEarlier _ archive y h _ lower).2
          simp only [Option.map_none,Option.none_or,Option.map_some,Option.some_or,starts]
          simp [@eq_comm _ m]
  | some x =>
      cases report with
      | none =>
          have starts := (@startEarlier _ archive x h _ lower').1
          simp only [Option.map_none,Option.none_or,Option.map_some,Option.some_or,starts]
          simp [@eq_comm _ m]
      | some y =>
          have tied := tiedStart (h := h) tree known (before x List.mem_cons_self)
            (before y (List.mem_cons_of_mem x List.mem_cons_self))
          simp only [Option.map_some,Option.some_or,tied]
          simp [@eq_comm _ m]

theorem listedEvent (listed : x ∈ listedBlocks c below) : ∃ event ∈ c.twoWayPegData.events, event.1 = x := by
  have isOf {kind : Hash × BlockEvent → Option Hash} (names : NamesBlock kind) (isLast : listedLast c below kind = some x) :
      ∃ event ∈ c.twoWayPegData.events, event.1 = x := by
    unfold listedLast at isLast
    split at isLast
    · obtain ⟨event,mem,isOne⟩ := lastOfSome isLast
      exact ⟨event,mem,names isOne⟩
    · cases isLast
  obtain ⟨_,isOne,isLast⟩ := List.mem_filterMap.mp listed
  rcases List.mem_pair.mp isOne with rfl | rfl
  · exact isOf depositNames isLast
  · exact isOf reportNames isLast

theorem startIn {connected : List Connected} (given : Given world archive connected)
    (walk : Walk archive.mainNext (namedMain connected) line)
    (ok : startBlockHash archive (lastMark depositBlock connected) (lastMark reportBlock connected) = .ok (some m)) :
    m ∈ line ∧ hasEvents world m = true := by
  obtain ⟨applied,rfl,isApplied⟩ := startBlockFrom ok
  rcases isApplied with isMark | isMark
  · exact given.marked walk depositNames (lastMarkMem isMark)
  · exact given.marked walk reportNames (lastMarkMem isMark)

/- The search starts at the last main-chain block with events just if the entries lead to it. -/
theorem startsLatest {connected : List Connected} (tree : MainTree world archive) (given : Given world archive connected)
    (walk : Walk archive.mainNext (namedMain connected) line) :
    startBlockHash archive (lastMark depositBlock connected) (lastMark reportBlock connected) =
      .ok (line.find? (hasEvents world)) ↔ LatestListed connected := by
  induction given generalizing line with
  | empty =>
      cases walk
      exact iff_of_true rfl trivial
  | @next c rest own below earlier isBelow isLine isData ih =>
      cases walk.unique isLine
      rw [LatestListed,List.find?_append,← dealtLast isData]
      split
      · next none =>
          rw [lastMarkQuiet none,lastMarkQuiet none,lastOfQuiet none,Option.none_or]
          exact ih isBelow
      · next some =>
          obtain ⟨m,isLast⟩ := Option.ne_none_iff_exists'.mp (fun none => some (noEventsLast.mp none))
          have found : own.find? (hasEvents world) = Option.some m := (dealtLast isData).symm.trans isLast
          obtain ⟨_,front,back,split,quiet⟩ := List.find?_eq_some_iff_append.mp found
          have onLine := isLine
          rw [split,List.append_assoc,List.cons_append] at onLine
          obtain ⟨hm,known,_,ancestors⟩ := tree.walkOn onLine.suffix
          have before {x : Hash} (listed : x ∈ listedBlocks c rest) : archive.mainLinks.Descends x m := by
            obtain ⟨event,mem,rfl⟩ := listedEvent listed
            obtain ⟨isOwn,isEvent⟩ := dealtEvent isData mem
            rw [split] at isOwn
            rcases List.mem_append.mp isOwn with early | late
            · cases (quiet _ early).symm.trans (congrArg not isEvent)
            · exact (ancestors _).mp (List.mem_append_left below late)
          rw [lastMarkCons,lastMarkCons,isLast,Option.some_or]
          refine nearestStart tree known (fun x => before) (fun _ isMark => marksLow (lastMarkMem isMark))
            (fun _ isMark => marksLow (lastMarkMem isMark)) (fun ok => ?_)
          have isEarlier := (startIn earlier isBelow ok).1
          exact (List.nodup_append.mp isLine.nodup).2.2 m (List.mem_of_find?_eq_some found) m isEarlier rfl

end Start

section Tip

variable {own other line : List MainHash}

theorem dealtEventful : eventful (own.map (eventsOf world)) = (own.filter (hasEvents world)).map (eventsOf world) := by
  rw [eventful,List.filter_map]
  refine congrArg (List.map (eventsOf world)) (List.filter_congr (fun m _ => ?_))
  rw [Function.comp_apply,Bool.eq_iff_iff,decide_eq_true_iff,hasEvents,Bool.not_eq_true',List.isEmpty_eq_false_iff]
  rfl

theorem sameEventful : (eventful (other.map (eventsOf world))).reverse = eventful (own.map (eventsOf world)).reverse ↔
    other.filter (hasEvents world) = own.filter (hasEvents world) := by
  have injective : Function.Injective (eventsOf world) := fun m n same => congrArg Prod.fst same
  rw [eventful,eventful,List.filter_reverse,List.reverse_inj,← eventful,← eventful,dealtEventful,dealtEventful]
  exact (List.map_injective_iff.mpr injective).eq_iff

theorem noEventsOwn (isData : data.blockInfo = (own.map (eventsOf world)).reverse) :
    data.events = [] ↔ own.filter (hasEvents world) = [] := by
  rw [← noEventsLast,dealtLast isData,List.find?_eq_none,List.filter_eq_nil_iff]

theorem noKinds (deposit : data.lastOf depositBlock = none) (report : data.lastOf reportBlock = none) :
    data.events = [] := by
  rw [TwoWayPegData.lastOf,List.getLast?_eq_none_iff,List.filterMap_eq_nil_iff] at deposit report
  refine List.eq_nil_iff_forall_not_mem.mpr (fun event mem => ?_)
  have noDeposit := deposit event mem
  have noReport := report event mem
  unfold depositBlock at noDeposit
  unfold reportBlock at noReport
  split at noDeposit
  · cases noDeposit
  · next isReport =>
      rw [isReport] at noReport
      cases noReport

theorem rebuiltTip (numbered : Numbered lib world db) (isTop : db.connected = c :: below) :
    rebuiltData db = tipTwoWayPegData db c.header below.length := by
  obtain ⟨isTip,stored,isHeight⟩ := numbered.toActive.tipStored isTop
  rw [rebuiltData,okOrOk.mpr isTip,okBind,getHeader,okOrOk.mpr stored,okOrOk.mpr isHeight]
  rfl

/- At height 0 the search starts from the entries of the block itself. -/
theorem Numbered.rebuildsFirst (numbered : Numbered lib world db) (isTop : db.connected = [c]) :
    (∃ data, rebuiltData db = .ok data ∧ data.blockInfo = eventful c.twoWayPegData.blockInfo) ↔
      c.twoWayPegData.events = [] := by
  have given := numbered.given
  have deposits := numbered.deposits
  have reports := numbered.reports
  rw [isTop] at given deposits reports
  have whole := given
  cases given with
  | @next _ _ own below earlier isBelow isLine isData =>
      cases isBelow
      rw [List.append_nil] at isLine
      have bound : [c].length ≤ heightMinus 0 1 := by
        show 1 ≤ heightMinus 0 1
        decide
      have isDeposit := lastApplied [] deposits bound (.inl rfl)
      have isReport := lastApplied [] reports bound (.inl rfl)
      simp only [rebuiltTip numbered isTop,List.length_nil,tipBlocks numbered.toFed rfl isLine,isDeposit,isReport,mapOk,
        isData]
      rw [noEventsOwn isData]
      constructor
      · rintro ⟨_,⟨start,isStart,rfl⟩,same⟩
        rw [sameEventful] at same
        rcases startBlockSource isStart with ⟨_,noDeposit,noReport⟩ | ⟨applied,rfl,_⟩
        · rw [lastMarkCons,Option.or_eq_none_iff,Option.map_eq_none_iff] at noDeposit noReport
          exact (noEventsOwn isData).mp (noKinds noDeposit.1 noReport.1)
        · obtain ⟨isOwn,isEvent⟩ := startIn whole isLine isStart
          have taken := List.mem_filter.mpr ⟨isOwn,isEvent⟩
          rw [← same] at taken
          have stopped := List.mem_takeWhile_imp (List.mem_filter.mp taken).1
          rw [decide_eq_true rfl] at stopped
          cases stopped
      · intro none
        have noMarks (kind : Hash × BlockEvent → Option Hash) : lastMark kind [c] = Option.none :=
          lastMarkQuiet ((noEventsOwn isData).mpr none)
        rw [noMarks,noMarks]
        refine ⟨_,⟨Option.none,rfl,rfl⟩,?_⟩
        rw [sameEventful]
        exact congrArg _ (List.takeWhile_eq_self_iff.mpr (fun m _ => rfl))

/- Above it, it starts below the parent. -/
theorem Numbered.rebuildsAbove {d : Connected} {lower : List Connected} (numbered : Numbered lib world db)
    (isTop : db.connected = c :: d :: lower) (fits : (d :: lower).length < heightSpace) :
    (∃ data, rebuiltData db = .ok data ∧ data.blockInfo = eventful c.twoWayPegData.blockInfo) ↔
      d.twoWayPegData.events = [] ∧ LatestListed lower := by
  have given := numbered.given
  have deposits := numbered.deposits
  have reports := numbered.reports
  rw [isTop] at given deposits reports
  cases given with
  | @next _ _ own below earlier isBelow isLine isData =>
      cases earlier with
      | @next _ _ own' below' earlier' isBelow' isLine' isData' =>
          cases isBelow.unique isLine'
          have bound : heightMinus (d :: lower).length 1 = lower.length :=
            heightMinusOne.trans (Nat.mod_eq_of_lt (Nat.lt_of_succ_lt fits))
          have isDeposit := lastApplied [c,d] deposits bound.ge (.inr bound.le)
          have isReport := lastApplied [c,d] reports bound.ge (.inr bound.le)
          simp only [rebuiltTip numbered isTop,tipBlocks numbered.toFed rfl isLine,isDeposit,isReport,mapOk,isData]
          rw [noEventsOwn isData',← startsLatest numbered.trees.main earlier' isBelow']
          have goesOn {start : Option MainHash} (ok : startBlockHash db.archive (lastMark depositBlock lower)
              (lastMark reportBlock lower) = .ok start) :
              (eventful (((own ++ (own' ++ below')).takeWhile (fun m => !decide (some m = start))).map
                (eventsOf world))).reverse = eventful (own.map (eventsOf world)).reverse ↔
              own'.filter (hasEvents world) = [] ∧ below'.find? (hasEvents world) = start := by
            have stops (m : MainHash) (isOne : start = some m) := startIn earlier' isBelow' (isOne ▸ ok)
            have inside (m : MainHash) (isOne : start = some m) := List.mem_append_right own' (stops m isOne).1
            rw [sameEventful,takeWhilePass isLine.nodup inside,
              takeWhilePass isLine'.nodup (fun m isOne => (stops m isOne).1),List.filter_append,List.append_right_eq_self,List.filter_append,List.append_eq_nil_iff,takeWhileFree stops]
          constructor
          · rintro ⟨_,⟨start,isStart,rfl⟩,same⟩
            obtain ⟨none,rfl⟩ := (goesOn isStart).mp same
            exact ⟨none,isStart⟩
          · rintro ⟨none,isStart⟩
            exact ⟨_,⟨_,isStart,rfl⟩,(goesOn isStart).mpr ⟨none,rfl⟩⟩

theorem Numbered.rebuilds (numbered : Numbered lib world db) (isTop : db.connected = c :: below)
    (fits : below.length < heightSpace) :
    (∃ data, rebuiltData db = .ok data ∧ data.blockInfo = eventful c.twoWayPegData.blockInfo) ↔
      Rebuildable (c :: below) := by
  cases below with
  | nil => exact numbered.rebuildsFirst isTop
  | cons d lower => exact numbered.rebuildsAbove isTop fits

end Tip

section Runs

/- In every run the data put together for a tip is that of its connection just if the entries below its parent lead back to
the last events before it. -/
theorem tipDataRebuilt {steps : List PegStep} (silent : RootSilent world)
    (called : ∀ before step after, steps = before ++ step :: after → step.Called lib world (runPegs lib ctxt prove before))
    (keeps : ∀ before step after, steps = before ++ step :: after → step.KeepsEvents lib (runPegs lib ctxt prove before))
    (isTop : (runPegs lib ctxt prove steps).connected = c :: below) (fits : below.length < heightSpace) :
    ((∃ data, rebuiltData (runPegs lib ctxt prove steps) = .ok data ∧
        data.blockInfo = eventful c.twoWayPegData.blockInfo) ↔ Rebuildable (c :: below)) ∧
      ∀ after, disconnectTip_ lib prove (runPegs lib ctxt prove steps) = .ok after → ∃ data middle,
        rebuiltData (runPegs lib ctxt prove steps) = .ok data ∧
        disconnectTwoWayPegData lib (runPegs lib ctxt prove steps).state data = .ok middle :=
  ⟨(numberedRule.run Recorded.new.toNumbered silent called keeps).rebuilds isTop fits,fun _ done => disconnectsRebuilt done⟩

end Runs

section Deposits

open Coinshift.Reference

def grownSteps (world : World) (headers : List Header) : List PegStep :=
  (List.range (headers.length + 1)).map (fun n => connectMain world (BitVec.ofNat 256 (n + 1))) ++
    headers.flatMap learnBlock ++ headers.getLast?.toList.map (fun header =>
      .reorgToTip ⟨header.hash externals,BitVec.ofNat 256 (headers.length + 1)⟩ (fun _ => noRpc))

/- A chain of empty blocks, each on the main-chain block that commits to the one before. -/
def grownHeaders (events : List (List BlockEvent)) : Nat → List Header
  | 0 => []
  | n + 1 =>
      let headers := grownHeaders events n
      let state := (runPegs externals context noProof (grownSteps (chainWorld headers events) headers)).state
      headers ++ [{ mine state minedBody with prevMainHash := BitVec.ofNat 256 (n + 1) }]

def grownWorld (events : List (List BlockEvent)) : World := chainWorld (grownHeaders events 3) events

def threeGrown (events : List (List BlockEvent)) : List PegStep := grownSteps (grownWorld events) (grownHeaders events 3)

def bobDeposit : BlockEvent := .deposit (deposit 2 (coin bob 500))

/- The deposit below the parent is found, and the search starts there. -/
theorem tipDepositRebuilt : ∃ c below data,
    (runPegs externals context noProof (threeGrown [[aliceDeposit],[],[bobDeposit]])).connected = c :: below ∧
    rebuiltData (runPegs externals context noProof (threeGrown [[aliceDeposit],[],[bobDeposit]])) = .ok data ∧
    data.blockInfo = eventful c.twoWayPegData.blockInfo ∧ data.blockInfo = [(3,[bobDeposit])] := by
  have called : foldlEvery (PegStep.apply externals context noProof)
      (calledCheck (grownWorld [[aliceDeposit],[],[bobDeposit]])) (threeGrown [[aliceDeposit],[],[bobDeposit]])
      (Db.new Forest) = true := by decide +kernel
  have kept : foldlEvery (PegStep.apply externals context noProof) effectsCheck
      (threeGrown [[aliceDeposit],[],[bobDeposit]]) (Db.new Forest) = true := by decide +kernel
  have dealt : (runPegs externals context noProof (threeGrown [[aliceDeposit],[],[bobDeposit]])).connected.map
      (·.twoWayPegData) = [⟨[(3,[bobDeposit])]⟩,⟨[(2,[])]⟩,⟨[(1,[aliceDeposit])]⟩] := by decide +kernel
  obtain ⟨c,below,isTop,isTip,dealt⟩ := List.map_eq_cons_iff.mp dealt
  obtain ⟨parent,lower,rfl,isParent,dealt⟩ := List.map_eq_cons_iff.mp dealt
  obtain ⟨first,rest,rfl,isFirst,none⟩ := List.map_eq_cons_iff.mp dealt
  cases List.map_eq_nil_iff.mp none
  have listed : listedBlocks first [] = [1] := by
    rw [listedBlocks,listedLast,listedLast,isFirst]
    rfl
  have brought : TwoWayPegData.events ⟨[(1,[aliceDeposit])]⟩ ≠ [] := List.cons_ne_nil _ _
  have leads : Rebuildable [c,parent,first] := by
    rw [Rebuildable,LatestListed,listed,isParent,isFirst,if_neg brought]
    exact ⟨rfl,List.cons_ne_nil _ _,fun m mem => congrArg some (List.mem_singleton.mp mem).symm⟩
  have fits : [parent,first].length < heightSpace := by
    show 2 < heightSpace
    decide
  have rebuilt := (tipDataRebuilt chainSilent (calledChecked called) (effectsChecked kept) isTop fits).1
  obtain ⟨data,found,same⟩ := rebuilt.mpr leads
  rw [isTip] at same
  exact ⟨c,[parent,first],data,isTop,found,isTip ▸ same,same⟩

/- The deposit of the parent is put together for the tip, and disconnecting fails on it. -/
theorem parentDepositRebuilt : ∃ (world : World) (steps : List PegStep) (c : Connected) (below : List Connected),
    RootSilent world ∧ (∀ before step after, steps = before ++ step :: after →
      step.Called externals world (runPegs externals context noProof before)) ∧
    (runPegs externals context noProof steps).connected = c :: below ∧
    (¬ ∃ data, rebuiltData (runPegs externals context noProof steps) = .ok data ∧
      data.blockInfo = eventful c.twoWayPegData.blockInfo) ∧
    (disconnectTip_ externals noProof (runPegs externals context noProof steps)).isOk = false := by
  have called : foldlEvery (PegStep.apply externals context noProof) (calledCheck (grownWorld [[],[aliceDeposit]]))
      (threeGrown [[],[aliceDeposit]]) (Db.new Forest) = true := by decide +kernel
  have given : (runPegs externals context noProof (threeGrown [[],[aliceDeposit]])).connected.head?.map
      (fun c => eventful c.twoWayPegData.blockInfo) = some [] := by decide +kernel
  have isData : (rebuiltData (runPegs externals context noProof (threeGrown [[],[aliceDeposit]]))).toOption.map
      (·.blockInfo) = some [(2,[aliceDeposit])] := by decide +kernel
  have fails : (disconnectTip_ externals noProof
      (runPegs externals context noProof (threeGrown [[],[aliceDeposit]]))).isOk = false := by decide +kernel
  cases isTop : (runPegs externals context noProof (threeGrown [[],[aliceDeposit]])).connected with
  | nil =>
      rw [isTop] at given
      cases given
  | cons c below =>
      rw [isTop] at given
      refine ⟨grownWorld [[],[aliceDeposit]],threeGrown [[],[aliceDeposit]],c,below,chainSilent,calledChecked called,isTop,?_,
        fails⟩
      rintro ⟨data,found,same⟩
      rw [found] at isData
      cases (Option.some.inj isData).symm.trans (same.trans (Option.some.inj given))

end Deposits

end Coinshift.NetTask
