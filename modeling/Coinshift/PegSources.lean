import Coinshift.BundleBook
import Coinshift.EventBlocks
import Coinshift.PegBlocks

/-! Where the entries of the peg tables come from.
Each is of a connected block that left something to take back, one event block of a kind at most for a block. With the tip
its own entries go, as long as the data put together for it ends with the events it was connected with; only of a first
block may some be left out. -/
namespace Coinshift.NetTask
open Checked Lineage Archive

variable {F : Type} {lib : Externals F} {world : World} {db db' : Db F} {archive : Archive F}
  {kind : Hash × BlockEvent → Option Hash} {connected below : List Connected} {c d : Connected}
  {table table' : Table UInt32 (Hash × Nat)} {data : TwoWayPegData} {height : Nat}

section Tables

def ConnectedAt (connected : List Connected) (height : Nat) (c : Connected) : Prop :=
  ∃ below, (c :: below) <:+ connected ∧ below.length = height

theorem ConnectedAt.grow (at_ : ConnectedAt below height d) : ConnectedAt (c :: below) height d := by
  obtain ⟨rest,isSuffix,length⟩ := at_
  exact ⟨rest,isSuffix.trans (List.suffix_cons c below),length⟩

theorem ConnectedAt.low (at_ : ConnectedAt connected height d) : height < connected.length := by
  obtain ⟨rest,isSuffix,rfl⟩ := at_
  exact isSuffix.length_le

theorem ConnectedAt.top (at_ : ConnectedAt (c :: below) height d) :
    (height = below.length ∧ d = c) ∨ ConnectedAt below height d := by
  obtain ⟨rest,isSuffix,rfl⟩ := at_
  rcases List.suffix_cons_iff.mp isSuffix with same | inside
  · cases same
    exact .inl ⟨rfl,rfl⟩
  · exact .inr ⟨rest,inside,rfl⟩

theorem ConnectedAt.member (at_ : ConnectedAt connected height d) : d ∈ connected := by
  obtain ⟨rest,isSuffix,_⟩ := at_
  exact isSuffix.subset List.mem_cons_self

theorem lastOfSome {x : Hash} (isLast : data.lastOf kind = some x) : ∃ event ∈ data.events, kind event = some x :=
  List.mem_filterMap.mp (List.mem_of_getLast? isLast)

theorem lastOfWhole (whole : c.twoWayPegData.events <:+ data.events) (some : c.twoWayPegData.lastOf kind ≠ none) :
    data.lastOf kind ≠ none := by
  intro none
  rw [TwoWayPegData.lastOf,List.getLast?_eq_none_iff] at none
  have inside := whole.filterMap kind
  rw [none,List.suffix_nil] at inside
  exact some (List.getLast?_eq_none_iff.mpr inside)

end Tables

section Rebuilt

theorem lastAppliedFrom {bound : Nat} {applied : Hash × Nat} (isLast : lastAppliedBelow table bound = some applied) :
    (∃ k, table.tryGet k = some applied) ∧ applied.2 < bound := by
  have low := List.find?_some isLast
  obtain ⟨⟨k,v⟩,mem,same⟩ := List.mem_map.mp (List.mem_of_find?_eq_some isLast)
  cases same
  exact ⟨⟨k,Table.memEntries.mp (List.mem_reverse.mp mem)⟩,of_decide_eq_true low⟩

theorem startBlockSource {deposit event : Option (Hash × Nat)} {start : Option MainHash}
    (ok : startBlockHash archive deposit event = .ok start) :
    (start = none ∧ deposit = none ∧ event = none) ∨
      ∃ applied, start = some applied.1 ∧ (deposit = some applied ∨ event = some applied) := by
  cases deposit with
  | none =>
      cases event with
      | none =>
          cases ok
          exact .inl ⟨rfl,rfl,rfl⟩
      | some event =>
          cases ok
          exact .inr ⟨event,rfl,.inr rfl⟩
  | some deposit =>
      cases event with
      | none =>
          cases ok
          exact .inr ⟨deposit,rfl,.inl rfl⟩
      | some event =>
          have either : start = some deposit.1 ∨ start = some event.1 := by
            unfold startBlockHash at ok
            dsimp only at ok
            split at ok
            · cases ok
              exact .inr rfl
            · split at ok
              · cases ok
                exact .inl rfl
              · simp only [bindOk] at ok
                obtain ⟨isEvent,_,ok⟩ := ok
                split at ok
                · cases ok
                  exact .inr rfl
                · simp only [bindOk,pureOk] at ok
                  obtain ⟨_,_,_,_,same⟩ := ok
                  cases same
                  exact .inl rfl
          rcases either with rfl | rfl
          · exact .inr ⟨deposit,rfl,.inl rfl⟩
          · exact .inr ⟨event,rfl,.inr rfl⟩

theorem startBlockFrom {deposit event : Option (Hash × Nat)} {m : MainHash}
    (ok : startBlockHash archive deposit event = .ok (some m)) :
    ∃ applied, applied.1 = m ∧ (deposit = some applied ∨ event = some applied) := by
  rcases startBlockSource ok with ⟨none,_⟩ | ⟨applied,same,isApplied⟩
  · cases none
  · exact ⟨applied,(Option.some.inj same).symm,isApplied⟩

theorem heightMinusOne {n : Nat} : heightMinus (n + 1) 1 = n % heightSpace := by
  unfold heightMinus
  have shift : n + 1 + heightSpace - 1 = n + heightSpace := by omega
  rw [shift,Nat.add_mod_right]

variable {line : List MainHash}

def hasEvents (world : World) (m : MainHash) : Bool := !(world.mainInfo m).events.isEmpty

variable {own : List MainHash} {event : Hash × BlockEvent}

theorem dealtEvent (isData : data.blockInfo = (own.map (eventsOf world)).reverse) (mem : event ∈ data.events) :
    event.1 ∈ own ∧ hasEvents world event.1 = true := by
  obtain ⟨block,inside,isEvent⟩ := List.mem_flatMap.mp mem
  rw [isData,List.mem_reverse] at inside
  obtain ⟨m,isOwn,rfl⟩ := List.mem_map.mp inside
  obtain ⟨e,isOne,rfl⟩ := List.mem_map.mp isEvent
  refine ⟨isOwn,?_⟩
  rw [hasEvents,Bool.not_eq_true',List.isEmpty_eq_false_iff]
  exact List.ne_nil_of_mem isOne

theorem Given.dealt (given : Given world archive connected) (walk : Walk archive.mainNext (namedMain connected) line)
    (mem : c ∈ connected) (inside : event ∈ c.twoWayPegData.events) : event.1 ∈ line ∧ hasEvents world event.1 = true := by
  induction given generalizing line with
  | empty => cases mem
  | @next d rest own below earlier isBelow isLine isData ih =>
      rw [walk.unique isLine]
      rcases List.mem_cons.mp mem with rfl | later
      · obtain ⟨isOwn,some⟩ := dealtEvent isData inside
        exact ⟨List.mem_append_left below isOwn,some⟩
      · obtain ⟨earlier,some⟩ := ih isBelow later
        exact ⟨List.mem_append_right own earlier,some⟩

def NamesBlock (kind : Hash × BlockEvent → Option Hash) : Prop := ∀ {event x}, kind event = some x → event.1 = x

theorem depositNames : NamesBlock depositBlock := by
  intro event x isKind
  unfold depositBlock at isKind
  split at isKind
  · exact Option.some.inj isKind
  · cases isKind

theorem reportNames : NamesBlock reportBlock := by
  intro event x isKind
  unfold reportBlock at isKind
  split at isKind
  · cases isKind
  · exact Option.some.inj isKind

theorem Given.marked (given : Given world archive connected) (walk : Walk archive.mainNext (namedMain connected) line)
    (names : NamesBlock kind) {m : Hash × Nat} (mem : m ∈ marks kind connected) :
    m.1 ∈ line ∧ hasEvents world m.1 = true := by
  obtain ⟨c,inside,isLast⟩ := marksOf mem
  obtain ⟨event,isOne,isKind⟩ := lastOfSome isLast
  exact names isKind ▸ given.dealt walk inside isOne

def eventful (blocks : List (Hash × List BlockEvent)) : List (Hash × List BlockEvent) :=
  blocks.filter (fun block => block.2 ≠ [])

theorem eventfulEvents {blocks : List (Hash × List BlockEvent)} :
    TwoWayPegData.events ⟨eventful blocks⟩ = TwoWayPegData.events ⟨blocks⟩ := by
  simp only [TwoWayPegData.events]
  induction blocks with
  | nil => rfl
  | cons block blocks ih =>
      rw [eventful,List.filter_cons,List.flatMap_cons,← ih]
      by_cases none : block.2 = []
      · rw [if_neg (by simp [none]),none]
        rfl
      · rw [if_pos (by simp [none]),List.flatMap_cons]
        rfl

theorem someEventsAll (all : ∀ m ∈ own, blockEvents archive m = some (eventsOf world m)) :
    own.filterMap (someEvents archive) = eventful (own.map (eventsOf world)) := by
  induction own with
  | nil => rfl
  | cons m own ih =>
      have rest := ih (fun n mem => all n (List.mem_cons_of_mem m mem))
      rw [List.map_cons,eventful,List.filter_cons,List.filterMap_cons,someEvents,all m List.mem_cons_self,
        Option.filter_some,rest]
      by_cases none : (eventsOf world m).2 = []
      · rw [if_neg (by simp [none]),if_neg (by simp [none])]
        rfl
      · rw [if_pos (by simp [none]),if_pos (by simp [none])]
        rfl

theorem tipBlocks (fed : Fed lib world db) {header : Header} {p : MainHash} (isNamed : header.prevMainHash = p)
    (walk : Walk db.archive.mainNext (some p) line) :
    tipTwoWayPegData db header height =
      (startBlockHash db.archive (lastAppliedBelow db.state.depositBlocks (heightMinus height 1))
        (lastAppliedBelow db.state.withdrawalBundleEventBlocks (heightMinus height 1))).map
      (fun start => ⟨(eventful ((line.takeWhile (fun m => !decide (some m = start))).map (eventsOf world))).reverse⟩) := by
  subst isNamed
  have nonZero : mainBlock header.prevMainHash = some header.prevMainHash := by
    cases walk with
    | step isNext _ =>
        obtain ⟨info,stored,_⟩ := mainNextOk.mp isNext
        obtain ⟨⟨_,nonZero⟩,same⟩ := fed.trees.main.named stored
        exact mainBlockSome.mpr ⟨same ▸ nonZero,rfl⟩
  unfold tipTwoWayPegData
  dsimp only
  cases startBlockHash db.archive (lastAppliedBelow db.state.depositBlocks (heightMinus height 1))
      (lastAppliedBelow db.state.withdrawalBundleEventBlocks (heightMinus height 1)) with
  | error err => rfl
  | ok start =>
      have kept := fed.trees.main.ancestorsKept (nonZero ▸ walk) (fun m => decide (some m = start)) (someEvents db.archive)
      have dealt : (line.takeWhile (fun m => !decide (some m = start))).filterMap (someEvents db.archive) =
          eventful ((line.takeWhile (fun m => !decide (some m = start))).map (eventsOf world)) :=
        someEventsAll (fun m mem => walkEvents fed.trees.infos fed.complete walk (List.takeWhile_subset _ mem))
      rw [okBind,kept,dealt]
      rfl

theorem takeWhilePass {own rest : List MainHash} {start : Option MainHash} (distinct : (own ++ rest).Nodup)
    (stops : ∀ m, start = some m → m ∈ rest) :
    (own ++ rest).takeWhile (fun m => !decide (some m = start)) =
      own ++ rest.takeWhile (fun m => !decide (some m = start)) := by
  refine List.takeWhile_append_of_pos (fun m isOwn => ?_)
  rw [Bool.not_eq_true',decide_eq_false_iff_not]
  intro same
  exact (List.nodup_append.mp distinct).2.2 m isOwn m (stops m same.symm) rfl

theorem Fed.rebuilds (fed : Fed lib world db)
    (deposits : Sequenced (marks depositBlock db.connected) db.state.depositBlocks)
    (reports : Sequenced (marks reportBlock db.connected) db.state.withdrawalBundleEventBlocks)
    (isTop : db.connected = c :: below) (higher : below ≠ []) (ok : tipTwoWayPegData db c.header below.length = .ok data) :
    c.twoWayPegData.events <:+ data.events := by
  have given := fed.given
  rw [isTop] at given deposits reports
  cases given with
  | @next _ _ own belowLine earlier isBelow isLine isData =>
      have marked {kind : Hash × BlockEvent → Option Hash} {table : Table UInt32 (Hash × Nat)} {applied : Hash × Nat}
          (names : NamesBlock kind) (sequenced : Sequenced (marks kind (c :: below)) table)
          (isLast : lastAppliedBelow table (heightMinus below.length 1) = some applied) : applied.1 ∈ belowLine := by
        obtain ⟨⟨k,found⟩,bound⟩ := lastAppliedFrom isLast
        obtain ⟨n,length⟩ := Nat.exists_eq_succ_of_ne_zero (mt List.length_eq_zero_iff.mp higher)
        rw [length,heightMinusOne] at bound
        rw [sequenced] at found
        have low : applied.2 < below.length := length ▸ Nat.lt_succ_of_lt (Nat.lt_of_lt_of_le bound (Nat.mod_le n _))
        exact (earlier.marked isBelow names (marksBelow (seqAtMem found) low)).1
      rw [tipBlocks fed rfl isLine,mapOk] at ok
      obtain ⟨start,isStart,rfl⟩ := ok
      have stops (m : MainHash) (isOne : start = some m) : m ∈ belowLine := by
        obtain ⟨applied,rfl,isApplied⟩ := startBlockFrom (isOne ▸ isStart)
        rcases isApplied with isDeposit | isReport
        · exact marked depositNames deposits isDeposit
        · exact marked reportNames reports isReport
      have splits (first second : List (Hash × List BlockEvent)) : TwoWayPegData.events ⟨first ++ second⟩ =
          TwoWayPegData.events ⟨first⟩ ++ TwoWayPegData.events ⟨second⟩ := List.flatMap_append
      have own_ : c.twoWayPegData = ⟨(own.map (eventsOf world)).reverse⟩ := congrArg TwoWayPegData.mk isData
      rw [takeWhilePass isLine.nodup stops,List.map_append,eventful,← List.filter_reverse,List.reverse_append,← eventful,
        eventfulEvents,splits,own_]
      exact List.suffix_append ..

end Rebuilt

section Bundles

/- The bundle tables of a node whose blocks have reported to them: some of what is on record may be gone. -/
inductive Booked : List Connected → BundleBook → Prop
  | empty {book : BundleBook} (seen : ∀ m6id, book.seen m6id = none) (failures : book.failures = [])
      (pending : book.pending = none) : Booked [] book
  | next {block : Connected} {rest : List Connected} {start after posted book : BundleBook} (earlier : Booked rest start)
      (reports : BundleBook.ReportsAll rest.length (block.twoWayPegData.events.map (·.2)) start after)
      (isPosted : BundleBook.Posted rest.length after posted) (quiet : block.effects = false → posted.Keeps start)
      (keeps : book.Keeps posted) : Booked (block :: rest) book

variable {book : BundleBook}

theorem Booked.keep {kept : BundleBook} (booked : Booked connected book) (keeps : kept.Keeps book) : Booked connected kept := by
  cases booked with
  | empty seen failures pending =>
      refine .empty (fun m => ?_) (keeps.failures.trans failures) ?_
      · exact (keeps.seen m).elim id (fun same => same.trans (seen m))
      · exact keeps.pending.elim id (fun same => same.trans pending)
  | next earlier reports isPosted quiet already => exact .next earlier reports isPosted quiet (keeps.trans already)

theorem Booked.lower (booked : Booked connected book) : book.Below connected.length := by
  induction booked with
  | empty seen failures pending =>
      refine ⟨fun found => ?_,fun x mem => ?_,fun found => ?_⟩
      · cases (seen _).symm.trans found
      · rw [failures] at mem
        cases mem
      · cases pending.symm.trans found
  | next earlier reports isPosted quiet keeps ih => exact keeps.below (isPosted.below ((ih.ahead.reports reports).below ih))

theorem Booked.takenBack {middle last : BundleBook} (booked : Booked (c :: below) book)
    (whole : c.twoWayPegData.events <:+ data.events)
    (back : BundleBook.TakesBackAll below.length (data.events.map (·.2)) book middle)
    (drops : BundleBook.Dropped below.length middle last) : Booked below last := by
  obtain ⟨others,isEvents⟩ := whole
  rw [← isEvents,List.map_append] at back
  cases booked with
  | next earlier reports isPosted quiet keeps =>
      exact earlier.keep (BundleBook.takenBack earlier.lower reports isPosted keeps back drops)

theorem Booked.quiet (booked : Booked (c :: below) book) (none : c.effects = false) : Booked below book := by
  cases booked with
  | next earlier reports isPosted quiet keeps => exact earlier.keep (keeps.trans (quiet none))

end Bundles

section Quiet

variable {ctxt : BatchVerificationContext} {header : Header} {body : Body} {s s' : State F} {rpc : RpcReplies}

theorem nothingCollected {utxos : Table OutPoint Output}
    (noWithdrawal : utxos.entries.any (fun utxo => utxo.2.content.isWithdrawal) = false) :
    collectWithdrawalBundle lib utxos height = .ok none := by
  have idle : utxos.entries.foldlM aggregateWithdrawal [] = .ok [] := by
    refine foldIdle (fun utxo mem => ?_)
    have other := List.any_eq_false.mp noWithdrawal utxo mem
    unfold aggregateWithdrawal
    split
    · next isWithdrawal =>
        rw [isWithdrawal] at other
        exact absurd rfl other
    · rfl
  rw [collectWithdrawalBundle,idle]
  rfl

theorem pendingStays {t : PegTables} {utxos : Table OutPoint Output} {pending : Option (WithdrawalBundle × Nat)}
    (quiet : collectsBundle t utxos height = false) (ok : collectPending lib t utxos height = .ok pending) :
    pending = t.pendingWithdrawalBundle := by
  simp only [collectPending,bindOk] at ok
  obtain ⟨failed,isFailed,_,_,ok⟩ := ok
  split at ok
  · next due =>
      have noWithdrawal : utxos.entries.any (fun utxo => utxo.2.content.isWithdrawal) = false := by
        simpa [collectsBundle,isFailed,due,Except.toOption] using quiet
      rw [nothingCollected noWithdrawal] at ok
      cases ok
      exact (Option.isNone_iff_eq_none.mp due.2).symm
  · cases ok
    rfl

theorem quietPegs (ok : connectTwoWayPegData lib s data rpc = .ok s') (atHeight : s.height = some height)
    (quiet : leavesEffects s data = false) : SameMarkTables s s' ∧ s'.book.Keeps s.book := by
  simp only [leavesEffects,atHeight,Option.getD_some,Bool.or_eq_false_iff,Bool.not_eq_false',List.isEmpty_iff] at quiet
  obtain ⟨⟨noEvents,noExpiry⟩,noBundle⟩ := quiet
  have marks := marksConnected ok atHeight
  obtain ⟨_,progress,source⟩ := pegConnectSource ok
  cases atHeight.symm.trans source.atHeight
  have events := source.events
  rw [noEvents] at events
  cases foldNilOk.mp events
  refine ⟨⟨?_,?_,?_,?_⟩,fun m => .inr (congrFun (bookSeen source.bundles) m),
    congrArg (fun failures : Option (RollBack M6id) => (failures.map RollBack.toList).getD []) source.failures,
    .inr (pendingStays noBundle source.pending)⟩
  · rw [marks.deposits,lastOfQuiet noEvents]
    rfl
  · rw [marks.reports,lastOfQuiet noEvents]
    rfl
  · rcases marks.expiries with same | ⟨expires,_⟩
    · exact same
    · exact absurd expires (Bool.eq_false_iff.mp noExpiry)
  · rcases marks.index with same | ⟨some,_⟩
    · exact same
    · exact absurd noEvents some

end Quiet

section Recorded

variable {ctxt : BatchVerificationContext} {prove : F → List Hash → Except Text UtreexoProof} {header : Header} {body : Body}

structure EffectsBelow (s : State F) (n : Nat) : Prop where
  deposits : ∀ {k v}, s.depositBlocks.tryGet k = some v → v.2 < n
  reports : ∀ {k v}, s.withdrawalBundleEventBlocks.tryGet k = some v → v.2 < n
  expiries : ∀ {h v}, s.expiredSwaps.tryGet h = some v → h < n
  index : ∀ {h v}, s.blockIndexEvents.tryGet h = some v → h < n
  bundles : s.book.Below n

def LeftAt (connected : List Connected) (height : Nat) : Prop := ∃ c, ConnectedAt connected height c ∧ c.effects = true

theorem LeftAt.grow (left : LeftAt below height) : LeftAt (c :: below) height := by
  obtain ⟨d,at_,effects⟩ := left
  exact ⟨d,at_.grow,effects⟩

theorem LeftAt.low (left : LeftAt connected height) : height < connected.length := by
  obtain ⟨d,at_,_⟩ := left
  exact at_.low

structure Numbered (lib : Externals F) (world : World) (db : Db F) : Prop extends Fed lib world db where
  deposits : Sequenced (marks depositBlock db.connected) db.state.depositBlocks
  reports : Sequenced (marks reportBlock db.connected) db.state.withdrawalBundleEventBlocks

structure Recorded (lib : Externals F) (world : World) (db : Db F) : Prop extends Numbered lib world db where
  expiries : ∀ {h v}, db.state.expiredSwaps.tryGet h = some v → LeftAt db.connected h
  index : ∀ {h v}, db.state.blockIndexEvents.tryGet h = some v → LeftAt db.connected h
  bundles : Booked db.connected db.state.book
  quiet : ∀ c ∈ db.connected, c.effects = false → c.twoWayPegData.events = []

theorem sequencedLow (sequenced : Sequenced (marks kind connected) table) {k : UInt32} {v : Hash × Nat}
    (found : table.tryGet k = some v) : v.2 < connected.length := by
  rw [sequenced] at found
  exact marksLow (seqAtMem found)

theorem Recorded.effects (recorded : Recorded lib world db) : EffectsBelow db.state db.connected.length :=
  ⟨sequencedLow recorded.deposits,sequencedLow recorded.reports,fun found => (recorded.expiries found).low,
    fun found => (recorded.index found).low,recorded.bundles.lower⟩

theorem PutAt.left {V : Type} {reason : Prop} {table table' : Table Nat V} (put : PutAt reason table below.length table')
    (caused : reason → c.effects = true) (earlier : ∀ {h v}, table.tryGet h = some v → LeftAt below h) {h : Nat} {v : V}
    (found : table'.tryGet h = some v) : LeftAt (c :: below) h := by
  rcases put with rfl | ⟨cause,w,rfl⟩
  · exact (earlier found).grow
  · rw [Table.tryGetPut] at found
    split at found
    · next here => exact ⟨c,⟨below,List.suffix_rfl,here.symm⟩,caused cause⟩
    · exact (earlier found).grow

theorem bookSame {s s' : State F} (pegs : s'.toPegTables = s.toPegTables) : s'.book = s.book :=
  congrArg PegTables.book pegs

theorem Numbered.connect {replies : RpcReplies} (numbered : Numbered lib world db) (fed : Fed lib world db')
    (source : ConnectTipSource lib ctxt db header body data replies db') : Numbered lib world db' := by
  obtain ⟨middle,connected,pegs⟩ := source.state
  have block := connectBlockMarks connected
  obtain ⟨pre,isBlock⟩ := connectBlockSource connected
  have marks := marksConnected pegs (isBlock.connected.height.trans (congrArg some numbered.height))
  refine ⟨fed,?_,?_⟩
  · rw [source.connected,marks.deposits,block.deposits]
    exact sequencedConnect numbered.deposits
  · rw [source.connected,marks.reports,block.reports]
    exact sequencedConnect numbered.reports

theorem Recorded.connect {replies : RpcReplies} (recorded : Recorded lib world db) (fed : Fed lib world db')
    (source : ConnectTipSource lib ctxt db header body data replies db') : Recorded lib world db' := by
  obtain ⟨middle,connected,pegs⟩ := source.state
  have block := connectBlockMarks connected
  obtain ⟨pre,isBlock⟩ := connectBlockSource connected
  have atHeight := isBlock.connected.height.trans (congrArg some recorded.height)
  have marks := marksConnected pegs atHeight
  obtain ⟨height,progress,peg⟩ := pegConnectSource pegs
  cases atHeight.symm.trans peg.atHeight
  have left : effectsLeft lib ctxt db header body data = leavesEffects middle data := by rw [effectsLeft,connected]
  have expires (due : middle.loadAllSwaps.any (fun swap => swap.expiresAt db.connected.length) = true) :
      leavesEffects middle data = true := by
    simp only [leavesEffects,atHeight,Option.getD_some,due,Bool.or_true,Bool.true_or]
  have happens (some : data.events ≠ []) : leavesEffects middle data = true := by
    simp [leavesEffects,some]
  refine ⟨recorded.toNumbered.connect fed source,fun found => ?_,fun found => ?_,?_,?_⟩
  · rw [source.connected]
    exact PutAt.left marks.expiries (fun due => left.trans (expires due))
      (fun earlier => recorded.expiries (block.expiries ▸ earlier)) found
  · rw [source.connected]
    exact PutAt.left marks.index (fun some => left.trans (happens some))
      (fun earlier => recorded.index (block.index ▸ earlier)) found
  · rw [source.connected]
    have booked := recorded.bundles
    rw [← bookSame isBlock.connected.pegs] at booked
    refine .next booked peg.book.1 peg.book.2 (fun none => ?_) ?_
    · exact (quietPegs pegs atHeight (left.symm.trans none)).2
    · exact ⟨fun _ => .inr rfl,rfl,.inr rfl⟩
  · rw [source.connected]
    intro c mem none
    rcases List.mem_cons.mp mem with rfl | earlier
    · by_contra some
      cases (left.symm.trans none).symm.trans (happens some)
    · exact recorded.quiet c earlier none

theorem LeftAt.lower (left : LeftAt (c :: below) height) (other : c.effects = true → height ≠ below.length) :
    LeftAt below height := by
  obtain ⟨d,at_,effects⟩ := left
  rcases at_.top with ⟨here,rfl⟩ | at_
  · exact absurd here (other effects)
  · exact ⟨d,at_,effects⟩

theorem Numbered.whole (numbered : Numbered lib world db) (quiet : FirstQuiet db.connected)
    (isTop : db.connected = c :: below) (isData : tipTwoWayPegData db c.header below.length = .ok data) : c.twoWayPegData.events <:+ data.events := by
  by_cases first : below = []
  · rw [quiet c (first ▸ isTop)]
    exact List.nil_suffix
  · exact numbered.toFed.rebuilds numbered.deposits numbered.reports isTop first isData

theorem disconnectedMarks {s s' : State F} {accumulator : Option F} {last : State F}
    (block : disconnectTip lib s header body = .ok last) (isState : s' = { last with utreexoAccumulator := accumulator }) :
    SameMarkTables s s' := by
  obtain ⟨deposits,reports,expiries,index⟩ := disconnectBlockMarks block
  rw [isState]
  exact ⟨deposits,reports,expiries,index⟩

theorem Numbered.disconnect (numbered : Numbered lib world db) (quiet : FirstQuiet db.connected)
    (done : disconnectTip_ lib prove db = .ok db') : Numbered lib world db' := by
  obtain ⟨c,below,body,isTop,isBelow,source,fed⟩ := numbered.toFed.disconnect done
  obtain ⟨height,data,middle,last,accumulator,isHeight,isData,pegs,block,_,isState⟩ := source.state
  cases isHeight.symm.trans (numbered.toActive.tipStored isTop).2.2
  have marks := marksDisconnected pegs isHeight
  have same := disconnectedMarks block isState
  have whole := numbered.whole quiet isTop isData
  have deposits := numbered.deposits
  have reports := numbered.reports
  rw [isTop] at deposits reports
  refine ⟨fed,?_,?_⟩
  · rw [isBelow,same.deposits]
    exact sequencedDisconnect deposits (lastOfWhole whole) marks.deposits
  · rw [isBelow,same.reports]
    exact sequencedDisconnect reports (lastOfWhole whole) marks.reports

theorem Recorded.disconnect (recorded : Recorded lib world db) (quiet : FirstQuiet db.connected)
    (done : disconnectTip_ lib prove db = .ok db') : Recorded lib world db' := by
  obtain ⟨c,below,body,isTop,isBelow,source,_⟩ := recorded.toFed.disconnect done
  obtain ⟨height,data,middle,last,accumulator,isHeight,isData,pegs,block,_,isState⟩ := source.state
  cases isHeight.symm.trans (recorded.toActive.tipStored isTop).2.2
  have marks := marksDisconnected pegs isHeight
  obtain ⟨_,progress,peg⟩ := pegDisconnectSource pegs
  cases isHeight.symm.trans peg.atHeight
  have same := disconnectedMarks block isState
  have booked := recorded.bundles
  rw [isTop] at booked
  refine ⟨recorded.toNumbered.disconnect quiet done,fun {h v} found => ?_,fun {h v} found => ?_,?_,fun d mem => ?_⟩
  · rw [same.expiries,marks.expiries] at found
    split at found
    · cases found
    · next other =>
        have left := recorded.expiries found
        rw [isTop] at left
        exact isBelow ▸ left.lower (fun _ => other)
  · rw [same.index,marks.index] at found
    split at found
    · cases found
    · next other =>
        have left := recorded.index found
        rw [isTop] at left
        exact isBelow ▸ left.lower (fun _ => other)
  · have isBook : db'.state.book = middle.book := by
      rw [isState]
      exact bookSame (disconnectSource block).pegs
    rw [isBelow,isBook]
    exact booked.takenBack (recorded.whole quiet isTop isData) peg.book.1 peg.book.2
  · rw [isBelow] at mem
    exact recorded.quiet d (isTop ▸ List.mem_cons_of_mem c mem)

end Recorded

end Coinshift.NetTask
