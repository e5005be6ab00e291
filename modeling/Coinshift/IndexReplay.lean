import Coinshift.AccumulatorMirror

/-! An address index that replays blocks.
It takes the body of each block and the events recorded at its height, and keeps the unspent outputs that
result. It has the node's own set as long as no event moves coins without leaving a record. -/
namespace Coinshift
open Checked

variable {F : Type} {lib : Externals F} {ctxt : BatchVerificationContext}

section Replay

abbrev Utxos := Table OutPoint Output

def State.getBlockIndexEvents (s : State F) (height : Nat) : BlockIndexEvents :=
  (s.blockIndexEvents.tryGet height).getD ⟨[],[]⟩

def putPointed (utxos : Utxos) (p : PointedOutput) : Utxos := utxos.put p.outpoint p.output

def replayTransaction (lib : Externals F) (utxos : Utxos) (tx : Transaction) : Utxos :=
  (tx.createdOutputs lib).foldl putPointed ((tx.inputs.map (·.1)).foldl Table.delete utxos)

def replayBody (lib : Externals F) (utxos : Utxos) (block : Block) : Utxos :=
  block.2.transactions.foldl (replayTransaction lib)
    ((coinbaseOutputs block.1.merkleRoot block.2.coinbase).foldl putPointed utxos)

def putEntry (utxos : Utxos) (entry : OutPoint × Output) : Utxos := utxos.put entry.1 entry.2

def replayEvents (events : BlockIndexEvents) (utxos : Utxos) : Utxos :=
  (events.bundleSpends.map (·.1)).foldl Table.delete (events.deposits.foldl putEntry utxos)

/- The unspent outputs after a chain of blocks, oldest first, the first of them at height 0. -/
def replay (lib : Externals F) (events : Nat → BlockIndexEvents) (blocks : List Block) : Utxos :=
  blocks.zipIdx.foldl (fun utxos at_ => replayEvents (events at_.2) (replayBody lib utxos at_.1)) ∅

theorem replayConcat {events : Nat → BlockIndexEvents} {blocks : List Block} {block : Block} :
    replay lib events (blocks ++ [block]) =
      replayEvents (events blocks.length) (replayBody lib (replay lib events blocks) block) := by
  simp [replay,List.zipIdx_append]

theorem replayCongr {events events' : Nat → BlockIndexEvents} {blocks : List Block}
    (same : ∀ height < blocks.length, events height = events' height) :
    replay lib events blocks = replay lib events' blocks := by
  induction blocks using List.reverseRecOn with
  | nil => rfl
  | append_singleton blocks block ih =>
      rw [List.length_append,List.length_singleton] at same
      rw [replayConcat,replayConcat,ih (fun height below => same height (by omega)),same blocks.length (by omega)]

variable {utxos : Utxos} {deposits : List (OutPoint × Output)} {spends : List (OutPoint × M6id)}

theorem replaySpends {more : List (OutPoint × M6id)} :
    replayEvents ⟨deposits,spends ++ more⟩ utxos =
      (more.map (·.1)).foldl Table.delete (replayEvents ⟨deposits,spends⟩ utxos) := by
  rw [replayEvents,List.map_append,List.foldl_append]
  rfl

/- A deposit may be replayed before the spends as long as none of them is at its outpoint. -/
theorem replayDeposit {entry : OutPoint × Output} (apart : entry.1 ∉ spends.map (·.1)) :
    replayEvents ⟨deposits ++ [entry],spends⟩ utxos = (replayEvents ⟨deposits,spends⟩ utxos).put entry.1 entry.2 := by
  refine Table.ext (fun o => ?_)
  rw [replayEvents,List.foldl_append,List.foldl_cons,List.foldl_nil,putEntry,Table.tryGetDeletes,Table.tryGetPut,
    Table.tryGetPut,replayEvents,Table.tryGetDeletes]
  by_cases own : o = entry.1
  · simp [own,apart]
  · simp [own]

end Replay

section Bodies

variable {l l' : Ledger} {header : Header} {body : Body}

theorem putOutputsUtxos {ps : List PointedOutput} :
    (ps.foldl Ledger.putOutput l).utxos = ps.foldl putPointed l.utxos := by
  induction ps generalizing l with
  | nil => rfl
  | cons p ps ih => exact ih

theorem connectLedgerUtxos {tx : Transaction} (ok : connectLedger lib l tx = .ok l') :
    l'.utxos = replayTransaction lib l.utxos tx := by
  simp only [connectLedger,bindOk,pureOk] at ok
  obtain ⟨spent,folded,rfl⟩ := ok
  have deleted : spent.utxos = tx.inputs.zipIdx.foldl (fun utxos input => utxos.delete input.1.1) l.utxos := by
    refine foldView Ledger.utxos ?_ folded
    intro l input l' spend
    simp only [Ledger.spend,bindOk,pureOk] at spend
    obtain ⟨_,_,rfl⟩ := spend
    rfl
  have keys : tx.inputs.map (·.1) = tx.inputs.zipIdx.map (·.1.1) := by
    have firsts := congrArg (List.map Prod.fst) (List.zipIdx_map_fst 0 tx.inputs)
    rw [List.map_map] at firsts
    exact firsts.symm
  rw [putOutputsUtxos,deleted,replayTransaction,keys,List.foldl_map]

theorem connectCoinsUtxos (ok : connectCoins lib header body l = .ok l') :
    l'.utxos = replayBody lib l.utxos (header,body) := by
  rw [replayBody,← putOutputsUtxos]
  exact foldView Ledger.utxos (fun _ _ _ connected => connectLedgerUtxos connected) ok

end Bodies

section Events

variable {height : Nat} {p p' : PegProgress} {utxos : Utxos} {table : Table Nat BlockIndexEvents} {hash : Hash}
  {m6id : M6id}

structure LeavesRecord (height : Nat) (p : PegProgress) (event : BlockEvent) : Prop where
  failure : ∀ m6id bundle history, event = .withdrawalBundle ⟨m6id,.failed⟩ →
    p.withdrawalBundles.tryGet m6id = some (.known bundle,history) → history.latest.value = .submitted →
    bundle.spendUtxos = []
  genesis : ∀ m6id info history, event = .withdrawalBundle ⟨m6id,.confirmed⟩ → height = 0 →
    p.withdrawalBundles.tryGet m6id = some (info,history) → (∀ bundle, info ≠ .known bundle) →
    history.latest.value = .submitted → p.utxos = ∅
  deposit : ∀ d, event = .deposit d → OutPoint.deposit d.txid d.vout ∉ p.indexEvents.bundleSpends.map (·.1)

structure IndexFollows (utxos : Utxos) (table : Table Nat BlockIndexEvents) (p : PegProgress) : Prop where
  replayed : p.utxos = replayEvents p.indexEvents utxos
  table : p.blockIndexEvents = table

theorem submittedFollows (holds : IndexFollows utxos table p)
    (ok : connectWithdrawalBundleSubmitted lib height p m6id = .ok p') : IndexFollows utxos table p' := by
  unfold connectWithdrawalBundleSubmitted at ok
  split at ok
  · next bundle collectedAt found =>
      simp only [bindOk,ensureOk,pureOk] at ok
      obtain ⟨_,_,rfl⟩ := ok
      rw [spendsProgress]
      refine ⟨?_,holds.table⟩
      have spent := @spendsUtxos bundle.spendUtxos m6id p.toLedger
      rw [holds.replayed] at spent
      have keys : (bundle.spendUtxos.map (fun u => (u.1,m6id))).map (·.1) = bundle.spendUtxos.map (·.1) := by
        rw [List.map_map]
        rfl
      rw [replaySpends,keys]
      exact spent
  · split at ok
    · simp only [bindOk,ensureOk,pureOk] at ok
      obtain ⟨_,_,rfl⟩ := ok
      exact holds
    · rw [pureOk] at ok
      subst ok
      exact ⟨holds.replayed,holds.table⟩

theorem confirmedFollows (holds : IndexFollows utxos table p)
    (recorded : LeavesRecord height p (.withdrawalBundle ⟨m6id,.confirmed⟩))
    (ok : connectWithdrawalBundleConfirmed lib height p hash m6id = .ok p') : IndexFollows utxos table p' := by
  simp only [connectWithdrawalBundleConfirmed,bindOk,okOrOk] at ok
  obtain ⟨⟨info,history⟩,found,ok⟩ := ok
  split at ok
  · rw [pureOk] at ok
    exact ok ▸ holds
  · simp only [bindOk,ensureOk] at ok
    obtain ⟨_,live,ok⟩ := ok
    split at ok
    · simp only [bindOk,okOrOk,pureOk] at ok
      obtain ⟨_,rfl,_,_,rfl⟩ := ok
      exact ⟨holds.replayed,holds.table⟩
    · next unknown =>
        simp only [bindOk,ensureOk,okOrOk,pureOk] at ok
        obtain ⟨_,genesis,_,rfl,_,_,rfl⟩ := ok
        have empty := recorded.genesis m6id info history rfl genesis found unknown live
        rw [spendAllProgress]
        refine ⟨?_,holds.table⟩
        have replayed := holds.replayed
        rw [empty] at replayed
        exact spendsAllUtxos.trans replayed

theorem failedFollows (holds : IndexFollows utxos table p)
    (recorded : LeavesRecord height p (.withdrawalBundle ⟨m6id,.failed⟩))
    (ok : connectWithdrawalBundleFailed lib height p m6id = .ok p') : IndexFollows utxos table p' := by
  simp only [connectWithdrawalBundleFailed,bindOk,okOrOk] at ok
  obtain ⟨⟨info,history⟩,found,ok⟩ := ok
  split at ok
  · rw [pureOk] at ok
    exact ok ▸ holds
  · simp only [bindOk,ensureOk,okOrOk] at ok
    obtain ⟨_,live,_,_,ok⟩ := ok
    split at ok
    · next bundle _ =>
        have nothing := recorded.failure m6id bundle history rfl found live
        simp only [nothing,List.foldl_nil,bindOk,pureOk] at ok
        obtain ⟨_,_,_,rfl,rfl⟩ := ok
        exact ⟨holds.replayed,holds.table⟩
    · simp only [bindOk,pureOk] at ok
      obtain ⟨_,rfl,rfl⟩ := ok
      exact ⟨holds.replayed,holds.table⟩

theorem eventFollows {event : Hash × BlockEvent} (holds : IndexFollows utxos table p) (recorded : LeavesRecord height p event.2)
    (ok : connectEvent lib height p event = .ok p') : IndexFollows utxos table p' := by
  obtain ⟨hash,event⟩ := event
  cases event with
  | deposit d =>
      rw [connectEvent,pureOk] at ok
      subst ok
      refine ⟨?_,holds.table⟩
      have deposited := @replayDeposit utxos p.indexEvents.deposits _ (OutPoint.deposit d.txid d.vout,d.output)
        (recorded.deposit d rfl)
      exact (congrArg (fun t : Utxos => t.put (.deposit d.txid d.vout) d.output) holds.replayed).trans deposited.symm
  | withdrawalBundle report =>
      simp only [connectEvent,bindOk,pureOk] at ok
      obtain ⟨middle,ok,rfl⟩ := ok
      obtain ⟨m6id,status⟩ := report
      have follows : IndexFollows utxos table middle := by
        cases status with
        | submitted => exact submittedFollows holds ok
        | confirmed => exact confirmedFollows holds recorded ok
        | failed => exact failedFollows holds recorded ok
      exact ⟨follows.replayed,follows.table⟩

end Events

section Runs

variable {s t : State F} {steps : List (Step F)} {header : Header} {body : Body} {data : TwoWayPegData}
  {rpc : RpcReplies} {done : List Block}

/- The blocks of a forward run, each connected together with its peg data, as a node does in one transaction. -/
def forwardBlocks : List (Step F) → Option (List Block)
  | [] => some []
  | .localOp _ :: rest => forwardBlocks rest
  | .connect header body :: .connectPeg _ _ :: rest => (forwardBlocks rest).map ((header,body) :: ·)
  | _ => none

structure Replayed (lib : Externals F) (s : State F) (done : List Block) : Prop where
  utxos : s.utxos = replay lib s.getBlockIndexEvents done
  next : s.nextHeight = done.length
  unrecorded : ∀ height, done.length ≤ height → s.blockIndexEvents.tryGet height = none

theorem newReplayed : Replayed lib (State.new F) [] := ⟨rfl,rfl,fun _ _ => Table.tryGetEmpty⟩

theorem indexEventsPut {height other : Nat} {events : BlockIndexEvents}
    (table : t.blockIndexEvents = s.blockIndexEvents.put height events) :
    t.getBlockIndexEvents other = if other = height then events else s.getBlockIndexEvents other := by
  rw [State.getBlockIndexEvents,table,Table.tryGetPut]
  split
  · rfl
  · rfl

theorem connectPegTable (ok : connectTwoWayPegData lib s data rpc = .ok t) :
    ∃ height progress, PegConnectSource lib s data t height progress ∧
      ((progress.indexEvents = ⟨[],[]⟩ ∧ t.blockIndexEvents = progress.blockIndexEvents) ∨
        t.blockIndexEvents = progress.blockIndexEvents.put height progress.indexEvents) := by
  simp only [connectTwoWayPegData,bindOk,okOrOk,pureOk] at ok
  obtain ⟨height,heightIs,progress,events,_,_,pending,collected,accumulator,applied,rfl⟩ := ok
  refine ⟨height,progress,⟨heightIs,events,rfl,rfl,rfl,collected,accumulator,applied,rfl⟩,?_⟩
  simp only [Bool.and_eq_true,List.isEmpty_iff]
  split
  · next empty =>
      refine .inl ⟨?_,rfl⟩
      cases index : progress.indexEvents with
      | mk deposits spends =>
          rw [index] at empty
          obtain ⟨rfl,rfl⟩ := empty
          rfl
  · exact .inr rfl

theorem Replayed.block {middle : State F} (holds : Replayed lib s done)
    (connected : connectBlock lib ctxt s header body = .ok middle)
    (pegged : connectTwoWayPegData lib middle data rpc = .ok t)
    (recorded : ∀ before event after p height, data.events = before ++ event :: after → middle.height = some height →
      before.foldlM (connectEvent lib height) (PegProgress.start middle) = .ok p → LeavesRecord height p event.2) :
    Replayed lib t (done ++ [(header,body)]) := by
  obtain ⟨pre,source⟩ := connectBlockSource connected
  obtain ⟨height,progress,peg,table⟩ := connectPegTable pegged
  have atHeight : height = done.length := by
    have same := source.connected.height.symm.trans peg.atHeight
    exact (Option.some.inj same).symm.trans holds.next
  subst atHeight
  have moved := connectCoinsUtxos source.connected.coins
  have pegTables : middle.blockIndexEvents = s.blockIndexEvents :=
    congrArg PegTables.blockIndexEvents source.connected.pegs
  have follows : IndexFollows middle.utxos s.blockIndexEvents progress := by
    refine foldHistory (P := fun _ p => IndexFollows middle.utxos s.blockIndexEvents p) ⟨rfl,pegTables⟩ ?_ peg.events
    intro before event after p p' split reached connected holds
    exact eventFollows holds (recorded before event after p _ split peg.atHeight reached) connected
  have utxos : t.utxos = replayEvents progress.indexEvents (replayBody lib s.utxos (header,body)) := by
    rw [← moved,← follows.replayed]
    exact congrArg Ledger.utxos peg.ledger
  have index (other : Nat) : t.getBlockIndexEvents other =
      if other = done.length then progress.indexEvents else s.getBlockIndexEvents other := by
    rcases table with ⟨nothing,same⟩ | put
    · rw [State.getBlockIndexEvents,same,follows.table]
      split
      · next own =>
          rw [own,holds.unrecorded _ le_rfl,nothing]
          rfl
      · rfl
    · rw [follows.table] at put
      exact indexEventsPut put
  refine ⟨?_,?_,?_⟩
  · have earlier : replay lib t.getBlockIndexEvents done = s.utxos := by
      rw [holds.utxos]
      exact replayCongr (fun below isBelow => by rw [index,if_neg (Nat.ne_of_lt isBelow)])
    rw [replayConcat,earlier,index,if_pos rfl,utxos]
  · have still := (connectPegSource pegged).height
    rw [State.nextHeight,still,peg.atHeight,List.length_append,List.length_singleton]
  · intro above isAbove
    rw [List.length_append,List.length_singleton] at isAbove
    have absent := holds.unrecorded above (by omega)
    rcases table with ⟨_,same⟩ | put
    · rw [same,follows.table,absent]
    · rw [put,follows.table,Table.tryGetPutOther (by omega),absent]

/- Every event of a run, when it comes, leaves a record of all it moves. -/
def EventsLeaveRecord (lib : Externals F) (ctxt : BatchVerificationContext) (steps : List (Step F)) : Prop :=
  ∀ p height event, TakesEvent lib ctxt steps p height event → LeavesRecord height p event.2

theorem Replayed.rest {steps rest earlier : List (Step F)} {more : List Block} (split : steps = earlier ++ rest)
    (recorded : EventsLeaveRecord lib ctxt steps) (blocks : forwardBlocks rest = some more)
    (reached : run lib ctxt earlier (State.new F) = .ok s) (holds : Replayed lib s done)
    (ok : run lib ctxt rest s = .ok t) : Replayed lib t (done ++ more) := by
  induction rest using forwardBlocks.induct generalizing s earlier done more with
  | case1 =>
      cases foldNilOk.mp ok
      cases blocks
      rw [List.append_nil]
      exact holds
  | case2 op rest ih =>
      obtain ⟨middle,applied,later⟩ := foldConsOk.mp ok
      have first := applied
      simp only [Step.apply,bindOk,pureOk] at applied
      obtain ⟨swaps,_,rfl⟩ := applied
      have isSplit : steps = earlier ++ [.localOp op] ++ rest := by
        rw [split,List.append_assoc,List.singleton_append]
      exact ih isSplit blocks (foldAppendOk.mpr ⟨s,reached,foldConsOk.mpr ⟨_,first,rfl⟩⟩)
        ⟨holds.utxos,holds.next,holds.unrecorded⟩ later
  | case3 header body data rpc rest ih =>
      obtain ⟨middle,connected,later⟩ := foldConsOk.mp ok
      obtain ⟨next,pegged,later⟩ := foldConsOk.mp later
      rw [forwardBlocks,Option.map_eq_some_iff] at blocks
      obtain ⟨tail,found,rfl⟩ := blocks
      have reachedMiddle : run lib ctxt (earlier ++ [.connect header body]) (State.new F) = .ok middle :=
        foldAppendOk.mpr ⟨s,reached,foldConsOk.mpr ⟨_,connected,rfl⟩⟩
      have reachedNext : run lib ctxt (earlier ++ [.connect header body] ++ [.connectPeg data rpc]) (State.new F) =
          .ok next := foldAppendOk.mpr ⟨middle,reachedMiddle,foldConsOk.mpr ⟨_,pegged,rfl⟩⟩
      have isSplit : steps = earlier ++ [.connect header body] ++ .connectPeg data rpc :: rest := by
        rw [split,List.append_assoc,List.singleton_append]
      have takes : Takes lib ctxt steps middle (.connectPeg data rpc) next rest := ⟨⟨_,isSplit,reachedMiddle⟩,pegged⟩
      have block := holds.block connected pegged (fun before event after p height isSplit atHeight folded =>
        recorded p height event ⟨middle,data,rpc,next,rest,before,after,takes,atHeight,isSplit,folded⟩)
      rw [List.append_cons] at isSplit
      have all := ih isSplit found reachedNext block later
      rwa [List.append_assoc,List.singleton_append] at all
  | case4 rest isNil notLocal notBlock =>
      rw [forwardBlocks] at blocks
      · cases blocks
      all_goals assumption

/- The replayed outputs are the node's own after every block, in every run whose events leave their records. -/
theorem indexReplaysUtxos {blocks : List Block} (isBlockwise : forwardBlocks steps = some blocks)
    (recorded : EventsLeaveRecord lib ctxt steps) (ok : run lib ctxt steps (State.new F) = .ok s) :
    s.utxos = replay lib s.getBlockIndexEvents blocks :=
  (@Replayed.rest _ _ _ _ _ _ steps steps [] blocks rfl recorded isBlockwise rfl newReplayed ok).utxos

end Runs

namespace Reference

def eventLeavesRecord (height : Nat) (p : PegProgress) (event : Hash × BlockEvent) : Bool :=
  match event.2 with
  | .deposit d => OutPoint.deposit d.txid d.vout ∉ p.indexEvents.bundleSpends.map (·.1)
  | .withdrawalBundle report =>
      match report.status,p.withdrawalBundles.tryGet report.m6id with
      | .failed,some (.known bundle,history) => bundle.spendUtxos.isEmpty || history.latest.value ≠ .submitted
      | .confirmed,some (.known _,_) => true
      | .confirmed,some _ => height ≠ 0
      | _,_ => true

theorem leavesRecordChecked {height : Nat} {p : PegProgress} {event : Hash × BlockEvent}
    (passes : eventLeavesRecord height p event = true) : LeavesRecord height p event.2 where
  failure m6id bundle history isFailed found live := by
    simpa [eventLeavesRecord,isFailed,found,live] using passes
  genesis m6id info history isConfirmed genesis found unknown live := by
    cases info with
    | known bundle => exact absurd rfl (unknown bundle)
    | unknown => simp [eventLeavesRecord,isConfirmed,found,genesis] at passes
    | unknownConfirmed spent => simp [eventLeavesRecord,isConfirmed,found,genesis] at passes
  deposit d isDeposit := by
    rw [eventLeavesRecord,isDeposit] at passes
    exact of_decide_eq_true passes

def stepLeavesRecord (s : State Forest) : Step Forest → Bool
  | .connectPeg data _ => s.height.all (fun height =>
      every (connectEvent externals height) (eventLeavesRecord height) data.events (PegProgress.start s))
  | _ => true

theorem recordsChecked {steps : List (Step Forest)}
    (passes : everyStep stepLeavesRecord steps (State.new Forest) = true) : EventsLeaveRecord externals context steps := by
  intro p height event takes
  obtain ⟨s,data,rpc,t,later,before,after,step,atHeight,split,reached⟩ := takes.taken
  have passed := everyStepTakes passes step
  simp only [stepLeavesRecord,atHeight,Option.all_some,split] at passed
  exact leavesRecordChecked (everyTaken passed reached)

theorem confirmedBundleReplayed : ∃ (steps : List (Step Forest)) (last : State Forest) (blocks : List Block),
    forwardBlocks steps = some blocks ∧ run externals context steps (State.new Forest) = .ok last ∧
    blocks.length = 7 ∧ last.utxos = replay externals last.getBlockIndexEvents blocks := by
  have played : playsReported collected [[.submitted],[.confirmed]] (fun steps _ =>
      ((forwardBlocks steps).map List.length = some 7) && everyStep stepLeavesRecord steps (State.new Forest)) = true := by
    decide +kernel
  obtain ⟨steps,last,ran,checked⟩ := playsReportedRun played
  obtain ⟨counted,recorded⟩ := Bool.and_eq_true_iff.mp checked
  obtain ⟨blocks,isBlockwise,length⟩ := Option.map_eq_some_iff.mp (of_decide_eq_true counted)
  exact ⟨steps,last,blocks,isBlockwise,ran,length,indexReplaysUtxos isBlockwise (recordsChecked recorded) ran⟩

def withdrawalPoint : OutPoint := (outputOf withdraw 0 withdrawal).1

/- The bundle fails: the node has the withdrawal again, the index has not. -/
theorem failedBundleUnreplayed : ∃ (steps : List (Step Forest)) (last : State Forest) (blocks : List Block),
    forwardBlocks steps = some blocks ∧ run externals context steps (State.new Forest) = .ok last ∧
    last.utxos ≠ replay externals last.getBlockIndexEvents blocks := by
  have played : playsReported collected [[.submitted],[.failed]] (fun steps s => (forwardBlocks steps).any (fun blocks =>
      s.utxos.tryGet withdrawalPoint ≠
        (replay externals s.getBlockIndexEvents blocks).tryGet withdrawalPoint)) = true := by decide +kernel
  obtain ⟨steps,last,ran,checked⟩ := playsReportedRun played
  obtain ⟨blocks,isBlockwise,differs⟩ := (Option.any_eq_true _ _).mp checked
  exact ⟨steps,last,blocks,isBlockwise,ran,fun same => of_decide_eq_true differs (congrArg (Table.tryGet · _) same)⟩

end Reference

end Coinshift
