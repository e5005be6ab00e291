import Coinshift.BundleReports
import Coinshift.IndexWriters

/-! What the connection and disconnection of peg data write into the tables that are kept by height.
Two of them list the main-chain blocks with deposits and with reports, two hold what is undone with a block. -/
namespace Coinshift
open Checked SwapTables

variable {F : Type} {lib : Externals F} {s s' : State F} {w w' : SwapTables} {data : TwoWayPegData} {rpc : RpcReplies}
  {height : Nat}

section Reports

variable {p p' : PegProgress} {us : List (OutPoint × Output)} {m6id : M6id} {event : Hash × BlockEvent}

structure SameMarks (p p' : PegProgress) : Prop where
  deposit : p'.latestDepositBlockHash = p.latestDepositBlockHash
  report : p'.latestWithdrawalBundleEventBlockHash = p.latestWithdrawalBundleEventBlockHash
  depositBlocks : p'.depositBlocks = p.depositBlocks
  eventBlocks : p'.withdrawalBundleEventBlocks = p.withdrawalBundleEventBlocks
  index : p'.blockIndexEvents = p.blockIndexEvents

theorem SameMarks.refl (p : PegProgress) : SameMarks p p := ⟨rfl,rfl,rfl,rfl,rfl⟩

theorem SameMarks.trans {q : PegProgress} (first : SameMarks p p') (second : SameMarks p' q) : SameMarks p q :=
  ⟨second.deposit.trans first.deposit,second.report.trans first.report,second.depositBlocks.trans first.depositBlocks,
    second.eventBlocks.trans first.eventBlocks,second.index.trans first.index⟩

theorem restoreMarks (ok : us.foldlM (restoreOutput lib) p = .ok p') : SameMarks p p' := by
  refine foldInvariant (P := SameMarks p) ?_ (.refl p) ok
  intro q u q' _ same restored
  simp only [restoreOutput,bindOk,ensureOk,pureOk] at restored
  obtain ⟨_,_,rfl⟩ := restored
  exact same.trans ⟨rfl,rfl,rfl,rfl,rfl⟩

theorem refailMarks (ok : us.foldlM (refail lib m6id) p = .ok p') : SameMarks p p' := by
  refine foldInvariant (P := SameMarks p) ?_ (.refl p) ok
  intro q u q' _ same respent
  simp only [refail,bindOk,ensureOk,pureOk] at respent
  obtain ⟨_,_,rfl⟩ := respent
  exact same.trans ⟨rfl,rfl,rfl,rfl,rfl⟩

theorem connectMarks {blockHash : Hash} {report : WithdrawalBundleEvent}
    (ok : connectWithdrawalBundleEvent lib height p blockHash report = .ok p') : SameMarks p p' := by
  obtain ⟨m6id,status⟩ := report
  cases status with
  | submitted =>
      simp only [connectWithdrawalBundleEvent,connectWithdrawalBundleSubmitted] at ok
      split at ok
      · simp only [spendsProgress,bindOk,ensureOk,pureOk] at ok
        obtain ⟨_,_,rfl⟩ := ok
        exact ⟨rfl,rfl,rfl,rfl,rfl⟩
      · split at ok
        · simp only [bindOk,ensureOk,pureOk] at ok
          obtain ⟨_,_,rfl⟩ := ok
          exact .refl p
        · cases ok
          exact ⟨rfl,rfl,rfl,rfl,rfl⟩
  | confirmed =>
      simp only [connectWithdrawalBundleEvent,connectWithdrawalBundleConfirmed,bindOk,okOrOk] at ok
      obtain ⟨_,_,ok⟩ := ok
      split at ok
      · cases ok
        exact .refl p
      · simp only [spendAllProgress,bindOk,ensureOk] at ok
        obtain ⟨_,_,ok⟩ := ok
        split at ok
        · simp only [bindOk,okOrOk,pureOk] at ok
          obtain ⟨_,rfl,_,_,rfl⟩ := ok
          exact ⟨rfl,rfl,rfl,rfl,rfl⟩
        · simp only [bindOk,ensureOk,okOrOk,pureOk] at ok
          obtain ⟨_,_,_,rfl,_,_,rfl⟩ := ok
          exact ⟨rfl,rfl,rfl,rfl,rfl⟩
  | failed =>
      simp only [connectWithdrawalBundleEvent,connectWithdrawalBundleFailed,bindOk,okOrOk] at ok
      obtain ⟨_,_,ok⟩ := ok
      split at ok
      · cases ok
        exact .refl p
      · simp only [unspendsProgress,bindOk,ensureOk,okOrOk] at ok
        obtain ⟨_,_,_,_,ok⟩ := ok
        split at ok
        · simp only [bindOk,pureOk] at ok
          obtain ⟨_,_,_,rfl,rfl⟩ := ok
          exact ⟨rfl,rfl,rfl,rfl,rfl⟩
        · cases ok
          exact ⟨rfl,rfl,rfl,rfl,rfl⟩

theorem disconnectMarks {report : WithdrawalBundleEvent}
    (ok : disconnectWithdrawalBundleEvent lib height p report = .ok p') : SameMarks p p' := by
  obtain ⟨m6id,status⟩ := report
  cases status with
  | submitted =>
      simp only [disconnectWithdrawalBundleEvent,disconnectWithdrawalBundleSubmitted] at ok
      split at ok
      · simp only [bindOk,ensureOk,pureOk] at ok
        obtain ⟨_,_,rfl⟩ := ok
        exact .refl p
      · simp only [bindOk,ensureOk] at ok
        obtain ⟨_,_,ok⟩ := ok
        split at ok
        · split at ok
          · simp only [bindOk,pureOk] at ok
            obtain ⟨_,restored,_,rfl,rfl⟩ := ok
            exact (restoreMarks restored).trans ⟨rfl,rfl,rfl,rfl,rfl⟩
          · cases ok
            exact ⟨rfl,rfl,rfl,rfl,rfl⟩
        · cases ok
          exact .refl p
  | confirmed =>
      simp only [disconnectWithdrawalBundleEvent,disconnectWithdrawalBundleConfirmed,bindOk,okOrOk] at ok
      obtain ⟨_,_,ok⟩ := ok
      split at ok
      · cases ok
        exact .refl p
      · simp only [bindOk] at ok
        obtain ⟨_,_,ok⟩ := ok
        split at ok
        · simp only [bindOk,pureOk] at ok
          obtain ⟨_,restored,_,rfl,rfl⟩ := ok
          exact (restoreMarks restored).trans ⟨rfl,rfl,rfl,rfl,rfl⟩
        · cases ok
          exact ⟨rfl,rfl,rfl,rfl,rfl⟩
  | failed =>
      simp only [disconnectWithdrawalBundleEvent,disconnectWithdrawalBundleFailed,bindOk,okOrOk] at ok
      obtain ⟨_,_,ok⟩ := ok
      split at ok
      · cases ok
        exact .refl p
      · simp only [bindOk] at ok
        obtain ⟨_,_,ok⟩ := ok
        split at ok
        · simp only [bindOk,pureOk] at ok
          obtain ⟨_,respent,_,_,_,rfl,rfl⟩ := ok
          exact (refailMarks respent).trans ⟨rfl,rfl,rfl,rfl,rfl⟩
        · cases ok
          exact ⟨rfl,rfl,rfl,rfl,rfl⟩

def depositBlock (event : Hash × BlockEvent) : Option Hash :=
  match event.2 with
  | .deposit _ => some event.1
  | .withdrawalBundle _ => none

def reportBlock (event : Hash × BlockEvent) : Option Hash :=
  match event.2 with
  | .deposit _ => none
  | .withdrawalBundle _ => some event.1

structure Noted (events : List (Hash × BlockEvent)) (p p' : PegProgress) : Prop where
  deposit : p'.latestDepositBlockHash = (events.filterMap depositBlock).getLast?
  report : p'.latestWithdrawalBundleEventBlockHash = (events.filterMap reportBlock).getLast?
  depositBlocks : p'.depositBlocks = p.depositBlocks
  eventBlocks : p'.withdrawalBundleEventBlocks = p.withdrawalBundleEventBlocks
  index : p'.blockIndexEvents = p.blockIndexEvents

theorem connectedNotes {events : List (Hash × BlockEvent)} (deposits : p.latestDepositBlockHash = none)
    (reports : p.latestWithdrawalBundleEventBlockHash = none)
    (ok : events.foldlM (connectEvent lib height) p = .ok p') : Noted events p p' := by
  refine foldHistory (P := fun before q => Noted before p q) ⟨deposits,reports,rfl,rfl,rfl⟩ ?_ ok
  intro before event after q q' _ _ connected noted
  obtain ⟨blockHash,event⟩ := event
  cases event with
  | deposit d =>
      cases connected
      exact ⟨by simp [depositBlock],by simpa [reportBlock,PegProgress.insert] using noted.report,noted.depositBlocks,noted.eventBlocks,
        noted.index⟩
  | withdrawalBundle report =>
      simp only [connectEvent,bindOk,pureOk] at connected
      obtain ⟨middle,reported,rfl⟩ := connected
      have same := connectMarks reported
      exact ⟨by simpa [depositBlock,same.deposit] using noted.deposit,by simp [reportBlock],
        same.depositBlocks.trans noted.depositBlocks,same.eventBlocks.trans noted.eventBlocks,same.index.trans noted.index⟩

theorem disconnectedNotes {events : List (Hash × BlockEvent)} (deposits : p.latestDepositBlockHash = none)
    (reports : p.latestWithdrawalBundleEventBlockHash = none)
    (ok : events.reverse.foldlM (disconnectEvent lib height) p = .ok p') : Noted events p p' := by
  have back : Noted events.reverse.reverse p p' := by
    refine foldHistory (P := fun before q => Noted before.reverse p q) ⟨deposits,reports,rfl,rfl,rfl⟩ ?_ ok
    intro before event after q q' _ _ disconnected noted
    obtain ⟨blockHash,event⟩ := event
    cases event with
    | deposit d =>
        simp only [disconnectEvent,bindOk,ensureOk,pureOk] at disconnected
        obtain ⟨_,_,rfl⟩ := disconnected
        refine ⟨?_,by simpa [reportBlock,PegProgress.remove] using noted.report,noted.depositBlocks,noted.eventBlocks,noted.index⟩
        simp only [noted.deposit,List.reverse_append,List.reverse_singleton,List.singleton_append,List.filterMap_cons,
          depositBlock,List.getLast?_cons]
        cases (before.reverse.filterMap depositBlock).getLast? <;> rfl
    | withdrawalBundle report =>
        simp only [disconnectEvent,bindOk,pureOk] at disconnected
        obtain ⟨middle,reported,rfl⟩ := disconnected
        have same := disconnectMarks reported
        refine ⟨by simpa [depositBlock,same.deposit] using noted.deposit,?_,same.depositBlocks.trans noted.depositBlocks,
          same.eventBlocks.trans noted.eventBlocks,same.index.trans noted.index⟩
        simp only [same.report,noted.report,List.reverse_append,List.reverse_singleton,List.singleton_append,
          List.filterMap_cons,reportBlock,List.getLast?_cons]
        cases (before.reverse.filterMap reportBlock).getLast? <;> rfl
  rwa [List.reverse_reverse] at back

end Reports

section Expired

theorem disconnectSwapExpired {tx : Transaction} (ok : disconnectSwap lib w tx = .ok w') : w'.expiredSwaps = w.expiredSwaps := by
  unfold disconnectSwap at ok
  cases data : tx.data with
  | regular =>
      simp only [data,pureOk] at ok
      rw [ok]
  | swapAccept accepted claimer =>
      simp only [data,pureOk] at ok
      rw [← ok]
      rfl
  | swapCreate create =>
      simp only [data,pureOk] at ok
      obtain ⟨locks,unlocked⟩ := @unlockIfEq w create.swapId (tx.pendingOutpoints lib).reverse
      rw [← ok,unlocked]
      unfold deleteSwapUnchecked
      simp only [unlockAllOutputsForSwap,unlocksEq]
      split <;> rfl
  | swapClaim claimed claimer proof =>
      simp only [data,bindOk,okOrOk,pureOk] at ok
      obtain ⟨swap,recorded,rfl⟩ := ok
      obtain ⟨locks,relocked⟩ := @lockIfEq w claimed (tx.inputs.map (·.1)).reverse
      rw [relocked]
      split <;> rfl

theorem disconnectSwapsExpired {body : Body} (ok : disconnectSwaps lib body w = .ok w') : w'.expiredSwaps = w.expiredSwaps :=
  foldInvariant (P := fun now => now.expiredSwaps = w.expiredSwaps)
    (fun _ _ _ _ same undone => (disconnectSwapExpired undone).trans same) rfl ok

theorem restoreExpiredTable {reversal : ExpiredSwapReversal} : (restoreExpired w reversal).expiredSwaps = w.expiredSwaps := by
  unfold restoreExpired
  rw [locksEq]
  cases w.getSwap reversal.1 with
  | none => rfl
  | some swap => rfl

theorem restoreEachTable {reversals : List ExpiredSwapReversal} :
    (reversals.foldl restoreExpired w).expiredSwaps = w.expiredSwaps := by
  induction reversals generalizing w with
  | nil => rfl
  | cons reversal rest ih => exact ih.trans restoreExpiredTable

theorem restoreExpiredSwapsTable {k : Nat} : (restoreExpiredSwaps w height).expiredSwaps.tryGet k =
    if k = height then none else w.expiredSwaps.tryGet k := by
  unfold restoreExpiredSwaps
  split
  · next reversals found =>
      show ((reversals.foldl restoreExpired w).expiredSwaps.delete height).tryGet k = _
      rw [restoreEachTable,Table.tryGetDelete]
  · next missing =>
      split
      · next here => rw [here,missing]
      · rfl

theorem processSwapExpired {blockHash : BlockHash} {swap : Swap} {acc : SwapTables × List ExpiredSwapReversal} :
    (processSwap rpc blockHash height acc swap).1.expiredSwaps = acc.1.expiredSwaps := by
  unfold processSwap
  split
  · rfl
  · split
    · simp only [expireSwap,unlockAllOutputsForSwap,unlocksEq]
      rfl
    · unfold scanSwap
      split
      · split <;> rfl
      · rfl

theorem scanTable {blockHash : BlockHash} {noted : List ExpiredSwapReversal}
    (isNoted : (w.loadAllSwaps.foldl (processSwap rpc blockHash height) (w,[])).2 = noted) :
    (processCoinshiftTransactions w height blockHash rpc).expiredSwaps =
      if noted.isEmpty then w.expiredSwaps else w.expiredSwaps.put height noted := by
  have same (swaps : List Swap) (acc : SwapTables × List ExpiredSwapReversal) :
      (swaps.foldl (processSwap rpc blockHash height) acc).1.expiredSwaps = acc.1.expiredSwaps := by
    induction swaps generalizing acc with
    | nil => rfl
    | cons swap rest ih => exact (ih _).trans processSwapExpired
  subst isNoted
  unfold processCoinshiftTransactions
  dsimp only
  split
  · exact same w.loadAllSwaps (w,[])
  · rw [same w.loadAllSwaps (w,[])]

theorem processSwapNotes {blockHash : BlockHash} {swap : Swap} {acc : SwapTables × List ExpiredSwapReversal}
    (remains : swap.expiresAt height = false) : (processSwap rpc blockHash height acc swap).2 = acc.2 := by
  rw [Swap.expiresAt,Bool.and_eq_false_iff] at remains
  unfold processSwap
  split
  · rfl
  · next awaiting =>
      rcases remains with isAwaiting | unexpired
      · exact absurd isAwaiting awaiting
      · rw [unexpired]
        rfl

theorem noneNoted {blockHash : BlockHash} {swaps : List Swap} {acc : SwapTables × List ExpiredSwapReversal}
    (remain : ∀ swap ∈ swaps, swap.expiresAt height = false) :
    (swaps.foldl (processSwap rpc blockHash height) acc).2 = acc.2 := by
  induction swaps generalizing acc with
  | nil => rfl
  | cons swap rest ih =>
      exact (ih (fun other mem => remain other (List.mem_cons_of_mem swap mem))).trans
        (processSwapNotes (remain swap List.mem_cons_self))

def PutAt {V : Type} (reason : Prop) (table : Table Nat V) (height : Nat) (table' : Table Nat V) : Prop :=
  table' = table ∨ reason ∧ ∃ v, table' = table.put height v

theorem scanExpired {blockHash : BlockHash} : PutAt (w.loadAllSwaps.any (fun swap => swap.expiresAt height) = true)
    w.expiredSwaps height (processCoinshiftTransactions w height blockHash rpc).expiredSwaps := by
  rw [scanTable rfl]
  split
  · exact .inl rfl
  · next noted =>
      refine .inr ⟨?_,_,rfl⟩
      by_contra none
      rw [List.any_eq_true,not_exists] at none
      refine noted (List.isEmpty_iff.mpr (noneNoted (fun swap mem => ?_)))
      exact Bool.eq_false_iff.mpr (fun expires => none swap ⟨mem,expires⟩)

end Expired

section Marks

def TwoWayPegData.lastOf (kind : Hash × BlockEvent → Option Hash) (data : TwoWayPegData) : Option Hash :=
  (data.events.filterMap kind).getLast?

structure MarksConnected (s : State F) (data : TwoWayPegData) (height : Nat) (s' : State F) : Prop where
  deposits : s'.depositBlocks = pushEventBlock s.depositBlocks (data.lastOf depositBlock) height
  reports : s'.withdrawalBundleEventBlocks = pushEventBlock s.withdrawalBundleEventBlocks (data.lastOf reportBlock) height
  expiries : PutAt (s.loadAllSwaps.any (fun swap => swap.expiresAt height) = true) s.expiredSwaps height s'.expiredSwaps
  index : PutAt (data.events ≠ []) s.blockIndexEvents height s'.blockIndexEvents

theorem marksConnected (ok : connectTwoWayPegData lib s data rpc = .ok s') (atHeight : s.height = some height) :
    MarksConnected s data height s' := by
  simp only [connectTwoWayPegData,bindOk,okOrOk,pureOk] at ok
  obtain ⟨_,heightIs,progress,events,blockHash,tipIs,_,_,_,_,rfl⟩ := ok
  cases atHeight.symm.trans heightIs
  have noted := connectedNotes rfl rfl events
  constructor
  · show pushEventBlock progress.depositBlocks progress.latestDepositBlockHash height = _
    rw [noted.depositBlocks,noted.deposit]
    rfl
  · show pushEventBlock progress.withdrawalBundleEventBlocks progress.latestWithdrawalBundleEventBlockHash height = _
    rw [noted.eventBlocks,noted.report]
    rfl
  · exact scanExpired
  · dsimp only
    split
    · exact .inl noted.index
    · next listed =>
        refine .inr ⟨fun none => listed ?_,progress.indexEvents,congrArg (fun t => t.put height progress.indexEvents) noted.index⟩
        rw [none] at events
        cases foldNilOk.mp events
        rfl

structure MarksDisconnected (s : State F) (data : TwoWayPegData) (height : Nat) (s' : State F) : Prop where
  deposits : popEventBlock s.depositBlocks (data.lastOf depositBlock) height .noDepositBlock = .ok s'.depositBlocks
  reports : popEventBlock s.withdrawalBundleEventBlocks (data.lastOf reportBlock) height .noWithdrawalBundleEventBlock =
    .ok s'.withdrawalBundleEventBlocks
  expiries : ∀ k, s'.expiredSwaps.tryGet k = if k = height then none else s.expiredSwaps.tryGet k
  index : ∀ k, s'.blockIndexEvents.tryGet k = if k = height then none else s.blockIndexEvents.tryGet k

theorem marksDisconnected (ok : disconnectTwoWayPegData lib s data = .ok s') (atHeight : s.height = some height) :
    MarksDisconnected s data height s' := by
  obtain ⟨height',progress,source⟩ := pegDisconnectSource ok
  cases atHeight.symm.trans source.atHeight
  have noted := disconnectedNotes rfl rfl source.events
  have deposits := source.depositBlocks
  have reports := source.bundleBlocks
  rw [noted.depositBlocks,noted.deposit] at deposits
  rw [noted.eventBlocks,noted.report] at reports
  refine ⟨deposits,reports,fun k => ?_,fun k => ?_⟩
  · rw [source.swaps]
    exact restoreExpiredSwapsTable
  · rw [source.indexEvents,noted.index]
    exact Table.tryGetDelete

end Marks

section Blocks

variable {ctxt : BatchVerificationContext} {header : Header} {body : Body}

structure SameMarkTables (s s' : State F) : Prop where
  deposits : s'.depositBlocks = s.depositBlocks
  reports : s'.withdrawalBundleEventBlocks = s.withdrawalBundleEventBlocks
  expiries : s'.expiredSwaps = s.expiredSwaps
  index : s'.blockIndexEvents = s.blockIndexEvents

theorem sameTables {s' : State F} (pegs : s'.toPegTables = s.toPegTables) (expiries : s'.expiredSwaps = s.expiredSwaps) :
    SameMarkTables s s' :=
  ⟨congrArg PegTables.depositBlocks pegs,congrArg PegTables.withdrawalBundleEventBlocks pegs,expiries,
    congrArg PegTables.blockIndexEvents pegs⟩

theorem connectBlockMarks (ok : connectBlock lib ctxt s header body = .ok s') : SameMarkTables s s' := by
  obtain ⟨pre,source⟩ := connectBlockSource ok
  exact sameTables source.connected.pegs (connectSwapsEffect source.connected.swaps).2.2.2

theorem disconnectBlockMarks (ok : disconnectTip lib s header body = .ok s') : SameMarkTables s s' :=
  sameTables (disconnectSource ok).pegs (disconnectSwapsExpired (disconnectSource ok).swaps)

end Blocks

end Coinshift
