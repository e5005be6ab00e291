import Coinshift.Reference
import Coinshift.StepEffects

/-! Maintenance calls between the blocks of a node.
Cleaning up orphaned locks never finds one on a node that only connects blocks. A cancellation that
goes through changes the locks of that node alone. -/
namespace Coinshift
open Checked SwapTables

variable {F : Type} {lib : Externals F} {ctxt : BatchVerificationContext} {s t : State F}

inductive Event (F : Type) where
  | block (step : Step F)
  | cancelSwap (swapId : SwapId) (creator : Option Address)
  | cleanupOrphanedLocks

def Event.apply (lib : Externals F) (ctxt : BatchVerificationContext) (s : State F) : Event F → Except Error (State F)
  | .block step => step.apply lib ctxt s
  | .cancelSwap swapId creator => .ok ((LocalOp.cancelSwap swapId creator).call s)
  | .cleanupOrphanedLocks => .ok (LocalOp.cleanupOrphanedLocks.call s)

def runEvents (lib : Externals F) (ctxt : BatchVerificationContext) (events : List (Event F)) (s : State F) :
    Except Error (State F) := events.foldlM (Event.apply lib ctxt) s

def Event.block? : Event F → Option (Step F)
  | .block step => some step
  | _ => none

def blocksOf (events : List (Event F)) : List (Step F) := events.filterMap Event.block?

/- `cancel_swap` finds a pending swap with a creator, and is called in the creator's name. -/
def Cancellable (s : State F) (swapId : SwapId) (creator : Option Address) : Prop :=
  ∃ swap, s.getSwap swapId = some swap ∧ swap.l2CreatorAddress.isSome ∧ creator = swap.l2CreatorAddress ∧
    swap.state = .pending

/- In the state it is made in, no cancellation of the run finds what it needs. -/
def NoneCancellable (lib : Externals F) (ctxt : BatchVerificationContext) : State F → List (Event F) → Prop
  | _, [] => True
  | s, .cancelSwap swapId creator :: rest => ¬ Cancellable s swapId creator ∧ NoneCancellable lib ctxt s rest
  | s, .cleanupOrphanedLocks :: rest => NoneCancellable lib ctxt s rest
  | s, .block step :: rest => ∀ t, step.apply lib ctxt s = .ok t → NoneCancellable lib ctxt t rest

section Orphans

def LocksRecorded (w : SwapTables) : Prop := ∀ o swapId, w.isOutputLockedToSwap o = some swapId → w.getSwap swapId ≠ none

theorem connectSwapLocksRecorded {height : Nat} {w w' : SwapTables} {f : FilledTransaction}
    (recorded : LocksRecorded w) (ok : connectSwap lib height w f = .ok w') : LocksRecorded w' := by
  obtain ⟨locks,_,records,_⟩ := connectSwapEffect ok
  intro o swapId locked
  rw [locks] at locked
  rw [records]
  unfold locksAfter at locked
  unfold recordsAfter
  cases kind : f.transaction.data with
  | regular =>
      rw [kind] at locked
      exact recorded o swapId locked
  | swapAccept accepted claimer =>
      rw [kind] at locked
      exact recorded o swapId locked
  | swapCreate create =>
      simp only [kind] at locked ⊢
      by_cases own : swapId = create.swapId
      · simp [own]
      · simp only [own,if_false]
        split at locked
        · exact absurd (Option.some.inj locked).symm own
        · exact recorded o swapId locked
  | swapClaim claimed declared proof =>
      simp only [kind] at locked ⊢
      split at locked
      · cases locked
      · by_cases own : swapId = claimed
        · simp only [own,if_true,ne_eq,Option.map_eq_none_iff]
          exact recorded o claimed (own ▸ locked)
        · simp only [own,if_false]
          exact recorded o swapId locked

theorem connectionLocksRecorded {step : Step F} (connection : step.isConnection = true)
    (recorded : LocksRecorded s.toSwapTables) (ok : step.apply lib ctxt s = .ok t) : LocksRecorded t.toSwapTables := by
  cases step with
  | connect header body =>
      obtain ⟨pre,source⟩ := connectBlockSource ok
      exact foldInvariant (P := LocksRecorded) (fun _ _ _ _ now step => connectSwapLocksRecorded now step) recorded
        source.connected.swaps
  | connectPeg data rpc =>
      obtain ⟨height,_,effect⟩ := (connectPegSource ok).effect
      intro o swapId locked
      have before : s.isOutputLockedToSwap o = some swapId := by
        rcases effect.lock o with ⟨_,_,_,_,_,released⟩ | ⟨_,kept⟩
        · rw [released] at locked
          cases locked
        · exact kept.symm.trans locked
      have related := effect.records swapId
      intro missing
      rw [missing] at related
      cases found : s.getSwap swapId with
      | none => exact recorded o swapId before found
      | some swap =>
          rw [found] at related
          cases related
  | _ => cases connection

theorem cleanupIdle {w : SwapTables} (recorded : LocksRecorded w) : w.cleanupOrphanedLocks.1 = w := by
  have none : w.orphanedLocks = [] := by
    rw [orphanedLocks,List.map_eq_nil_iff,List.filter_eq_nil_iff]
    intro entry mem orphaned
    exact recorded entry.1 entry.2 (Table.memEntries.mp mem) (Option.isNone_iff_eq_none.mp orphaned)
  rw [cleanupEq,none]
  rfl

end Orphans

theorem callCleanupIdle (recorded : LocksRecorded s.toSwapTables) : LocalOp.cleanupOrphanedLocks.call s = s := by
  simp only [LocalOp.call,LocalOp.apply,cleanupIdle recorded]

theorem callCancelRefused {swapId : SwapId} {creator : Option Address} (refused : ¬ Cancellable s swapId creator) :
    (LocalOp.cancelSwap swapId creator).call s = s := by
  unfold LocalOp.call
  split
  · next w ok =>
      simp only [LocalOp.apply,cancelSwap,bindOk,okOrOk,ensureOk,pureOk] at ok
      obtain ⟨swap,recorded,_,own,_,pending,_⟩ := ok
      exact absurd ⟨swap,recorded,own.1,own.2,pending⟩ refused
  · rfl

theorem eventsFromRecorded {events : List (Event F)} (recorded : LocksRecorded s.toSwapTables)
    (connections : ∀ step, .block step ∈ events → step.isConnection = true)
    (refused : NoneCancellable lib ctxt s events) : runEvents lib ctxt events s = run lib ctxt (blocksOf events) s := by
  induction events generalizing s with
  | nil => rfl
  | cons event rest ih =>
      have later : ∀ step, .block step ∈ rest → step.isConnection = true :=
        fun step mem => connections step (List.mem_cons_of_mem event mem)
      rw [runEvents,List.foldlM_cons]
      cases event with
      | block step =>
          have blocks : blocksOf (.block step :: rest) = step :: blocksOf rest := rfl
          rw [blocks,run,List.foldlM_cons]
          cases result : step.apply lib ctxt s with
          | error e => simp only [Event.apply,result]; rfl
          | ok next =>
              simp only [Event.apply,result]
              have kept := connectionLocksRecorded (connections step List.mem_cons_self) recorded result
              exact ih kept later (refused next result)
      | cancelSwap swapId creator =>
          simp only [Event.apply,callCancelRefused refused.1]
          exact ih recorded later refused.2
      | cleanupOrphanedLocks =>
          simp only [Event.apply,callCleanupIdle recorded]
          exact ih recorded later refused

theorem newLocksRecorded : LocksRecorded (State.new F).toSwapTables := by
  intro o swapId locked
  have none : (State.new F).isOutputLockedToSwap o = none := Table.tryGetEmpty
  rw [none] at locked
  cases locked

theorem maintenanceHarmless {events : List (Event F)}
    (connections : ∀ step, .block step ∈ events → step.isConnection = true)
    (refused : NoneCancellable lib ctxt (State.new F) events) :
    runEvents lib ctxt events (State.new F) = run lib ctxt (blocksOf events) (State.new F) :=
  eventsFromRecorded newLocksRecorded connections refused

section Reached

open Reference

theorem blocksThenCall {steps : List (Step F)} {call : Event F} (isCall : call.block? = none) :
    blocksOf (steps.map .block ++ [call]) = steps := by
  have blocks : blocksOf (steps.map Event.block) = steps := by
    rw [blocksOf,List.filterMap_map]
    exact List.filterMap_some
  rw [blocksOf,List.filterMap_append,List.filterMap_cons,isCall]
  exact (List.append_nil _).trans blocks

theorem connectionsThenCall {steps : List (Step F)} {call : Event F} (isCall : call.block? = none)
    (connections : ∀ step ∈ steps, step.isConnection = true) :
    ∀ step, .block step ∈ steps.map .block ++ [call] → step.isConnection = true := by
  intro step mem
  rcases List.mem_append.mp mem with inside | last
  · obtain ⟨found,foundIn,same⟩ := List.mem_map.mp inside
    cases same
    exact connections step foundIn
  · rw [← List.mem_singleton.mp last] at isCall
    cases isCall

theorem noneCancellableBlocks {steps : List (Step F)} {rest : List (Event F)}
    (atEnd : ∀ t, run lib ctxt steps s = .ok t → NoneCancellable lib ctxt t rest) :
    NoneCancellable lib ctxt s (steps.map .block ++ rest) := by
  induction steps generalizing s with
  | nil => exact atEnd s rfl
  | cons step steps ih =>
      intro next applied
      exact ih (fun t ran => atEnd t (foldConsOk.mpr ⟨next,applied,ran⟩))

def aliceSwap : List Move := funded ++ [grow [(createNamed,[alice])]]

def cancelBy (key : VerifyingKey) : Event Forest := .cancelSwap namedId (some (addressOf key))

def cancelUnlocks (steps : List (Step Forest)) (s : State Forest) : Bool :=
  steps.all Step.isConnection && s.isOutputLockedToSwap (outputOf createNamed 0 namedEscrow).1 = some namedId &&
    (((LocalOp.cancelSwap namedId (some (addressOf alice))).call s).isOutputLockedToSwap
      (outputOf createNamed 0 namedEscrow).1).isNone

theorem cancellationSplits : ∃ (events : List (Event Forest)) (s t : State Forest),
    (∀ step, .block step ∈ events → step.isConnection = true) ∧
    runEvents externals context events (State.new Forest) = .ok s ∧
    run externals context (blocksOf events) (State.new Forest) = .ok t ∧
    s.isOutputLockedToSwap ≠ t.isOutputLockedToSwap := by
  have played : plays aliceSwap cancelUnlocks = true := by decide +kernel
  obtain ⟨steps,t,ran,checked⟩ := playsRun played
  simp only [cancelUnlocks,Bool.and_eq_true,decide_eq_true_eq,Option.isNone_iff_eq_none,List.all_eq_true] at checked
  obtain ⟨⟨connections,locked⟩,unlocked⟩ := checked
  refine ⟨steps.map .block ++ [cancelBy alice],(LocalOp.cancelSwap namedId (some (addressOf alice))).call t,t,
    connectionsThenCall rfl connections,?_,?_,?_⟩
  · refine foldAppendOk.mpr ⟨t,?_,rfl⟩
    rw [List.foldlM_map]
    exact ran
  · rw [blocksThenCall rfl]
    exact ran
  · intro same
    have atEscrow := congrFun same (outputOf createNamed 0 namedEscrow).1
    rw [unlocked,locked] at atEscrow
    cases atEscrow

def createdByAlice (steps : List (Step Forest)) (s : State Forest) : Bool :=
  steps.all Step.isConnection && (s.getSwap namedId).map (·.l2CreatorAddress) = some (some (addressOf alice))

theorem strangersCallHarmless : ∃ (events : List (Event Forest)) (steps : List (Step Forest)) (s : State Forest),
    events = steps.map .block ++ [cancelBy bob] ∧
    runEvents externals context events (State.new Forest) = run externals context steps (State.new Forest) ∧
    run externals context steps (State.new Forest) = .ok s := by
  have played : plays aliceSwap createdByAlice = true := by decide +kernel
  obtain ⟨steps,s,ran,checked⟩ := playsRun played
  simp only [createdByAlice,Bool.and_eq_true,decide_eq_true_eq,List.all_eq_true] at checked
  obtain ⟨connections,creator⟩ := checked
  have refused : NoneCancellable externals context (State.new Forest) (steps.map .block ++ [cancelBy bob]) := by
    refine noneCancellableBlocks (fun t ranTo => ⟨?_,trivial⟩)
    obtain rfl : s = t := Except.ok.inj (ran.symm.trans ranTo)
    intro cancellable
    obtain ⟨swap,recorded,_,own,_⟩ := cancellable
    rw [recorded] at creator
    have different : addressOf bob ≠ addressOf alice := by decide +kernel
    exact different (Option.some.inj (own.trans (Option.some.inj creator)))
  have harmless := maintenanceHarmless (connectionsThenCall rfl connections) refused
  rw [blocksThenCall rfl] at harmless
  exact ⟨_,steps,s,rfl,harmless,ran⟩

end Reached

end Coinshift
