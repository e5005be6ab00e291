import Coinshift.ScanEffects
import Coinshift.SwapLifecycle

/-! The states of a swap along a forward run.
A cancelled swap has no locked output and so cannot be claimed; a waiting one has its transaction on record and
so is only ever counted upwards. -/
namespace Coinshift
open Checked SwapTables

variable {F : Type} {lib : Externals F} {ctxt : BatchVerificationContext} {s t last : State F} {steps : List (Step F)}
  {header : Header} {body : Body} {pre : PrevalidatedBlock} {swapId : SwapId} {swap : Swap}

/- The moves of the life cycle: none leads out of a completed or a cancelled swap. -/
def SwapState.Advances : SwapState → SwapState → Prop
  | .pending, .pending => False
  | .pending, _ => True
  | .waitingConfirmations current _, .waitingConfirmations next _ => current < next
  | .waitingConfirmations .., .pending => False
  | .waitingConfirmations .., _ => True
  | .readyToClaim, .completed => True
  | _, _ => False

structure Swap.Counted (swap : Swap) : Prop where
  counts : ∀ current required, swap.state = .waitingConfirmations current required →
    0 < current ∧ current < required ∧ required = swap.requiredConfirmations
  isSet : ∀ current required, swap.state = .waitingConfirmations current required → swap.l1Txid.isUnset = false

structure StatesKept (w : SwapTables) : Prop where
  counted : ∀ swapId swap, w.getSwap swapId = some swap → swap.Counted
  cancelled : ∀ swapId swap, w.getSwap swapId = some swap → swap.state = .cancelled →
    ∀ o, w.isOutputLockedToSwap o ≠ some swapId

theorem StatesKept.settled (kept : StatesKept s.toSwapTables) (recorded : s.getSwap swapId = some swap)
    (isCancelled : swap.state = .cancelled) : Settled swapId s.toSwapTables :=
  ⟨by rw [recorded]; rfl,kept.cancelled swapId swap recorded isCancelled⟩

def Step.NonZero : Step F → Prop
  | .connectPeg _ rpc => ∀ swapId found m txid, rpc swapId = some (.ok found) → m ∈ found →
      SwapTxId.fromHexRpc m.2.txid = some txid → txid.isUnset = false
  | .localOp (.updateSwapL1Txid _ l1Txid _ _ _ _ _) => l1Txid.isUnset = false
  | _ => True

def Moves (before after : Swap) : Prop := after.state = before.state ∨ before.state.Advances after.state

theorem restCounted {after : Swap} (rests : ∀ current required, after.state ≠ .waitingConfirmations current required) :
    after.Counted :=
  ⟨fun current required waits => absurd waits (rests current required),
    fun current required waits => absurd waits (rests current required)⟩

section Confirmations

variable {after : Swap} {n required : UInt32}

theorem confirmedCounted (state : after.state = (swap.withConfirmations n required).state) (some : n ≠ 0)
    (same : required = after.requiredConfirmations) (isSet : after.l1Txid.isUnset = false) : after.Counted := by
  refine ⟨fun current r waits => ?_,fun _ _ _ => isSet⟩
  rw [state] at waits
  unfold Swap.withConfirmations at waits
  by_cases enough : required ≤ n
  · simp [enough] at waits
  · simp only [enough,if_false,SwapState.waitingConfirmations.injEq] at waits
    obtain ⟨rfl,rfl⟩ := waits
    exact ⟨UInt32.pos_iff_ne_zero.mpr some,UInt32.not_le.mp enough,same⟩

theorem confirmedRemains : (swap.withConfirmations n required).state ≠ .cancelled := by
  unfold Swap.withConfirmations
  split <;> exact fun isCancelled => nomatch isCancelled

theorem confirmedMoves (state : after.state = (swap.withConfirmations n required).state) (awaiting : swap.isAwaiting = true)
    (larger : ∀ current r, swap.state = .waitingConfirmations current r → current < n) : Moves swap after := by
  refine .inr ?_
  rw [state]
  unfold Swap.isAwaiting at awaiting
  unfold Swap.withConfirmations
  cases held : swap.state with
  | pending =>
      split
      · exact trivial
      · exact trivial
  | waitingConfirmations current r =>
      split
      · exact trivial
      · exact larger current r held
  | readyToClaim => simp [held] at awaiting
  | completed => simp [held] at awaiting
  | cancelled => simp [held] at awaiting

end Confirmations

section Block

theorem blockRecord (source : ConnectBlockSource lib ctxt s header body pre t) (recorded : s.getSwap swapId = some swap) :
    t.getSwap swapId = some swap ∨
      t.getSwap swapId = some swap.markCompleted ∧ ∃ tx ∈ body.transactions, tx.Claims swapId := by
  have transactions := filledTransactions source.validated.transactions
  refine foldInvariant (P := fun w => w.getSwap swapId = some swap ∨
    w.getSwap swapId = some swap.markCompleted ∧ ∃ tx ∈ body.transactions, tx.Claims swapId) ?_ (.inl recorded)
    source.connected.swaps
  intro w f w' mem now connected
  have inBody : f.transaction ∈ body.transactions := transactions ▸ List.mem_map_of_mem mem
  rw [(connectSwapEffect connected).2.2.1]
  unfold recordsAfter
  cases kind : f.transaction.data with
  | regular => exact now
  | swapAccept accepted claimer => exact now
  | swapCreate create =>
      have different : swapId ≠ create.swapId := by
        rintro rfl
        rw [source.fresh mem kind] at recorded
        cases recorded
      simpa only [different,if_false] using now
  | swapClaim claimed declared proof =>
      by_cases here : swapId = claimed
      · refine .inr ⟨?_,f.transaction,inBody,declared,proof,here ▸ kind⟩
        rcases now with same | ⟨done,_⟩
        · simp only [here,if_true] at same ⊢
          rw [same]
          rfl
        · simp only [here,if_true] at done ⊢
          rw [done]
          rfl
      · simpa only [here,if_false] using now

theorem blockOpens (source : ConnectBlockSource lib ctxt s header body pre t) (missing : s.getSwap swapId = none)
    (recorded : t.getSwap swapId = some swap) : swap.state = .pending := by
  have transactions := filledTransactions source.validated.transactions
  refine foldInvariant (P := fun w => ∀ swap, w.getSwap swapId = some swap → swap.state = .pending) ?_ ?_
    source.connected.swaps swap recorded
  · intro w f w' mem now connected after isAfter
    have inBody : f.transaction ∈ body.transactions := transactions ▸ List.mem_map_of_mem mem
    rw [(connectSwapEffect connected).2.2.1] at isAfter
    unfold recordsAfter at isAfter
    cases kind : f.transaction.data with
    | regular => exact now after (by simpa only [kind] using isAfter)
    | swapAccept accepted claimer => exact now after (by simpa only [kind] using isAfter)
    | swapCreate create =>
        simp only [kind] at isAfter
        split at isAfter
        · cases isAfter
          rfl
        · exact now after isAfter
    | swapClaim claimed declared proof =>
        obtain ⟨_,_,_,rules⟩ := source.validated.claim inBody kind
        have different : swapId ≠ claimed := by
          rintro rfl
          cases missing.symm.trans rules.recorded
        simp only [kind,different,if_false] at isAfter
        exact now after isAfter
  · intro swap isRecorded
    rw [missing] at isRecorded
    cases isRecorded

end Block

structure StepRecord (swapId : SwapId) (w w' : SwapTables) : Prop where
  moves : ∀ before, w.getSwap swapId = some before → ∃ after, w'.getSwap swapId = some after ∧ Moves before after
  opens : ∀ after, w.getSwap swapId = none → w'.getSwap swapId = some after → after.state = .pending
  counted : ∀ after, w'.getSwap swapId = some after → after.Counted
  cancelled : ∀ before after, w.getSwap swapId = some before → w'.getSwap swapId = some after →
    after.state = .cancelled → before.state ≠ .cancelled → ∀ o, w'.isOutputLockedToSwap o ≠ some swapId

section Steps

theorem blockStep (source : ConnectBlockSource lib ctxt s header body pre t) (kept : StatesKept s.toSwapTables) :
    StepRecord swapId s.toSwapTables t.toSwapTables := by
  have completed {before : Swap} (claimed : ∃ tx ∈ body.transactions, tx.Claims swapId)
      (recorded : s.getSwap swapId = some before) : Moves before before.markCompleted := by
    cases held : before.state with
    | cancelled =>
        obtain ⟨tx,mem,claims⟩ := claimed
        exact absurd claims (settledNotClaimed source.validated (kept.settled recorded held) tx mem)
    | completed => exact .inl held.symm
    | _ => exact .inr (by rw [held]; trivial)
  refine ⟨fun before recorded => ?_,fun after missing found => blockOpens source missing found,?_,?_⟩
  · rcases blockRecord source recorded with same | ⟨done,claimed⟩
    · exact ⟨before,same,.inl rfl⟩
    · exact ⟨before.markCompleted,done,completed claimed recorded⟩
  · intro after found
    cases recorded : s.getSwap swapId with
    | none =>
        have pending := blockOpens source recorded found
        exact restCounted (fun current required waits => by rw [pending] at waits; cases waits)
    | some before =>
        rcases blockRecord source recorded with same | ⟨done,_⟩
        · cases same.symm.trans found
          exact kept.counted swapId after recorded
        · cases done.symm.trans found
          exact restCounted (fun current required waits => by cases waits)
  · intro before after recorded found isCancelled fresh
    rcases blockRecord source recorded with same | ⟨done,_⟩
    · cases same.symm.trans found
      exact absurd isCancelled fresh
    · cases done.symm.trans found
      cases isCancelled

theorem SeesPayment.moves {rpc : RpcReplies} {m : Text × TransactionInfo} {after : Swap}
    (sees : SeesPayment rpc swap m after) (counted : swap.Counted)
    (nonZero : ∀ found m txid, rpc swap.id = some (.ok found) → m ∈ found →
      SwapTxId.fromHexRpc m.2.txid = some txid → txid.isUnset = false) : Moves swap after ∧ after.Counted := by
  obtain ⟨found,reply,first⟩ := sees.reply
  obtain ⟨mem,some⟩ := firstAcceptableSource first
  rcases sees.txid with ⟨unset,decoded⟩ | ⟨isSet,same,larger,_⟩
  · refine ⟨confirmedMoves sees.state sees.awaiting (fun current r waits => ?_),
      confirmedCounted sees.state some sees.required.symm (nonZero found m _ reply mem decoded)⟩
    cases unset.symm.trans (counted.isSet current r waits)
  · refine ⟨confirmedMoves sees.state sees.awaiting (fun current r waits => ?_),
      confirmedCounted sees.state some sees.required.symm (by rw [same]; exact isSet)⟩
    simpa only [waits,SwapState.current] using larger

theorem ScanRecord.moves {rpc : RpcReplies} {height : Nat} {after : Swap} (record : ScanRecord rpc height swap after)
    (counted : swap.Counted)
    (nonZero : ∀ found m txid, rpc swap.id = some (.ok found) → m ∈ found →
      SwapTxId.fromHexRpc m.2.txid = some txid → txid.isUnset = false) :
    Moves swap after ∧ after.Counted ∧
      (after.state = .cancelled → swap.state = .cancelled ∨ swap.expiresAt height = true) := by
  cases record with
  | kept remains idle => exact ⟨.inl rfl,counted,.inl⟩
  | expired expires =>
      refine ⟨?_,restCounted (fun current required waits => nomatch waits),fun _ => .inr expires⟩
      have awaiting := (Bool.and_eq_true_iff.mp expires).1
      unfold Swap.isAwaiting at awaiting
      cases held : swap.state with
      | pending => exact .inr (by rw [held]; trivial)
      | waitingConfirmations current required => exact .inr (by rw [held]; trivial)
      | _ => simp [held] at awaiting
  | seen remains sees =>
      obtain ⟨moves,countedAfter⟩ := sees.moves counted nonZero
      exact ⟨moves,countedAfter,fun isCancelled => absurd (sees.state.symm.trans isCancelled) confirmedRemains⟩

theorem StepRecord.ofRecord {w w' : SwapTables} {after : Swap} (recorded : w.getSwap swapId = some swap)
    (found : w'.getSwap swapId = some after) (moves : Moves swap after) (counted : after.Counted)
    (cancelled : after.state = .cancelled → swap.state ≠ .cancelled → ∀ o, w'.isOutputLockedToSwap o ≠ some swapId) :
    StepRecord swapId w w' := by
  refine ⟨fun before now => ?_,fun _ now => ?_,fun _ now => ?_,fun _ _ now later => ?_⟩
  · cases recorded.symm.trans now
    exact ⟨after,found,moves⟩
  · cases recorded.symm.trans now
  · cases found.symm.trans now
    exact counted
  · cases recorded.symm.trans now
    cases found.symm.trans later
    exact cancelled

theorem StepRecord.ofMissing {w w' : SwapTables} (missing : w.getSwap swapId = none) (still : w'.getSwap swapId = none) :
    StepRecord swapId w w' := by
  refine ⟨fun _ now => ?_,fun _ _ now => ?_,fun _ now => ?_,fun _ _ now => ?_⟩
  · cases missing.symm.trans now
  · cases still.symm.trans now
  · cases still.symm.trans now
  · cases missing.symm.trans now

theorem StepRecord.ofSame {w w' : SwapTables} (kept : StatesKept w) (same : w'.getSwap swapId = w.getSwap swapId) :
    StepRecord swapId w w' := by
  cases recorded : w.getSwap swapId with
  | none => exact .ofMissing recorded (same.trans recorded)
  | some swap =>
      exact .ofRecord recorded (same.trans recorded) (.inl rfl) (kept.counted swapId swap recorded)
        (fun isCancelled fresh => absurd isCancelled fresh)

theorem scanStep {data : TwoWayPegData} {rpc : RpcReplies} (ok : connectTwoWayPegData lib s data rpc = .ok t)
    (nonZero : (Step.connectPeg data rpc : Step F).NonZero) (kept : StatesKept s.toSwapTables) :
    StepRecord swapId s.toSwapTables t.toSwapTables := by
  obtain ⟨height,blockHash,_,_,tables⟩ := (connectPegSource ok).swaps
  have effect : PegSwapEffect height s.toSwapTables t.toSwapTables := by
    rw [tables]
    exact pegSwapEffect
  have records : Option.Rel (ScanRecord rpc height) (s.getSwap swapId) (t.getSwap swapId) := by
    rw [tables]
    exact scanRecords swapId
  generalize recorded : s.getSwap swapId = before,found : t.getSwap swapId = after at records
  cases records with
  | none => exact .ofMissing recorded found
  | @some swap after record =>
      obtain ⟨moves,counted,cancelled⟩ := record.moves (kept.counted swapId swap recorded)
        (fun found m txid => nonZero swap.id found m txid)
      refine .ofRecord recorded found moves counted (fun isCancelled fresh o locked => ?_)
      have expires := (cancelled isCancelled).resolve_left fresh
      rcases effect.lock o with ⟨_,_,_,_,_,gone⟩ | ⟨remains,same⟩
      · cases gone.symm.trans locked
      · cases expires.symm.trans (remains swapId swap (same.symm.trans locked) recorded)

theorem savedStep {w base : SwapTables} {named : SwapId} {updated : Swap} (kept : StatesKept w)
    (recorded : w.getSwap named = some swap) (records : base.getSwap = w.getSwap) (sameId : updated.id = swap.id)
    (moves : Moves swap updated) (counted : updated.Counted)
    (cancelled : updated.state = .cancelled → ∀ o, base.isOutputLockedToSwap o ≠ some named) :
    StepRecord swapId w (base.saveSwap updated) := by
  have own : updated.id = named := sameId.trans (getSwapId recorded)
  by_cases here : swapId = named
  · subst here
    exact .ofRecord recorded (by rw [getSwapSave,own,if_pos rfl]) moves counted (fun isCancelled _ => cancelled isCancelled)
  · exact .ofSame kept (by rw [getSwapSave,own,if_neg here,records])

theorem localStep {op : LocalOp} {w w' : SwapTables} (ok : op.apply w = .ok w')
    (nonZero : (Step.localOp op : Step F).NonZero) (kept : StatesKept w) : StepRecord swapId w w' := by
  cases op with
  | updateSwapL1Txid named l1Txid confirmations l1Claimer l2Claimer blockHash blockHeight =>
      simp only [LocalOp.apply,updateSwapL1Txid,bindOk,okOrOk,ensureOk,ensureSomeOk,pureOk] at ok
      obtain ⟨swap,recorded,_,pending,_,some,_,_,_,_,_,_,rfl⟩ := ok
      have awaiting : swap.isAwaiting = true := by rw [Swap.isAwaiting,pending]
      refine savedStep kept recorded rfl ?_ (confirmedMoves (n := confirmations) rfl awaiting ?_)
        (confirmedCounted rfl some rfl ?_) (fun isCancelled => absurd isCancelled confirmedRemains)
      · cases l1Claimer <;> cases l2Claimer <;> rfl
      · intro current r waits
        cases pending.symm.trans waits
      · cases l1Claimer <;> cases l2Claimer <;> exact nonZero
  | updateSwapConfirmations named confirmations blockHash blockHeight =>
      simp only [LocalOp.apply,updateSwapConfirmations,bindOk,okOrOk] at ok
      obtain ⟨swap,recorded,ok⟩ := ok
      split at ok
      · next current required waiting =>
          have awaiting : swap.isAwaiting = true := by rw [Swap.isAwaiting,waiting]
          have counted := kept.counted named swap recorded
          obtain ⟨_,_,same⟩ := counted.counts current required waiting
          split at ok
          · cases ok
            exact .ofSame kept rfl
          · next larger =>
              rw [UInt32.not_le] at larger
              cases ok
              refine savedStep kept recorded rfl rfl (confirmedMoves (n := confirmations) rfl awaiting ?_)
                (confirmedCounted rfl ?_ same (counted.isSet current required waiting))
                (fun isCancelled => absurd isCancelled confirmedRemains)
              · intro current' r waits
                cases waiting.symm.trans waits
                exact larger
              · rintro rfl
                exact UInt32.not_lt_zero larger
      · cases ok
  | cancelSwap named creator =>
      simp only [LocalOp.apply,cancelSwap,bindOk,okOrOk,ensureOk,pureOk] at ok
      obtain ⟨swap,recorded,_,_,_,pending,rfl⟩ := ok
      refine savedStep kept recorded ?_ rfl (.inr (by rw [pending]; trivial))
        (restCounted (fun current required waits => ?_)) (fun _ o locked => ?_)
      · funext other
        simp only [getSwap,unlockAllSwaps]
      · cases waits
      · rw [lockedUnlockAll] at locked
        split at locked
        · cases locked
        · next others => exact others locked
  | cleanupOrphanedLocks =>
      cases ok
      refine .ofSame kept ?_
      rw [cleanupEq]
      rfl

theorem forwardRecords {step : Step F} (forward : step.isForward = true) (nonZero : step.NonZero)
    (ok : step.apply lib ctxt s = .ok t) (kept : StatesKept s.toSwapTables) (swapId : SwapId) :
    StepRecord swapId s.toSwapTables t.toSwapTables := by
  cases step with
  | connect header body =>
      obtain ⟨pre,source⟩ := connectBlockSource ok
      exact blockStep source kept
  | connectPeg data rpc => exact scanStep ok nonZero kept
  | localOp op =>
      simp only [Step.apply,bindOk,pureOk] at ok
      obtain ⟨w,applied,rfl⟩ := ok
      exact localStep (F := F) applied nonZero kept
  | _ => cases forward

theorem forwardKept {step : Step F} (forward : step.isForward = true) (nonZero : step.NonZero)
    (ok : step.apply lib ctxt s = .ok t) (kept : StatesKept s.toSwapTables) : StatesKept t.toSwapTables := by
  have records := forwardRecords forward nonZero ok kept
  refine ⟨fun swapId swap found => (records swapId).counted swap found,fun swapId swap found isCancelled => ?_⟩
  cases recorded : s.getSwap swapId with
  | none => cases isCancelled.symm.trans ((records swapId).opens swap recorded found)
  | some before =>
      by_cases already : before.state = .cancelled
      · exact (forwardSettled forward ok (kept.settled recorded already)).unlocked
      · exact (records swapId).cancelled before swap recorded found isCancelled already

end Steps

structure LifeCycle (lib : Externals F) (ctxt : BatchVerificationContext) (steps : List (Step F)) : Prop where
  moves : ∀ s step t later swapId before, Takes lib ctxt steps s step t later → s.getSwap swapId = some before →
    ∃ after, t.getSwap swapId = some after ∧ Moves before after
  opens : ∀ s step t later swapId after, Takes lib ctxt steps s step t later → s.getSwap swapId = none →
    t.getSwap swapId = some after → after.state = .pending
  final : ∀ earlier between later s t swapId before, steps = earlier ++ (between ++ later) →
    run lib ctxt earlier (State.new F) = .ok s → run lib ctxt between s = .ok t → s.getSwap swapId = some before →
    before.state = .completed ∨ before.state = .cancelled →
    ∃ after, t.getSwap swapId = some after ∧ after.state = before.state
  counts : ∀ earlier later s swapId swap current required, steps = earlier ++ later →
    run lib ctxt earlier (State.new F) = .ok s → s.getSwap swapId = some swap →
    swap.state = .waitingConfirmations current required →
    0 < current ∧ current < required ∧ required = swap.requiredConfirmations

theorem statesKeptNew : StatesKept (State.new F).toSwapTables :=
  ⟨fun _ _ recorded => (nomatch recorded),fun _ _ recorded => (nomatch recorded)⟩

theorem runKept (forward : ∀ step ∈ steps, step.isForward = true) (nonZero : ∀ step ∈ steps, step.NonZero)
    (kept : StatesKept s.toSwapTables) (ok : run lib ctxt steps s = .ok t) : StatesKept t.toSwapTables := by
  refine runInvariant (P := fun u => StatesKept u.toSwapTables) ?_ kept ok
  intro u step v mem kept applied
  exact forwardKept (forward step mem) (nonZero step mem) applied kept

theorem Moves.stays {before after : Swap} (moves : Moves before after)
    (ended : before.state = .completed ∨ before.state = .cancelled) : after.state = before.state := by
  rcases moves with same | advances
  · exact same
  · rcases ended with held | held
    all_goals
      rw [held] at advances
      cases advances

theorem runStays {before : Swap} (forward : ∀ step ∈ steps, step.isForward = true)
    (nonZero : ∀ step ∈ steps, step.NonZero) (kept : StatesKept s.toSwapTables) (ok : run lib ctxt steps s = .ok t)
    (recorded : s.getSwap swapId = some before) (ended : before.state = .completed ∨ before.state = .cancelled) :
    ∃ after, t.getSwap swapId = some after ∧ after.state = before.state := by
  refine (runInvariant (P := fun u => StatesKept u.toSwapTables ∧
    ∃ after, u.getSwap swapId = some after ∧ after.state = before.state) ?_ ⟨kept,before,recorded,rfl⟩ ok).2
  intro u step v mem holds applied
  obtain ⟨kept,middle,found,same⟩ := holds
  refine ⟨forwardKept (forward step mem) (nonZero step mem) applied kept,?_⟩
  obtain ⟨after,foundAfter,moves⟩ :=
    (forwardRecords (forward step mem) (nonZero step mem) applied kept swapId).moves middle found
  exact ⟨after,foundAfter,(moves.stays (by rw [same]; exact ended)).trans same⟩

theorem swapLifeCycle (forward : ∀ step ∈ steps, step.isForward = true) (nonZero : ∀ step ∈ steps, step.NonZero) :
    LifeCycle lib ctxt steps := by
  have reached {earlier later : List (Step F)} {s : State F} (split : steps = earlier ++ later)
      (ran : run lib ctxt earlier (State.new F) = .ok s) : StatesKept s.toSwapTables := by
    subst split
    exact runKept (fun step mem => forward step (List.mem_append_left later mem))
      (fun step mem => nonZero step (List.mem_append_left later mem)) statesKeptNew ran
  have taken {s t : State F} {step : Step F} {later : List (Step F)} (takes : Takes lib ctxt steps s step t later) :
      ∀ swapId, StepRecord swapId s.toSwapTables t.toSwapTables := by
    obtain ⟨earlier,split,ran⟩ := takes.split
    exact forwardRecords (forward step takes.mem) (nonZero step takes.mem) takes.applied (reached split ran)
  refine ⟨?_,?_,?_,?_⟩
  · intro s step t later swapId before takes recorded
    exact (taken takes swapId).moves before recorded
  · intro s step t later swapId after takes missing found
    exact (taken takes swapId).opens after missing found
  · intro earlier between later s t swapId before split ran more recorded ended
    have inside : ∀ step ∈ between, step ∈ steps := by
      intro step mem
      rw [split]
      exact List.mem_append_right earlier (List.mem_append_left later mem)
    exact runStays (fun step mem => forward step (inside step mem)) (fun step mem => nonZero step (inside step mem))
      (reached split ran) more recorded ended
  · intro earlier later s swapId swap current required split ran recorded waits
    exact ((reached split ran).counted swapId swap recorded).counts current required waits

section Reached

open Reference

def createSlow : Transaction :=
  transaction [deposited 1 (coin alice 1000)] [namedEscrow,coin alice 100]
    (.swapCreate { namedCreate with requiredConfirmations := 3 })

def twiceConfirmed : RpcReplies := fun _ => some (.ok [(['s'],⟨(List.replicate 32 ['0','1']).flatten,2,some 5⟩)])

def slowScript : List Move :=
  funded ++ [grow [(createSlow,[alice])],.locally (.updateSwapL1Txid namedId (.hash32 5) 1 none none 0 1),
    .grow (Reference.body [] []) [] twiceConfirmed]

theorem slowSteps : ∀ move ∈ slowScript, ∀ connected s, ∀ step ∈ move.steps connected s,
    step.isForward = true ∧ step.NonZero := by
  have silent {swapId : SwapId} {found : List (Text × TransactionInfo)} : noRpc swapId ≠ some (.ok found) :=
    fun reply => nomatch reply
  have reads : ∀ txid ∈ SwapTxId.fromHexRpc (List.replicate 32 ['0','1']).flatten, txid.isUnset = false := by
    decide +kernel
  intro move mem connected s step isStep
  simp only [slowScript,funded,grow,List.cons_append,List.nil_append,List.mem_cons,List.not_mem_nil,or_false] at mem
  rcases mem with rfl | rfl | rfl | rfl | rfl
  all_goals
    simp only [Move.steps,List.mem_cons,List.not_mem_nil,or_false] at isStep
  case inr.inr.inr.inl =>
    subst isStep
    exact ⟨rfl,rfl⟩
  all_goals
    rcases isStep with rfl | rfl
    · exact ⟨rfl,trivial⟩
    refine ⟨rfl,fun swapId found m txid reply mem decoded => ?_⟩
  case inr.inr.inr.inr.inr =>
    cases reply
    cases List.mem_singleton.mp mem
    exact reads txid decoded
  all_goals exact absurd reply silent

theorem slowSwapWaits : ∃ (steps : List (Step Forest)) (last : State Forest),
    run externals context steps (State.new Forest) = .ok last ∧
    (last.getSwap namedId).map (·.state) = some (.waitingConfirmations 2 3) ∧ LifeCycle externals context steps := by
  have played : plays slowScript (fun _ s => (s.getSwap namedId).map (·.state) = some (.waitingConfirmations 2 3)) = true := by
    decide +kernel
  obtain ⟨steps,last,ran,waits,all⟩ := playsSteps played slowSteps
  exact ⟨steps,last,ran,of_decide_eq_true waits,
    swapLifeCycle (fun step mem => (all step mem).1) (fun step mem => (all step mem).2)⟩

end Reached

end Coinshift
