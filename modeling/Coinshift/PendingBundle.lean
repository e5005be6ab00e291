import Coinshift.AccumulatorMirror

/-! The pending bundle from its collection to its submission.
No transaction spends a withdrawal, so what the bundle would spend stays unspent; it stays the same as long as nothing
else is put at its outpoints. -/
namespace Coinshift
open Checked Keyed

variable {F : Type} {lib : Externals F} {ctxt : BatchVerificationContext} {s t last : State F}
  {header : Header} {body : Body} {steps : List (Step F)} {height : Nat}

def PendingLive (w : PegTables) (utxos : Table OutPoint Output) : Prop :=
  ∀ u ∈ w.pendingSpends, utxos.tryGet u.1 = some u.2

def SparesBlock (lib : Externals F) (s : State F) (header : Header) (body : Body) : Prop :=
  ∀ u ∈ s.pendingSpends, ∀ p ∈ blockCreates lib header body, u.1 = p.outpoint → u.2 = p.output

/- Where the pending bundle spends, nothing is put but what it spends: by no block, no deposit and no failed bundle. -/
structure SparesPending (lib : Externals F) (ctxt : BatchVerificationContext) (steps : List (Step F)) : Prop where
  blocks : ∀ s header body t later, Takes lib ctxt steps s (.connect header body) t later → SparesBlock lib s header body
  events : ∀ p height event, TakesEvent lib ctxt steps p height event → SparesEvent p.toPegTables event.2

theorem PendingUnspent.live {w : PegTables} {l : Ledger} (pending : PendingUnspent height w l) : PendingLive w l.utxos := by
  intro u mem
  cases found : w.pendingWithdrawalBundle with
  | none => simp [PegTables.pendingSpends,found] at mem
  | some now => exact (pending.unspent now.1 now.2 found).unspent u (pendingSpendsOf found ▸ mem)

section Blocks

def LedgerOp.Spares (u : OutPoint × Output) : LedgerOp → Prop
  | .put p => u.1 = p.outpoint → u.2 = p.output
  | .spend o _ => u.1 ≠ o

theorem ledgerOpsSpare {ops : List LedgerOp} {u : OutPoint × Output} {l l' : Ledger} (spare : ∀ op ∈ ops, op.Spares u)
    (unspent : l.utxos.tryGet u.1 = some u.2) (ok : ops.foldlM LedgerOp.apply l = .ok l') :
    l'.utxos.tryGet u.1 = some u.2 := by
  refine foldInvariant (P := fun l : Ledger => l.utxos.tryGet u.1 = some u.2) (fun l op l' mem now applied => ?_) unspent ok
  have spared := spare op mem
  cases op with
  | put p =>
      cases applied
      rw [Ledger.putOutput,Table.tryGetPut]
      split
      · next here => rw [spared here]
      · exact now
  | spend o inpoint =>
      simp only [LedgerOp.apply,bindOk,okOrOk,pureOk] at applied
      obtain ⟨_,_,rfl⟩ := applied
      exact (Table.tryGetDeleteOther spared).trans now

theorem PendingUnspent.block (pending : PendingUnspent (s.height.getD 0) s.toPegTables s.toLedger)
    (spares : SparesBlock lib s header body) (ok : connectBlock lib ctxt s header body = .ok t) :
    PendingUnspent (t.height.getD 0) t.toPegTables t.toLedger := by
  obtain ⟨pre,source⟩ := connectBlockSource ok
  have coins := source.connected.coins
  rw [connectCoinsOps] at coins
  rw [source.connected.pegs]
  refine ⟨fun bundle collectedAt found => ?_,fun isZero => ?_⟩
  · have before := pending.unspent bundle collectedAt found
    refine ⟨before.distinct,fun u inside => ?_,before.withdrawals⟩
    refine ledgerOpsSpare (fun op mem => ?_) (before.unspent u inside) coins
    cases op with
    | put p => exact spares u (pendingSpendsOf found ▸ inside) p (memBlockPuts.mp mem)
    | spend o inpoint =>
        -- an input is no withdrawal
        rintro rfl
        have isInput : u.1 ∈ body.inputKeys := by
          rw [← @spendKeysBlock _ lib header]
          exact List.mem_map.mpr ⟨_,List.mem_filter.mpr ⟨mem,rfl⟩,rfl⟩
        have notWithdrawn := inputsNotWithdrawn source.validated.transactions isInput (before.unspent u inside)
        rw [before.withdrawals u inside] at notWithdrawn
        cases notWithdrawn
  · rw [source.connected.height,Option.getD_some] at isZero
    refine pending.genesis ?_
    unfold State.nextHeight at isZero
    cases height : s.height with
    | none => rfl
    | some below => simp [height] at isZero

end Blocks

section Runs

theorem PendingUnspent.events {events : List (Hash × BlockEvent)} {p : PegProgress} (atHeight : s.height = some height)
    (pending : PendingUnspent (s.height.getD 0) s.toPegTables s.toLedger)
    (spares : ∀ before event after p, events = before ++ event :: after →
      before.foldlM (connectEvent lib height) (PegProgress.start s) = .ok p → SparesEvent p.toPegTables event.2)
    (ok : events.foldlM (connectEvent lib height) (PegProgress.start s) = .ok p) :
    PendingUnspent height p.toPegTables p.toLedger := by
  rw [atHeight,Option.getD_some] at pending
  refine foldHistory (P := fun _ p => PendingUnspent height p.toPegTables p.toLedger) pending ?_ ok
  intro before event after p p' split folded connected now
  obtain ⟨ops,effect⟩ := eventEffect connected
  rw [effect.ledger]
  exact now.spared (spares before event after p split folded) effect.cases

theorem PendingUnspent.peg {data : TwoWayPegData} {rpc : RpcReplies}
    (pending : PendingUnspent (s.height.getD 0) s.toPegTables s.toLedger)
    (spares : ∀ height before event after p, s.height = some height → data.events = before ++ event :: after →
      before.foldlM (connectEvent lib height) (PegProgress.start s) = .ok p → SparesEvent p.toPegTables event.2)
    (ok : connectTwoWayPegData lib s data rpc = .ok t) : PendingUnspent (t.height.getD 0) t.toPegTables t.toLedger := by
  obtain ⟨height,progress,source⟩ := pegConnectSource ok
  have atHeight : s.height.getD 0 = height := by rw [source.atHeight]; rfl
  have last : PendingUnspent height progress.toPegTables progress.toLedger :=
    pending.events source.atHeight (fun before event after p => spares height before event after p source.atHeight)
      source.events
  rw [(connectPegSource ok).height,atHeight,source.ledger]
  refine ⟨fun bundle collectedAt found => ?_,fun isZero => ?_⟩
  · rcases collectPendingSource source.pending with same | ⟨_,_,collected⟩
    · exact last.unspent bundle collectedAt (same ▸ found)
    · exact (collected bundle collectedAt found).2
  · rcases collectPendingSource source.pending with same | ⟨_,gap,_⟩
    · exact same.trans (last.genesis isZero)
    · rw [isZero] at gap
      cases gap

theorem runPending (forward : ∀ step ∈ steps, step.isForward = true) (spares : SparesPending lib ctxt steps)
    (ok : run lib ctxt steps (State.new F) = .ok last) :
    PendingUnspent (last.height.getD 0) last.toPegTables last.toLedger := by
  refine historyInvariant (P := fun _ s => PendingUnspent (s.height.getD 0) s.toPegTables s.toLedger)
    ⟨fun _ _ found => (nomatch found),fun _ => rfl⟩ ?_ ok
  intro earlier s x t later split reached applied pending
  cases x with
  | connect header body => exact pending.block (spares.blocks s header body t later ⟨⟨earlier,split,reached⟩,applied⟩) applied
  | connectPeg data rpc =>
      refine pending.peg (fun height before event after p atHeight isSplit folded => ?_) applied
      exact spares.events p height event
        ⟨s,data,rpc,t,later,before,after,⟨⟨earlier,split,reached⟩,applied⟩,atHeight,isSplit,folded⟩
  | localOp op =>
      simp only [Step.apply,bindOk,pureOk] at applied
      obtain ⟨w,_,rfl⟩ := applied
      exact pending
  | _ => cases forward _ (split ▸ List.mem_append_right earlier List.mem_cons_self)

theorem SparesPending.earlier {rest : List (Step F)} (spares : SparesPending lib ctxt (steps ++ rest)) :
    SparesPending lib ctxt steps := by
  refine ⟨fun s header body t later takes => spares.blocks s header body t _ takes.longer,fun p height event takes => ?_⟩
  obtain ⟨s,data,rpc,t,later,before,after,step,taken⟩ := takes.taken
  exact spares.events p height event ⟨s,data,rpc,t,_,before,after,step.longer,taken⟩

/- After every step, and before every event that a step handles. -/
theorem pendingStaysLive (forward : ∀ step ∈ steps, step.isForward = true) (spares : SparesPending lib ctxt steps)
    (ok : run lib ctxt steps (State.new F) = .ok last) :
    PendingLive last.toPegTables last.utxos ∧
      ∀ p height event, TakesEvent lib ctxt steps p height event → PendingLive p.toPegTables p.utxos := by
  refine ⟨(runPending forward spares ok).live,fun p height event takes => ?_⟩
  obtain ⟨s,data,rpc,t,later,before,after,step,atHeight,split,folded⟩ := takes.taken
  obtain ⟨earlier,rfl,reached⟩ := step.split
  have pending := runPending (fun x mem => forward x (List.mem_append_left _ mem)) spares.earlier reached
  refine (pending.events atHeight (fun before' event' after' p' isSplit folded' => ?_) folded).live
  refine spares.events p' height event' ⟨s,data,rpc,t,later,before',after' ++ event :: after,step,atHeight,?_,folded'⟩
  rw [split,isSplit,List.append_assoc,List.cons_append]

end Runs

section Reached
open Reference

def eventSpares (p : PegProgress) (event : Hash × BlockEvent) : Bool :=
  match event.2 with
  | .deposit d => p.pendingSpends.all (fun u => u.1 = .deposit d.txid d.vout → u.2 = d.output)
  | .withdrawalBundle report =>
      match p.withdrawalBundles.tryGet report.m6id with
      | some (.known bundle,history) =>
          decide (report.status = .failed ∧ history.latest.value = .submitted) →
            p.pendingSpends.all (fun u => bundle.spendUtxos.all (fun x => u.1 = x.1 → u.2 = x.2))
      | _ => true

def stepSpares (s : State Forest) : Step Forest → Bool
  | .connect header body =>
      s.pendingSpends.all (fun u => (blockCreates externals header body).all (fun p => u.1 = p.outpoint → u.2 = p.output))
  | .connectPeg data _ => s.height.all (fun height =>
      every (connectEvent externals height) eventSpares data.events (PegProgress.start s))
  | _ => true

theorem sparesChecked {steps : List (Step Forest)} (passes : everyStep stepSpares steps (State.new Forest) = true) :
    SparesPending externals context steps := by
  refine ⟨?_,?_⟩
  · intro s header body t later takes u spent p created here
    have passed := List.all_eq_true.mp (List.all_eq_true.mp (everyStepTakes passes takes) u spent) p created
    exact of_decide_eq_true passed here
  · intro p height event takes
    obtain ⟨s,data,rpc,t,later,before,after,step,atHeight,split,reached⟩ := takes.taken
    have passed := everyStepTakes passes step
    simp only [stepSpares,atHeight,Option.all_some,split] at passed
    have spares : eventSpares p event = true := everyTaken passed reached
    refine ⟨fun d isDeposit u spent here => ?_,fun m6id bundle history isFailed recorded live u spent x inside here => ?_⟩
    · simp only [eventSpares,isDeposit,List.all_eq_true,decide_eq_true_eq] at spares
      exact spares u spent here
    · simp only [eventSpares,isFailed,recorded,live,and_self,decide_true,decide_eq_true_eq,forall_const,
        List.all_eq_true] at spares
      exact spares u spent x inside here

theorem collectedStaysLive : ∃ (steps : List (Step Forest)) (last : State Forest),
    run externals context steps (State.new Forest) = .ok last ∧ last.pendingWithdrawalBundle.isSome = true ∧
      PendingLive last.toPegTables last.utxos := by
  have played : plays (collected ++ [grow [],grow []]) (fun steps last =>
      steps.all Step.isForward && (everyStep stepSpares steps (State.new Forest) && last.pendingWithdrawalBundle.isSome)) =
        true := by decide +kernel
  obtain ⟨steps,last,ran,checked⟩ := playsRun played
  obtain ⟨forward,checked⟩ := Bool.and_eq_true_iff.mp checked
  obtain ⟨spares,pending⟩ := Bool.and_eq_true_iff.mp checked
  exact ⟨steps,last,ran,pending,(pendingStaysLive (List.all_eq_true.mp forward) (sparesChecked spares) ran).1⟩

def worthless (address : MainAddress) : Output := ⟨addressOf alice,.withdrawal ⟨0⟩ ⟨0⟩ address⟩

def pendingChanged (s : State Forest) : Bool := s.pendingSpends.any (fun u => s.utxos.tryGet u.1 ≠ some u.2)

/- A worthless withdrawal is mined, waits in the pending bundle and is mined again with the other address. -/
theorem pendingEntryReplaced : ∃ (steps : List (Step Forest)) (last : State Forest),
    (∀ step ∈ steps, step.isForward = true) ∧ run externals context steps (State.new Forest) = .ok last ∧
    ¬ PendingLive last.toPegTables last.utxos := by
  have played : plays [.grow (Reference.body [] [worthless ⟨5⟩]) [] noRpc,grow [],grow [],grow [],grow [],
      .grow (Reference.body [] [worthless ⟨5 + 2 ^ 160⟩]) [] noRpc] (fun steps last =>
        steps.all Step.isForward && pendingChanged last) = true := by decide +kernel
  obtain ⟨steps,last,ran,checked⟩ := playsRun played
  obtain ⟨forward,changed⟩ := Bool.and_eq_true_iff.mp checked
  refine ⟨steps,last,List.all_eq_true.mp forward,ran,fun live => ?_⟩
  obtain ⟨u,spent,differs⟩ := List.any_eq_true.mp changed
  exact of_decide_eq_true differs (live u spent)

end Reached

end Coinshift
