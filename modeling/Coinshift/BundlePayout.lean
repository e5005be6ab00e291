import Coinshift.ConnectTotal
import Coinshift.Provenance

/-! A bundle that the main chain may pay out has its outputs spent on the sidechain.
Bundles that are submitted or confirmed never share an outpoint, and the pending bundle shares none with
them: what one event does to the outputs of its own bundle leaves every other bundle alone. -/
namespace Coinshift
open Checked Keyed

variable {F : Type} {lib : Externals F} {ctxt : BatchVerificationContext} {s last : State F}
  {steps : List (Step F)} {height : Nat}

namespace RollBack

variable {T : Type}

theorem pushSource {r pushed : RollBack T} {value : T} (ok : r.push value height = some pushed) :
    r.latest.height ≤ height ∧ pushed = ⟨r.head,r.tail ++ [⟨value,height⟩]⟩ := by
  unfold push at ok
  split at ok
  · cases ok
  · next above => exact ⟨Nat.le_of_not_lt above,(Option.some.inj ok).symm⟩

theorem pushLatest {r pushed : RollBack T} {value : T} (ok : r.push value height = some pushed) :
    pushed.latest = ⟨value,height⟩ := by
  rw [(pushSource ok).2,latest,List.getLast?_concat,Option.getD_some]

end RollBack

section MainChain

def BlockEvent.report (m6id : M6id) : BlockEvent → Option WithdrawalBundleStatus
  | .withdrawalBundle event => if event.m6id = m6id then some event.status else none
  | .deposit _ => none

def reportsOf (m6id : M6id) (events : List (Hash × BlockEvent)) : List WithdrawalBundleStatus :=
  events.filterMap (fun event => event.2.report m6id)

def mainStatus (m6id : M6id) (events : List (Hash × BlockEvent)) : Option WithdrawalBundleStatus :=
  (reportsOf m6id events).getLast?

/- A bundle is submitted, then fails or is confirmed; one that failed may be submitted again. -/
def mayFollow : Option WithdrawalBundleStatus → WithdrawalBundleStatus → Bool
  | none, .submitted => true
  | some .submitted, .failed => true
  | some .submitted, .confirmed => true
  | some .failed, .submitted => true
  | _, _ => false

def legalAfter (status : Option WithdrawalBundleStatus) : List WithdrawalBundleStatus → Bool
  | [] => true
  | next :: rest => mayFollow status next && legalAfter (some next) rest

def LegalOrder (events : List (Hash × BlockEvent)) : Prop := ∀ m6id, legalAfter none (reportsOf m6id events) = true

def Step.mainEvents : Step F → List (Hash × BlockEvent)
  | .connectPeg data _ => data.events
  | _ => []

def mainEventsOf (steps : List (Step F)) : List (Hash × BlockEvent) := steps.flatMap Step.mainEvents

/- Coins that may be paid out on the main chain are not live on the sidechain. -/
def PayoutSafe (events : List (Hash × BlockEvent)) (s : State F) : Prop :=
  ∀ m6id bundle history, s.withdrawalBundles.tryGet m6id = some (.known bundle,history) →
    mainStatus m6id events = some .submitted ∨ mainStatus m6id events = some .confirmed →
    ∀ u ∈ bundle.spendUtxos, (s.stxos.tryGet u.1).isSome = true ∧ s.utxos.tryGet u.1 = none

end MainChain

section Events

structure TakesEvent (lib : Externals F) (ctxt : BatchVerificationContext) (steps : List (Step F)) (p : PegProgress)
    (height : Nat) (event : Hash × BlockEvent) : Prop where
  taken : ∃ s data rpc t later before after, Takes lib ctxt steps s (.connectPeg data rpc) t later ∧
    s.height = some height ∧ data.events = before ++ event :: after ∧
    before.foldlM (connectEvent lib height) (PegProgress.start s) = .ok p

theorem pegHistory {P : List (Hash × BlockEvent) → PegProgress → Prop} {s t : State F} {data : TwoWayPegData}
    {rpc : RpcReplies} {later earlier : List (Step F)} {progress : PegProgress}
    (split : steps = earlier ++ .connectPeg data rpc :: later) (reached : run lib ctxt earlier (State.new F) = .ok s)
    (applied : connectTwoWayPegData lib s data rpc = .ok t) (source : PegConnectSource lib s data t height progress)
    (start : P (mainEventsOf earlier) (PegProgress.start s))
    (step : ∀ events p event p' ops, TakesEvent lib ctxt steps p height event → P events p →
      EventEffect lib height p event p' ops → P (events ++ [event]) p') :
    P (mainEventsOf (earlier ++ [.connectPeg data rpc])) progress := by
  have told : mainEventsOf (earlier ++ [.connectPeg data rpc]) = mainEventsOf earlier ++ data.events := by
    rw [mainEventsOf,List.flatMap_append,List.flatMap_singleton]
    rfl
  rw [told]
  refine foldHistory (P := fun before p => P (mainEventsOf earlier ++ before) p) ?_ ?_ source.events
  · rw [List.append_nil]
    exact start
  · intro before event after p p' isSplit folded connected holds
    obtain ⟨ops,effect⟩ := eventEffect connected
    rw [← List.append_assoc]
    exact step _ p event p' ops ⟨s,data,rpc,t,later,before,after,⟨⟨earlier,split,reached⟩,applied⟩,source.atHeight,isSplit,folded⟩
      holds effect

end Events

section Live

variable {t t' : PegTables} {utxos : Table OutPoint Output} {m m6id : M6id} {b bundle : WithdrawalBundle} {o : OutPoint}

def PegTables.Live (t : PegTables) (m6id : M6id) (bundle : WithdrawalBundle) : Prop :=
  ∃ history, t.withdrawalBundles.tryGet m6id = some (.known bundle,history) ∧ history.latest.value ≠ .failed

def WithdrawalBundle.Spends (bundle : WithdrawalBundle) (o : OutPoint) : Prop := o ∈ bundle.spendUtxos.map (·.1)

def PegTables.PaysOut (t : PegTables) (o : OutPoint) : Prop := ∃ m6id bundle, t.Live m6id bundle ∧ bundle.Spends o

/- What live bundles pay out is spent, and no outpoint is paid out twice. -/
structure PaidOut (lib : Externals F) (t : PegTables) (l : Ledger) : Prop where
  spent : ∀ o, t.PaysOut o → (l.stxos.tryGet o).isSome = true ∧ l.utxos.tryGet o = none
  apart : ∀ m b m' b' o, t.Live m b → t.Live m' b' → b.Spends o → b'.Spends o → m = m'
  pending : ∀ m b p collectedAt o, t.Live m b → t.pendingWithdrawalBundle = some (p,collectedAt) → b.Spends o →
    p.Spends o → m = p.computeM6id lib

theorem eventLive {event : BlockEvent} {ops : List PegOp} (happened : EventCase lib height utxos t event ops t')
    (live : t'.Live m b) : t.Live m b ∨ ∃ collectedAt, t.pendingWithdrawalBundle = some (b,collectedAt) ∧
      b.computeM6id lib = m ∧ ops = b.spendUtxos.map (.spend m) ∧ t'.pendingWithdrawalBundle = none := by
  obtain ⟨history,found,isLive⟩ := live
  cases happened with
  | submitted pending own next =>
      rcases knownAfterPut found with ⟨rfl,same,_⟩ | ⟨_,before⟩
      · cases same
        exact .inr ⟨_,pending,own,rfl,rfl⟩
      · exact .inl ⟨history,before,isLive⟩
  | submittedUnknown other missing =>
      rcases knownAfterPut found with ⟨_,same,_⟩ | ⟨_,before⟩
      · cases same
      · exact .inl ⟨history,before,isLive⟩
  | confirmed recorded live push =>
      rcases knownAfterPut found with ⟨rfl,same,_⟩ | ⟨_,before⟩
      · cases same
        refine .inl ⟨_,recorded,?_⟩
        rw [live]
        exact WithdrawalBundleStatus.noConfusion
      · exact .inl ⟨history,before,isLive⟩
  | confirmedUnknown recorded unknown genesis live push =>
      rcases knownAfterPut found with ⟨_,same,_⟩ | ⟨_,before⟩
      · cases same
      · exact .inl ⟨history,before,isLive⟩
  | failed recorded live push failures =>
      rcases knownAfterPut found with ⟨_,_,rfl⟩ | ⟨_,before⟩
      · rw [RollBack.pushLatest push] at isLive
        exact absurd rfl isLive
      · exact .inl ⟨history,before,isLive⟩
  | failedUnknown recorded unknown live push =>
      rcases knownAfterPut found with ⟨_,same,_⟩ | ⟨_,before⟩
      · exact absurd same (unknown b)
      · exact .inl ⟨history,before,isLive⟩
  | _ => exact .inl ⟨history,found,isLive⟩

theorem eventPending {event : BlockEvent} {ops : List PegOp} (happened : EventCase lib height utxos t event ops t')
    {pending : WithdrawalBundle × Nat} (found : t'.pendingWithdrawalBundle = some pending) :
    t.pendingWithdrawalBundle = some pending := by
  cases happened with
  | submitted => cases found
  | _ => exact found

variable {l : Ledger} {us : List (OutPoint × Output)}

theorem spendsSpent (inside : o ∈ us.map (·.1)) : (((us.map (PegOp.spend m6id)).foldl PegOp.apply l).stxos.tryGet o).isSome = true := by
  induction us using List.reverseRecOn with
  | nil => cases inside
  | append_singleton us u ih =>
      rw [List.map_append,List.foldl_append]
      simp only [List.map_cons,List.map_nil,List.foldl_cons,List.foldl_nil,PegOp.apply,Table.tryGetPut]
      split
      · rfl
      · next other =>
          rw [List.map_append,List.mem_append] at inside
          rcases inside with before | here
          · exact ih before
          · exact absurd (List.mem_singleton.mp here) other

theorem spentElsewhere {ops : List PegOp} (spent : (l.stxos.tryGet o).isSome = true ∧ l.utxos.tryGet o = none)
    (away : ∀ op ∈ ops, op.utxo.1 ≠ o) : ((ops.foldl PegOp.apply l).stxos.tryGet o).isSome = true ∧
      (ops.foldl PegOp.apply l).utxos.tryGet o = none := by
  have same := @opsElsewhere l o ops away
  have unspent := congrArg Cell.unspent same
  have isSpent := congrArg Cell.spent same
  simp only [Ledger.cell] at unspent isSpent
  rw [unspent,isSpent]
  exact spent

theorem spendsKeepSpent (spent : (l.stxos.tryGet o).isSome = true ∧ l.utxos.tryGet o = none) :
    (((us.map (PegOp.spend m6id)).foldl PegOp.apply l).stxos.tryGet o).isSome = true ∧
      ((us.map (PegOp.spend m6id)).foldl PegOp.apply l).utxos.tryGet o = none := by
  by_cases inside : o ∈ us.map (·.1)
  · refine ⟨spendsSpent inside,?_⟩
    rw [spendsUnspent,if_pos inside]
  · refine spentElsewhere spent (fun op mem => ?_)
    obtain ⟨u,isOp,rfl⟩ := List.mem_map.mp mem
    rintro rfl
    exact inside (List.mem_map_of_mem isOp)

theorem PaidOut.eventSpent {event : BlockEvent} {ops : List PegOp} (holds : PaidOut lib t l)
    (happened : EventCase lib height l.utxos t event ops t')
    (fresh : ∀ d, event = .deposit d → ¬ t.PaysOut (.deposit d.txid d.vout)) (live : t.Live m b) (stays : t'.Live m b)
    (spends : b.Spends o) : ((ops.foldl PegOp.apply l).stxos.tryGet o).isSome = true ∧
      (ops.foldl PegOp.apply l).utxos.tryGet o = none := by
  have spent := holds.spent o ⟨m,b,live,spends⟩
  cases happened with
  | deposited d =>
      refine spentElsewhere spent (fun op mem => ?_)
      cases List.mem_singleton.mp mem
      rintro rfl
      exact fresh d rfl ⟨m,b,live,spends⟩
  | submitted pending own next => exact spendsKeepSpent spent
  | confirmedUnknown recorded unknown genesis isLive push => exact spendsKeepSpent spent
  | failed recorded isLive push failures =>
      refine spentElsewhere spent (fun op mem => ?_)
      obtain ⟨u,inside,rfl⟩ := List.mem_map.mp mem
      rintro rfl
      have submitted : t.Live _ _ := ⟨_,recorded,by rw [isLive]; exact WithdrawalBundleStatus.noConfusion⟩
      have own := holds.apart _ _ _ _ _ live submitted spends (List.mem_map_of_mem inside)
      obtain ⟨history,found,notFailed⟩ := stays
      rcases knownAfterPut found with ⟨_,_,rfl⟩ | ⟨other,_⟩
      · rw [RollBack.pushLatest push] at notFailed
        exact notFailed rfl
      · exact other own
  | _ => exact spentElsewhere spent (fun op mem => by cases mem)

theorem PaidOut.event {event : BlockEvent} {ops : List PegOp} (holds : PaidOut lib t l)
    (happened : EventCase lib height l.utxos t event ops t')
    (fresh : ∀ d, event = .deposit d → ¬ t.PaysOut (.deposit d.txid d.vout)) :
    PaidOut lib t' (ops.foldl PegOp.apply l) := by
  refine ⟨?_,?_,?_⟩
  · rintro o ⟨m,b,live,spends⟩
    rcases eventLive happened live with before | ⟨_,_,_,rfl,_⟩
    · exact holds.eventSpent happened fresh before live spends
    · refine ⟨spendsSpent spends,?_⟩
      rw [spendsUnspent]
      exact if_pos spends
  · intro m b m' b' o live live' spends spends'
    rcases eventLive happened live with before | ⟨_,isPending,own,_,_⟩
    · rcases eventLive happened live' with before' | ⟨_,isPending',own',_,_⟩
      · exact holds.apart m b m' b' o before before' spends spends'
      · exact (holds.pending m b b' _ o before isPending' spends spends').trans own'
    · rcases eventLive happened live' with before' | ⟨_,isPending',own',_,_⟩
      · exact (own.symm.trans (holds.pending m' b' b _ o before' isPending spends' spends).symm)
      · rw [isPending] at isPending'
        cases isPending'
        exact own.symm.trans own'
  · intro m b p collectedAt o live pending spends spends'
    rcases eventLive happened live with before | ⟨_,_,_,_,none⟩
    · exact holds.pending m b p collectedAt o before (eventPending happened pending) spends spends'
    · rw [none] at pending
      cases pending

theorem PaidOut.block {l' : Ledger} {header : Header} {body : Body} (holds : PaidOut lib t l)
    (connected : connectCoins lib header body l = .ok l') (inputs : ∀ o ∈ body.inputKeys, (l.utxos.tryGet o).isSome = true)
    (fresh : ∀ p ∈ blockCreates lib header body, ¬ t.PaysOut p.outpoint) : PaidOut lib t l' := by
  refine ⟨?_,holds.apart,holds.pending⟩
  intro o paid
  have spent := holds.spent o paid
  have unspent : o ∉ body.inputKeys := by
    intro isInput
    have present := inputs o isInput
    rw [spent.2] at present
    cases present
  have same := blockUntouched connected unspent (fun x created => fresh ⟨o,x⟩ created paid)
  have isUnspent := congrArg Cell.unspent same
  have isSpent := congrArg Cell.spent same
  simp only [Ledger.cell] at isUnspent isSpent
  rw [isUnspent,isSpent]
  exact spent

/- A newly collected bundle is made of unspent outputs, so of none that are paid out. -/
theorem PaidOut.collect {pending : Option (WithdrawalBundle × Nat)} (holds : PaidOut lib t l)
    (collected : collectPending lib t l.utxos height = .ok pending) (bundles : t'.withdrawalBundles = t.withdrawalBundles)
    (now : t'.pendingWithdrawalBundle = pending) : PaidOut lib t' l := by
  have live {m : M6id} {b : WithdrawalBundle} (isLive : t'.Live m b) : t.Live m b := by
    rwa [PegTables.Live,bundles] at isLive
  refine ⟨?_,?_,?_⟩
  · rintro o ⟨m,b,isLive,spends⟩
    exact holds.spent o ⟨m,b,live isLive,spends⟩
  · intro m b m' b' o isLive isLive'
    exact holds.apart m b m' b' o (live isLive) (live isLive')
  · intro m b p collectedAt o isLive found spends spends'
    rw [now] at found
    rcases collectPendingSource collected with same | ⟨_,_,fresh⟩
    · exact holds.pending m b p collectedAt o (live isLive) (same ▸ found) spends spends'
    · obtain ⟨_,source⟩ := fresh p collectedAt found
      obtain ⟨u,inside,rfl⟩ := List.mem_map.mp spends'
      have unspent := source.unspent u inside
      rw [(holds.spent u.1 ⟨m,b,live isLive,spends⟩).2] at unspent
      cases unspent

end Live

section Reports

variable {t t' : PegTables} {utxos : Table OutPoint Output} {m : M6id} {events : List (Hash × BlockEvent)}
  {event : Hash × BlockEvent}

theorem mainStatusConcat : mainStatus m (events ++ [event]) = (event.2.report m).or (mainStatus m events) := by
  rw [mainStatus,reportsOf,List.filterMap_append,List.getLast?_append]
  cases report : event.2.report m with
  | none => simp [report,mainStatus,reportsOf]
  | some status => simp [report]

def Reported (events : List (Hash × BlockEvent)) (t : PegTables) : Prop :=
  ∀ m bundle history, t.withdrawalBundles.tryGet m = some (.known bundle,history) → history.latest.value = .failed →
    mainStatus m events = some .failed

def Resubmits (lib : Externals F) (t : PegTables) (event : BlockEvent) : Prop :=
  ∃ m6id bundle history, event = .withdrawalBundle ⟨m6id,.submitted⟩ ∧
    t.withdrawalBundles.tryGet m6id = some (.known bundle,history) ∧ history.latest.value = .failed ∧
    ∀ p collectedAt, t.pendingWithdrawalBundle = some (p,collectedAt) → p.computeM6id lib ≠ m6id

theorem Reported.after {ops : List PegOp} (holds : Reported events t)
    (happened : EventCase lib height utxos t event.2 ops t') (allowed : ¬ Resubmits lib t event.2) :
    Reported (events ++ [event]) t' := by
  obtain ⟨blockHash,what⟩ := event
  have other {m6id m : M6id} {status : WithdrawalBundleStatus} (differs : m ≠ m6id) :
      mainStatus m (events ++ [(blockHash,.withdrawalBundle ⟨m6id,status⟩)]) = mainStatus m events := by
    rw [mainStatusConcat]
    simp [BlockEvent.report,Ne.symm differs]
  have own {m6id : M6id} {status : WithdrawalBundleStatus} :
      mainStatus m6id (events ++ [(blockHash,.withdrawalBundle ⟨m6id,status⟩)]) = some status := by
    rw [mainStatusConcat]
    simp [BlockEvent.report]
  intro m bundle history found failed
  cases happened with
  | deposited d =>
      rw [mainStatusConcat]
      exact holds m bundle history found failed
  | submitted pending isOwn next =>
      rcases knownAfterPut found with ⟨_,_,rfl⟩ | ⟨differs,before⟩
      · cases failed
      · exact (other differs).trans (holds m bundle history before failed)
  | @submittedAgain m6id _ _ notPending recorded first =>
      by_cases here : m = m6id
      · subst here
        exact absurd ⟨m,bundle,history,rfl,found,failed,notPending⟩ allowed
      · exact (other here).trans (holds m bundle history found failed)
  | submittedUnknown notPending missing =>
      rcases knownAfterPut found with ⟨_,same,_⟩ | ⟨differs,before⟩
      · cases same
      · exact (other differs).trans (holds m bundle history before failed)
  | @confirmedAgain m6id _ _ recorded already =>
      by_cases here : m = m6id
      · subst here
        cases recorded.symm.trans found
        cases already.symm.trans failed
      · exact (other here).trans (holds m bundle history found failed)
  | confirmed recorded live push =>
      rcases knownAfterPut found with ⟨_,_,rfl⟩ | ⟨differs,before⟩
      · rw [RollBack.pushLatest push] at failed
        cases failed
      · exact (other differs).trans (holds m bundle history before failed)
  | confirmedUnknown recorded unknown genesis live push =>
      rcases knownAfterPut found with ⟨_,same,_⟩ | ⟨differs,before⟩
      · cases same
      · exact (other differs).trans (holds m bundle history before failed)
  | @failedAgain m6id _ _ recorded already =>
      by_cases here : m = m6id
      · subst here
        exact own
      · exact (other here).trans (holds m bundle history found failed)
  | failed recorded live push failures =>
      rcases knownAfterPut found with ⟨rfl,_,_⟩ | ⟨differs,before⟩
      · exact own
      · exact (other differs).trans (holds m bundle history before failed)
  | failedUnknown recorded unknown live push =>
      rcases knownAfterPut found with ⟨rfl,_,_⟩ | ⟨differs,before⟩
      · exact own
      · exact (other differs).trans (holds m bundle history before failed)

end Reports

section Run

/- No failed bundle is submitted again, and nothing is created at an outpoint that is being paid out. -/
structure PayoutDiscipline (lib : Externals F) (ctxt : BatchVerificationContext) (steps : List (Step F)) : Prop where
  submissions : ∀ p height event, TakesEvent lib ctxt steps p height event → ¬ Resubmits lib p.toPegTables event.2
  blocks : ∀ s header body t later, Takes lib ctxt steps s (.connect header body) t later →
    ∀ created ∈ blockCreates lib header body, ¬ s.toPegTables.PaysOut created.outpoint
  deposits : ∀ p height blockHash d, TakesEvent lib ctxt steps p height (blockHash,.deposit d) →
    ¬ p.toPegTables.PaysOut (.deposit d.txid d.vout)

theorem payoutStep {earlier later : List (Step F)} {x : Step F} {t : State F} (forward : x.isForward = true)
    (discipline : PayoutDiscipline lib ctxt steps) (split : steps = earlier ++ x :: later)
    (reached : run lib ctxt earlier (State.new F) = .ok s) (applied : x.apply lib ctxt s = .ok t)
    (holds : PaidOut lib s.toPegTables s.toLedger ∧ Reported (mainEventsOf earlier) s.toPegTables) :
    PaidOut lib t.toPegTables t.toLedger ∧ Reported (mainEventsOf (earlier ++ [x])) t.toPegTables := by
  have quiet (none : x.mainEvents = []) : mainEventsOf (earlier ++ [x]) = mainEventsOf earlier := by
    rw [mainEventsOf,List.flatMap_append,List.flatMap_singleton,none,List.append_nil]
    rfl
  cases x with
  | connect header body =>
      obtain ⟨pre,source⟩ := connectBlockSource applied
      rw [quiet rfl,source.connected.pegs]
      refine ⟨holds.1.block source.connected.coins ?_ ?_,holds.2⟩
      · exact fun o isInput => inputsPresent source.validated.transactions isInput
      · exact discipline.blocks s header body t later ⟨⟨earlier,split,reached⟩,applied⟩
  | connectPeg data rpc =>
      obtain ⟨height,progress,source⟩ := pegConnectSource applied
      obtain ⟨paid,reported⟩ := pegHistory
        (P := fun events p => PaidOut lib p.toPegTables p.toLedger ∧ Reported events p.toPegTables)
        split reached applied source holds (by
          intro events p event p' ops takes now effect
          refine ⟨?_,now.2.after effect.cases (discipline.submissions p height event takes)⟩
          rw [effect.ledger]
          refine now.1.event effect.cases (fun d isDeposit => ?_)
          exact discipline.deposits p height event.1 d (isDeposit ▸ takes))
      refine ⟨?_,?_⟩
      · rw [source.ledger]
        exact paid.collect source.pending source.bundles rfl
      · intro m bundle history found
        exact reported m bundle history (source.bundles ▸ found)
  | localOp op =>
      simp only [Step.apply,bindOk,pureOk] at applied
      obtain ⟨w,_,rfl⟩ := applied
      rw [quiet rfl]
      exact holds
  | _ => cases forward

theorem newPaidOut : PaidOut lib (State.new F).toPegTables (State.new F).toLedger := by
  have none (m : M6id) (b : WithdrawalBundle) : ¬ (State.new F).toPegTables.Live m b := by
    rintro ⟨history,found,_⟩
    cases Table.tryGetEmpty.symm.trans found
  refine ⟨?_,?_,?_⟩
  · rintro o ⟨m,b,live,_⟩
    exact absurd live (none m b)
  · intro m b m' b' o live
    exact absurd live (none m b)
  · intro m b p collectedAt o live
    exact absurd live (none m b)

theorem payoutSafe (forward : ∀ step ∈ steps, step.isForward = true) (discipline : PayoutDiscipline lib ctxt steps)
    (ok : run lib ctxt steps (State.new F) = .ok last) : PayoutSafe (mainEventsOf steps) last := by
  have holds : PaidOut lib last.toPegTables last.toLedger ∧ Reported (mainEventsOf steps) last.toPegTables := by
    refine historyInvariant (P := fun earlier s => PaidOut lib s.toPegTables s.toLedger ∧
      Reported (mainEventsOf earlier) s.toPegTables) ⟨newPaidOut,?_⟩ ?_ ok
    · intro m bundle history found
      cases Table.tryGetEmpty.symm.trans found
    · intro earlier s x t later split reached applied now
      have isForward := forward x (split ▸ List.mem_append_right earlier List.mem_cons_self)
      exact payoutStep isForward discipline split reached applied now
  intro m6id bundle history found status u inside
  refine holds.1.spent u.1 ⟨m6id,bundle,⟨history,found,fun failed => ?_⟩,List.mem_map_of_mem inside⟩
  rw [holds.2 m6id bundle history found failed] at status
  rcases status with submitted | confirmed
  · cases submitted
  · cases confirmed

end Run

section Reached
open Reference

def paysTwice (steps : List (Step Forest)) (s : State Forest) : Bool :=
  s.withdrawalBundles.entries.any (fun entry =>
    match entry.2.1 with
    | .known bundle => mainStatus entry.1 (mainEventsOf steps) = some .submitted &&
        bundle.spendUtxos.any (fun u => (s.utxos.tryGet u.1).isSome)
    | _ => false)

theorem paysTwiceUnsafe {steps : List (Step Forest)} {s : State Forest} (twice : paysTwice steps s = true) :
    ¬ PayoutSafe (mainEventsOf steps) s := by
  intro safe
  obtain ⟨⟨m6id,info,history⟩,entry,found⟩ := List.any_eq_true.mp twice
  cases info with
  | known bundle =>
      obtain ⟨submitted,unspent⟩ := Bool.and_eq_true_iff.mp found
      obtain ⟨u,inside,isUnspent⟩ := List.any_eq_true.mp unspent
      have paid := safe m6id bundle history (Table.memEntries.mp entry) (.inl (of_decide_eq_true submitted)) u inside
      rw [paid.2] at isUnspent
      cases isUnspent
  | _ => cases found

def reportsOnly (m6id : M6id) (events : List (Hash × BlockEvent)) : Bool :=
  events.all (fun event =>
    match event.2 with
    | .withdrawalBundle report => report.m6id = m6id
    | .deposit _ => true)

theorem reportsElsewhere {m m6id : M6id} {events : List (Hash × BlockEvent)} (only : reportsOnly m6id events = true)
    (other : m ≠ m6id) : reportsOf m events = [] := by
  rw [reportsOf,List.filterMap_eq_nil_iff]
  intro event mem
  have isOnly := List.all_eq_true.mp only event mem
  unfold BlockEvent.report
  split
  · next report isReport =>
      simp only [isReport] at isOnly
      rw [if_neg (fun here => other (here.symm.trans (of_decide_eq_true isOnly)))]
  · rfl

theorem legalOnly {m6id : M6id} {events : List (Hash × BlockEvent)} (only : reportsOnly m6id events = true)
    (legal : legalAfter none (reportsOf m6id events) = true) : LegalOrder events := by
  intro m
  by_cases own : m = m6id
  · rw [own]
    exact legal
  · rw [reportsElsewhere only own]
    rfl

/- Submitted, failed and submitted again: the coins are back among the utxos when the bundle may be paid out. -/
theorem failedPaidAgain : ∃ (steps : List (Step Forest)) (last : State Forest),
    (∀ step ∈ steps, step.isForward = true) ∧ run externals context steps (State.new Forest) = .ok last ∧
    LegalOrder (mainEventsOf steps) ∧ ¬ PayoutSafe (mainEventsOf steps) last := by
  have played : playsReported collected [[.submitted],[.failed],[.submitted]] (fun steps s =>
      steps.all Step.isForward && (s.withdrawalBundles.entries.any (fun entry =>
        reportsOnly entry.1 (mainEventsOf steps) && legalAfter none (reportsOf entry.1 (mainEventsOf steps))) &&
        paysTwice steps s)) = true := by decide +kernel
  obtain ⟨steps,last,ran,checked⟩ := playsReportedRun played
  obtain ⟨forward,checked⟩ := Bool.and_eq_true_iff.mp checked
  obtain ⟨legal,twice⟩ := Bool.and_eq_true_iff.mp checked
  obtain ⟨entry,_,order⟩ := List.any_eq_true.mp legal
  obtain ⟨only,isLegal⟩ := Bool.and_eq_true_iff.mp order
  exact ⟨steps,last,List.all_eq_true.mp forward,ran,legalOnly only isLegal,paysTwiceUnsafe twice⟩

def paysOut (t : PegTables) (o : OutPoint) : Bool :=
  t.withdrawalBundles.entries.any (fun entry =>
    match entry.2.1 with
    | .known bundle => o ∈ bundle.spendUtxos.map (·.1)
    | _ => false)

theorem paysOutOf {t : PegTables} {o : OutPoint} (paid : t.PaysOut o) : paysOut t o = true := by
  obtain ⟨m6id,bundle,⟨history,found,_⟩,spends⟩ := paid
  exact List.any_eq_true.mpr ⟨(m6id,.known bundle,history),Table.memEntries.mpr found,decide_eq_true spends⟩

def eventDisciplined (p : PegProgress) (event : Hash × BlockEvent) : Bool :=
  match event.2 with
  | .deposit d => !paysOut p.toPegTables (.deposit d.txid d.vout)
  | .withdrawalBundle ⟨m6id,.submitted⟩ => (p.withdrawalBundles.tryGet m6id).all (fun record => record.2.latest.value ≠ .failed)
  | _ => true

def stepDisciplined (s : State Forest) : Step Forest → Bool
  | .connect header body => (blockCreates externals header body).all (fun created => !paysOut s.toPegTables created.outpoint)
  | .connectPeg data _ => s.height.all (fun height =>
      every (connectEvent externals height) eventDisciplined data.events (PegProgress.start s))
  | step => step.isForward

theorem disciplined {steps : List (Step Forest)} (passes : everyStep stepDisciplined steps (State.new Forest) = true) :
    PayoutDiscipline externals context steps := by
  have taken {p : PegProgress} {height : Nat} {event : Hash × BlockEvent}
      (takes : TakesEvent externals context steps p height event) : eventDisciplined p event = true := by
    obtain ⟨s,data,rpc,t,later,before,after,step,atHeight,split,reached⟩ := takes.taken
    have passed := everyStepTakes passes step
    simp only [stepDisciplined,atHeight,Option.all_some,split] at passed
    exact everyTaken passed reached
  refine ⟨?_,?_,?_⟩
  · rintro p height ⟨blockHash,event⟩ takes ⟨m6id,bundle,history,rfl,found,failed,_⟩
    have passed := taken takes
    simp [eventDisciplined,found,failed] at passed
  · intro s header body t later takes created mem paid
    have passed := List.all_eq_true.mp (everyStepTakes passes takes) created mem
    rw [paysOutOf paid] at passed
    cases passed
  · intro p height blockHash d takes paid
    have passed := taken takes
    simp only [eventDisciplined,paysOutOf paid] at passed
    cases passed

theorem confirmedPaysOnce : ∃ (steps : List (Step Forest)) (last : State Forest),
    (∀ step ∈ steps, step.isForward = true) ∧ PayoutDiscipline externals context steps ∧
    run externals context steps (State.new Forest) = .ok last ∧ PayoutSafe (mainEventsOf steps) last ∧
    ∃ m6id bundle history, last.withdrawalBundles.tryGet m6id = some (.known bundle,history) ∧
      mainStatus m6id (mainEventsOf steps) = some .confirmed ∧ bundle.spendUtxos ≠ [] := by
  have played : playsReported collected [[.submitted],[],[.confirmed]] (fun steps s =>
      steps.all Step.isForward && (everyStep stepDisciplined steps (State.new Forest) &&
        s.withdrawalBundles.entries.any (fun entry =>
          match entry.2.1 with
          | .known bundle => mainStatus entry.1 (mainEventsOf steps) = some .confirmed && !bundle.spendUtxos.isEmpty
          | _ => false))) = true := by decide +kernel
  obtain ⟨steps,last,ran,checked⟩ := playsReportedRun played
  obtain ⟨allForward,checked⟩ := Bool.and_eq_true_iff.mp checked
  obtain ⟨passes,confirmed⟩ := Bool.and_eq_true_iff.mp checked
  have forward : ∀ step ∈ steps, step.isForward = true := List.all_eq_true.mp allForward
  refine ⟨steps,last,forward,disciplined passes,ran,payoutSafe forward (disciplined passes) ran,?_⟩
  obtain ⟨⟨m6id,info,history⟩,entry,found⟩ := List.any_eq_true.mp confirmed
  cases info with
  | known bundle =>
      obtain ⟨isConfirmed,nonempty⟩ := Bool.and_eq_true_iff.mp found
      refine ⟨m6id,bundle,history,Table.memEntries.mp entry,of_decide_eq_true isConfirmed,?_⟩
      intro empty
      simp [empty] at nonempty
  | _ => cases found

end Reached

end Coinshift
