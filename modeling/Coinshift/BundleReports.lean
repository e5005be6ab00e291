import Coinshift.BundlePayout

/-! The recorded history of a bundle is what the main chain has reported of it.
A node that disconnects what it connected last, with the peg data it was connected with, keeps this in step
through every reorganisation. No assertion on the recorded statuses can fail then, as long as a bundle is
submitted in the block after it became pending and is not submitted again. -/
namespace Coinshift
open Checked

variable {F : Type} {lib : Externals F} {ctxt : BatchVerificationContext} {s last : State F}
  {steps : List (Step F)} {height : Nat}

namespace RollBack

variable {T : Type}

def toList (r : RollBack T) : List (HeightStamped T) := r.head :: r.tail

theorem latestOf {r : RollBack T} {before : List (HeightStamped T)} {x : HeightStamped T}
    (ends : r.toList = before ++ [x]) : r.latest = x := by
  obtain ⟨head,tail⟩ := r
  cases before with
  | nil =>
      cases ends
      rfl
  | cons first rest =>
      obtain ⟨_,same⟩ := List.cons.inj ends
      simp only at same
      simp only [latest,same,List.append_eq,List.getLast?_concat,Option.getD_some]

theorem popOf {r : RollBack T} {before : List (HeightStamped T)} {x : HeightStamped T}
    (ends : r.toList = before ++ [x]) : r.pop.2 = x ∧ (r.pop.1.map toList).getD [] = before := by
  obtain ⟨head,tail⟩ := r
  cases before with
  | nil =>
      cases ends
      exact ⟨rfl,rfl⟩
  | cons first rest =>
      obtain ⟨rfl,same⟩ := List.cons.inj ends
      simp only at same
      simp [pop,toList,same]

theorem pushList {r pushed : RollBack T} {value : T} (ok : r.push value height = some pushed) :
    pushed.toList = r.toList ++ [⟨value,height⟩] := by
  rw [(pushSource ok).2]
  rfl

theorem listSplit (r : RollBack T) : ∃ before x, r.toList = before ++ [x] := by
  rcases List.eq_nil_or_concat r.toList with none | ⟨before,x,ends⟩
  · cases none
  · exact ⟨before,x,ends.trans (List.concat_eq_append ..)⟩

theorem latestMem (r : RollBack T) : r.latest ∈ r.toList := by
  unfold latest
  cases isLast : r.tail.getLast? with
  | none => exact List.mem_cons_self
  | some x => exact List.mem_cons_of_mem _ (List.mem_of_getLast? isLast)

end RollBack

section Told

inductive Laid where
  | block (header : Header) (body : Body)
  | peg (data : TwoWayPegData)
  deriving DecidableEq, Repr

def laidStep (laid : List Laid) : Step F → Option (List Laid)
  | .connect header body => some (.block header body :: laid)
  | .connectPeg data _ => some (.peg data :: laid)
  | .disconnect header body =>
      match laid with
      | top :: rest => if top = .block header body then some rest else none
      | [] => none
  | .disconnectPeg data =>
      match laid with
      | top :: rest => if top = .peg data then some rest else none
      | [] => none
  | _ => some laid

/- Latest first; none when something else than the latest is disconnected. -/
def laidOf (steps : List (Step F)) : Option (List Laid) := steps.foldlM laidStep []

def laidBlocks : List Laid → Nat
  | [] => 0
  | .block .. :: rest => laidBlocks rest + 1
  | .peg _ :: rest => laidBlocks rest

def toldBy : List Laid → List (Nat × Hash × BlockEvent)
  | [] => []
  | .block .. :: rest => toldBy rest
  | .peg data :: rest => toldBy rest ++ data.events.map (fun event => (laidBlocks rest - 1,event))

theorem toldHeight {laid : List Laid} : ∀ told ∈ toldBy laid, told.1 ≤ laidBlocks laid - 1 := by
  induction laid with
  | nil =>
      intro told mem
      cases mem
  | cons top rest ih =>
      intro told mem
      cases top with
      | block header body =>
          have below := ih told mem
          rw [laidBlocks]
          omega
      | peg data =>
          rcases List.mem_append.mp mem with before | new
          · exact ih told before
          · obtain ⟨event,_,rfl⟩ := List.mem_map.mp new
            exact Nat.le_refl _

def SubmittedOnce (events : List (Hash × BlockEvent)) : Prop :=
  ∀ m6id, (reportsOf m6id events).count .submitted ≤ 1

variable {told : List (Nat × Hash × BlockEvent)} {event : Hash × BlockEvent} {m m6id : M6id}
  {reports : List WithdrawalBundleStatus} {status : WithdrawalBundleStatus}

theorem legalAfterAppend {more : List WithdrawalBundleStatus} {start : Option WithdrawalBundleStatus}
    (legal : legalAfter start (reports ++ more) = true) : legalAfter start reports = true := by
  induction reports generalizing start with
  | nil => rfl
  | cons first rest ih =>
      rw [List.cons_append,legalAfter,Bool.and_eq_true] at legal
      rw [legalAfter,Bool.and_eq_true]
      exact ⟨legal.1,ih legal.2⟩

theorem reportedBefore (legal : legalAfter none (reports ++ [status]) = true)
    (once : (reports ++ [status]).count .submitted ≤ 1) :
    (status = .submitted ∧ reports = []) ∨ (status ≠ .submitted ∧ reports = [.submitted]) := by
  cases reports with
  | nil => cases status <;> simp [legalAfter,mayFollow] at legal ⊢
  | cons first rest =>
      cases first <;> simp only [List.cons_append,legalAfter,mayFollow,Bool.false_and,Bool.true_and,Bool.false_eq_true] at legal
      cases rest with
      | nil => cases status <;> simp [legalAfter,mayFollow] at legal ⊢
      | cons second rest =>
          cases second with
          | submitted => simp [legalAfter,mayFollow] at legal
          | confirmed => cases rest <;> simp [legalAfter,mayFollow] at legal
          | failed =>
              cases rest with
              | nil =>
                  cases status <;> simp [legalAfter,mayFollow] at legal
                  simp at once
              | cons third rest =>
                  cases third <;> simp [legalAfter,mayFollow] at legal
                  simp [List.count_cons] at once

end Told

section Records

variable {told : List (Nat × Hash × BlockEvent)} {event : Hash × BlockEvent} {m m6id : M6id}
  {t t' : PegTables} {info : WithdrawalBundleInfo} {history : RollBack WithdrawalBundleStatus}

def stampedReports (m6id : M6id) (told : List (Nat × Hash × BlockEvent)) : List (HeightStamped WithdrawalBundleStatus) :=
  told.filterMap (fun entry => (entry.2.2.report m6id).map (⟨·,entry.1⟩))

theorem stampedValues : (stampedReports m6id told).map (·.value) = reportsOf m6id (told.map (·.2)) := by
  induction told with
  | nil => rfl
  | cons entry rest ih =>
      simp only [stampedReports,reportsOf,List.map_cons,List.filterMap_cons] at ih ⊢
      cases entry.2.2.report m6id with
      | none => exact ih
      | some status => exact congrArg (status :: ·) ih

theorem stampedConcat : stampedReports m6id (told ++ [(height,event)]) =
    stampedReports m6id told ++ ((event.2.report m6id).map (⟨·,height⟩)).toList := by
  rw [stampedReports,List.filterMap_append]
  cases report : event.2.report m6id with
  | none => simp [report,stampedReports]
  | some status => simp [report,stampedReports]

def PegTables.recorded (t : PegTables) (m6id : M6id) : List (HeightStamped WithdrawalBundleStatus) :=
  ((t.withdrawalBundles.tryGet m6id).map (·.2.toList)).getD []

def PegTables.failures (t : PegTables) : List (HeightStamped M6id) :=
  (t.latestFailedWithdrawalBundle.map RollBack.toList).getD []

structure Recorded (told : List (Nat × Hash × BlockEvent)) (t : PegTables) : Prop where
  reports : ∀ m6id, t.recorded m6id = stampedReports m6id told
  failures : ∀ failure ∈ t.failures, ∃ bundle history,
    t.withdrawalBundles.tryGet failure.value = some (.known bundle,history) ∧ history.latest = ⟨.failed,failure.height⟩
  distinct : (t.failures.map (·.value)).Nodup

theorem recordedOf (found : t.withdrawalBundles.tryGet m6id = some (info,history)) : t.recorded m6id = history.toList := by
  rw [PegTables.recorded,found]
  rfl

theorem recordedMissing : t.recorded m6id = [] ↔ t.withdrawalBundles.tryGet m6id = none := by
  unfold PegTables.recorded
  cases t.withdrawalBundles.tryGet m6id with
  | none => simp
  | some record => simp [RollBack.toList]

theorem recordedPut (bundles : t'.withdrawalBundles = t.withdrawalBundles.put m6id (info,history)) (m : M6id) :
    t'.recorded m = if m = m6id then history.toList else t.recorded m := by
  rw [PegTables.recorded,bundles,Table.tryGetPut]
  split
  · rfl
  · rfl

theorem Recorded.failuresKept (holds : Recorded told t) (failures : t'.failures = t.failures)
    (others : ∀ m, m ≠ m6id → t'.withdrawalBundles.tryGet m = t.withdrawalBundles.tryGet m)
    (notFailed : ∀ bundle history, t.withdrawalBundles.tryGet m6id = some (.known bundle,history) →
      history.latest.value ≠ .failed) :
    ∀ failure ∈ t'.failures, ∃ bundle history,
      t'.withdrawalBundles.tryGet failure.value = some (.known bundle,history) ∧ history.latest = ⟨.failed,failure.height⟩ := by
  intro failure mem
  rw [failures] at mem
  obtain ⟨bundle,history,found,isLatest⟩ := holds.failures failure mem
  refine ⟨bundle,history,?_,isLatest⟩
  rw [others failure.value]
  · exact found
  · rintro rfl
    refine notFailed bundle history found ?_
    rw [isLatest]

theorem Recorded.rewritten {told' : List (Nat × Hash × BlockEvent)} (holds : Recorded told t)
    (bundles : t'.withdrawalBundles = t.withdrawalBundles.put m6id (info,history))
    (own : history.toList = stampedReports m6id told')
    (others : ∀ m, m ≠ m6id → stampedReports m told' = stampedReports m told) (m : M6id) :
    t'.recorded m = stampedReports m told' := by
  rw [recordedPut bundles]
  split
  · next here => rw [here,own]
  · next other => rw [others m other,holds.reports]

theorem Recorded.write {told' : List (Nat × Hash × BlockEvent)} (holds : Recorded told t)
    (bundles : t'.withdrawalBundles = t.withdrawalBundles.put m6id (info,history))
    (failures : t'.failures = t.failures) (own : history.toList = stampedReports m6id told')
    (others : ∀ m, m ≠ m6id → stampedReports m told' = stampedReports m told)
    (notFailed : ∀ bundle history, t.withdrawalBundles.tryGet m6id = some (.known bundle,history) →
      history.latest.value ≠ .failed) : Recorded told' t' := by
  refine ⟨holds.rewritten bundles own others,?_,failures ▸ holds.distinct⟩
  refine holds.failuresKept failures (fun m other => ?_) notFailed
  rw [bundles,Table.tryGetPutOther other]

end Records

section Connect

variable {told : List (Nat × Hash × BlockEvent)} {event : Hash × BlockEvent} {m6id : M6id} {blockHash : Hash}
  {t t' : PegTables} {utxos : Table OutPoint Output} {status : WithdrawalBundleStatus}

/- Legal on the main chain, and no bundle submitted again. -/
structure Orderly (told : List (Nat × Hash × BlockEvent)) : Prop where
  legal : LegalOrder (told.map (·.2))
  once : SubmittedOnce (told.map (·.2))

theorem Orderly.earlier {more : List (Nat × Hash × BlockEvent)} (orderly : Orderly (told ++ more)) : Orderly told := by
  refine ⟨?_,?_⟩
  · intro m
    have legal := orderly.legal m
    rw [List.map_append,reportsOf,List.filterMap_append] at legal
    exact legalAfterAppend legal
  · intro m
    have once := orderly.once m
    rw [List.map_append,reportsOf,List.filterMap_append,List.count_append] at once
    exact Nat.le_trans (Nat.le_add_right _ _) once

theorem Orderly.before (orderly : Orderly (told ++ [(height,blockHash,.withdrawalBundle ⟨m6id,status⟩)]))
    (reports : t.recorded m6id = stampedReports m6id told) :
    (status = .submitted ∧ t.withdrawalBundles.tryGet m6id = none) ∨
    (status ≠ .submitted ∧ ∃ at_ info history, t.withdrawalBundles.tryGet m6id = some (info,history) ∧
      history.toList = [⟨.submitted,at_⟩] ∧ ⟨.submitted,at_⟩ ∈ stampedReports m6id told) := by
  have legal := orderly.legal m6id
  have once := orderly.once m6id
  have split : reportsOf m6id ((told ++ [(height,blockHash,BlockEvent.withdrawalBundle ⟨m6id,status⟩)]).map (·.2)) =
      (stampedReports m6id told).map (·.value) ++ [status] := by
    rw [← stampedValues,stampedConcat]
    simp [BlockEvent.report]
  rw [split] at legal once
  rcases reportedBefore legal once with ⟨isSubmitted,none⟩ | ⟨notSubmitted,one⟩
  · refine .inl ⟨isSubmitted,recordedMissing.mp ?_⟩
    rw [reports]
    exact List.map_eq_nil_iff.mp none
  · refine .inr ⟨notSubmitted,?_⟩
    obtain ⟨⟨value,at_⟩,isOne,rfl⟩ := List.map_eq_singleton_iff.mp one
    cases found : t.withdrawalBundles.tryGet m6id with
    | none =>
        rw [recordedMissing.mpr found,isOne] at reports
        cases reports
    | some record =>
        obtain ⟨info,history⟩ := record
        refine ⟨at_,info,history,rfl,?_,?_⟩
        · rw [← recordedOf found,reports,isOne]
        · rw [isOne]
          exact List.mem_cons_self

theorem stampedOther {m : M6id} (other : m ≠ m6id) :
    stampedReports m (told ++ [(height,blockHash,.withdrawalBundle ⟨m6id,status⟩)]) = stampedReports m told := by
  rw [stampedConcat]
  simp [BlockEvent.report,Ne.symm other]

theorem stampedOwn : stampedReports m6id (told ++ [(height,blockHash,.withdrawalBundle ⟨m6id,status⟩)]) =
    stampedReports m6id told ++ [⟨status,height⟩] := by
  rw [stampedConcat]
  simp [BlockEvent.report]

theorem pushedFailures {failures : Option (RollBack M6id)} {latest : RollBack M6id}
    (ok : pushLatestFailed height failures m6id = .ok latest) :
    latest.toList = (failures.map RollBack.toList).getD [] ++ [⟨m6id,height⟩] := by
  unfold pushLatestFailed at ok
  split at ok
  · rw [okOrOk] at ok
    exact RollBack.pushList ok
  · rw [pureOk] at ok
    subst ok
    rfl

theorem Recorded.connect {ops : List PegOp} (holds : Recorded told t) (orderly : Orderly (told ++ [(height,event)]))
    (happened : EventCase lib height utxos t event.2 ops t') : Recorded (told ++ [(height,event)]) t' := by
  obtain ⟨blockHash,what⟩ := event
  have submission {m6id : M6id} (orderly : Orderly (told ++ [(height,blockHash,.withdrawalBundle ⟨m6id,.submitted⟩)])) :
      t.withdrawalBundles.tryGet m6id = none := by
    rcases orderly.before (holds.reports m6id) with ⟨_,missing⟩ | ⟨notSubmitted,_⟩
    · exact missing
    · exact absurd rfl notSubmitted
  -- a report other than a submission finds the submission and nothing else on record
  have report {m6id : M6id} {status : WithdrawalBundleStatus} {info : WithdrawalBundleInfo}
      {history : RollBack WithdrawalBundleStatus} (later : status ≠ .submitted)
      (orderly : Orderly (told ++ [(height,blockHash,.withdrawalBundle ⟨m6id,status⟩)]))
      (found : t.withdrawalBundles.tryGet m6id = some (info,history)) :
      history.latest.value = .submitted ∧ history.toList = stampedReports m6id told := by
    rcases orderly.before (holds.reports m6id) with ⟨isSubmitted,_⟩ | ⟨_,at_,_,_,isFound,one,_⟩
    · exact absurd isSubmitted later
    · cases found.symm.trans isFound
      refine ⟨?_,?_⟩
      · rw [RollBack.latestOf (show history.toList = [] ++ [⟨.submitted,at_⟩] from one)]
      · rw [← recordedOf found,holds.reports]
  have missing {m6id : M6id} (none : t.withdrawalBundles.tryGet m6id = none) (bundle : WithdrawalBundle)
      (history : RollBack WithdrawalBundleStatus) (found : t.withdrawalBundles.tryGet m6id = some (.known bundle,history)) :
      history.latest.value ≠ .failed := by
    cases none.symm.trans found
  have submitted {m6id : M6id} {info : WithdrawalBundleInfo} {history : RollBack WithdrawalBundleStatus}
      (found : t.withdrawalBundles.tryGet m6id = some (info,history)) (live : history.latest.value = .submitted)
      (bundle : WithdrawalBundle) (h : RollBack WithdrawalBundleStatus)
      (isFound : t.withdrawalBundles.tryGet m6id = some (.known bundle,h)) : h.latest.value ≠ .failed := by
    cases found.symm.trans isFound
    rw [live]
    exact WithdrawalBundleStatus.noConfusion
  cases happened with
  | deposited d =>
      refine ⟨fun m => ?_,holds.failures,holds.distinct⟩
      rw [stampedConcat,holds.reports]
      simp [BlockEvent.report]
  | submitted pending own next =>
      have none := submission orderly
      refine holds.write rfl rfl ?_ (fun m other => stampedOther other) (missing none)
      rw [stampedOwn,← holds.reports,recordedMissing.mpr none]
      rfl
  | submittedAgain other recorded first => cases (submission orderly).symm.trans recorded
  | submittedUnknown other none =>
      refine holds.write rfl rfl ?_ (fun m other => stampedOther other) (missing none)
      rw [stampedOwn,← holds.reports,recordedMissing.mpr none]
      rfl
  | confirmedAgain recorded already =>
      cases (report WithdrawalBundleStatus.noConfusion orderly recorded).1.symm.trans already
  | confirmed recorded live push =>
      refine holds.write rfl rfl ?_ (fun m other => stampedOther other) (submitted recorded live)
      rw [stampedOwn,RollBack.pushList push,(report WithdrawalBundleStatus.noConfusion orderly recorded).2]
  | confirmedUnknown recorded unknown genesis live push =>
      refine holds.write rfl rfl ?_ (fun m other => stampedOther other) (submitted recorded live)
      rw [stampedOwn,RollBack.pushList push,(report WithdrawalBundleStatus.noConfusion orderly recorded).2]
  | failedAgain recorded already =>
      cases (report WithdrawalBundleStatus.noConfusion orderly recorded).1.symm.trans already
  | failedUnknown recorded unknown live push =>
      refine holds.write rfl rfl ?_ (fun m other => stampedOther other) (submitted recorded live)
      rw [stampedOwn,RollBack.pushList push,(report WithdrawalBundleStatus.noConfusion orderly recorded).2]
  | @failed m6id bundle history pushed latest recorded live push failures =>
      -- the same record with the failures as they were, and then the failure on top
      have written : Recorded (told ++ [(height,blockHash,.withdrawalBundle ⟨m6id,.failed⟩)])
          { t with withdrawalBundles := t.withdrawalBundles.put m6id (.known bundle,pushed) } := by
        refine holds.write rfl rfl ?_ (fun m other => stampedOther other) (submitted recorded live)
        rw [stampedOwn,RollBack.pushList push,(report WithdrawalBundleStatus.noConfusion orderly recorded).2]
      have list : PegTables.failures { t with
          withdrawalBundles := t.withdrawalBundles.put m6id (.known bundle,pushed)
          latestFailedWithdrawalBundle := some latest } = t.failures ++ [⟨m6id,height⟩] := pushedFailures failures
      have fresh : m6id ∉ t.failures.map (·.value) := by
        intro mem
        obtain ⟨failure,inside,rfl⟩ := List.mem_map.mp mem
        obtain ⟨b,h,found,isLatest⟩ := holds.failures failure inside
        refine submitted recorded live b h found ?_
        rw [isLatest]
      refine ⟨written.reports,?_,?_⟩
      · intro failure mem
        rw [list] at mem
        rcases List.mem_append.mp mem with before | new
        · exact written.failures failure before
        · cases List.mem_singleton.mp new
          exact ⟨bundle,pushed,Table.tryGetPutSelf,RollBack.pushLatest push⟩
      · rw [list,List.map_append,List.nodup_append]
        refine ⟨holds.distinct,List.nodup_singleton _,?_⟩
        rintro a mem b inside rfl
        cases List.mem_singleton.mp inside
        exact fresh mem

end Connect

section Disconnect

variable {told : List (Nat × Hash × BlockEvent)} {event : Hash × BlockEvent} {m6id : M6id} {p p' : PegProgress}
  {us : List (OutPoint × Output)} {info : WithdrawalBundleInfo} {history previous : RollBack WithdrawalBundleStatus}
  {status : WithdrawalBundleStatus}

theorem restoreKeeps (ok : us.foldlM (restoreOutput lib) p = .ok p') : p'.toPegTables = p.toPegTables := by
  refine foldInvariant (P := fun q => q.toPegTables = p.toPegTables) ?_ rfl ok
  intro q u q' _ same restored
  simp only [restoreOutput,bindOk,ensureOk,pureOk] at restored
  obtain ⟨_,_,rfl⟩ := restored
  exact same

theorem restoreKeepsRecords (ok : us.foldlM (restoreOutput lib) p = .ok p') :
    p'.withdrawalBundles = p.withdrawalBundles ∧ p'.latestFailedWithdrawalBundle = p.latestFailedWithdrawalBundle := by
  have same := restoreKeeps ok
  exact ⟨congrArg PegTables.withdrawalBundles same,congrArg PegTables.latestFailedWithdrawalBundle same⟩

theorem refailKeeps (ok : us.foldlM (refail lib m6id) p = .ok p') : p'.toPegTables = p.toPegTables := by
  refine foldInvariant (P := fun q => q.toPegTables = p.toPegTables) ?_ rfl ok
  intro q u q' _ same respent
  simp only [refail,bindOk,ensureOk,pureOk] at respent
  obtain ⟨_,_,rfl⟩ := respent
  exact same

theorem popStatusSource (ok : popStatus height history status = .ok previous) :
    history.pop.1 = some previous ∧ history.pop.2 = ⟨status,height⟩ := by
  simp only [popStatus,bindOk,ensureOk,okOrOk,pureOk] at ok
  obtain ⟨_,value,_,isHeight,_,isPrevious,_,_,rfl⟩ := ok
  exact ⟨isPrevious,by rw [← value,← isHeight]⟩

theorem undoSubmitted (ok : disconnectWithdrawalBundleSubmitted lib height p m6id = .ok p')
    (found : p.withdrawalBundles.tryGet m6id = some (info,history)) (latest : history.latest = ⟨.submitted,height⟩) :
    p'.withdrawalBundles = p.withdrawalBundles.delete m6id ∧
      p'.latestFailedWithdrawalBundle = p.latestFailedWithdrawalBundle := by
  simp only [disconnectWithdrawalBundleSubmitted,found,latest,bindOk,ensureOk] at ok
  obtain ⟨_,_,ok⟩ := ok
  simp only [and_self,if_true] at ok
  cases info with
  | known bundle =>
      simp only [bindOk,pureOk] at ok
      obtain ⟨q,outputs,_,rfl,rfl⟩ := ok
      obtain ⟨bundles,failures⟩ := restoreKeepsRecords outputs
      exact ⟨congrArg (Table.delete · m6id) bundles,failures⟩
  | unknown =>
      cases ok
      exact ⟨rfl,rfl⟩
  | unknownConfirmed spendUtxos =>
      cases ok
      exact ⟨rfl,rfl⟩

theorem undoConfirmed (ok : disconnectWithdrawalBundleConfirmed lib height p m6id = .ok p')
    (found : p.withdrawalBundles.tryGet m6id = some (info,history)) (later : history.pop.2.value ≠ .submitted) :
    ∃ info' previous, history.pop.1 = some previous ∧
      p'.withdrawalBundles = p.withdrawalBundles.put m6id (info',previous) ∧
      p'.latestFailedWithdrawalBundle = p.latestFailedWithdrawalBundle := by
  simp only [disconnectWithdrawalBundleConfirmed,found,okOr,okBind,if_neg later,bindOk] at ok
  obtain ⟨previous,popped,ok⟩ := ok
  cases info with
  | unknownConfirmed spendUtxos =>
      simp only [bindOk,pureOk] at ok
      obtain ⟨q,outputs,_,rfl,rfl⟩ := ok
      obtain ⟨bundles,failures⟩ := restoreKeepsRecords outputs
      exact ⟨.unknown,previous,(popStatusSource popped).1,congrArg (Table.put · m6id _) bundles,failures⟩
  | known bundle =>
      cases ok
      exact ⟨_,previous,(popStatusSource popped).1,rfl,rfl⟩
  | unknown =>
      cases ok
      exact ⟨_,previous,(popStatusSource popped).1,rfl,rfl⟩

theorem undoFailed (ok : disconnectWithdrawalBundleFailed lib height p m6id = .ok p')
    (found : p.withdrawalBundles.tryGet m6id = some (info,history)) (later : history.pop.2.value ≠ .submitted) :
    ∃ previous, history.pop.1 = some previous ∧
      p'.withdrawalBundles = p.withdrawalBundles.put m6id (info,previous) ∧
      ((∃ bundle failures, info = .known bundle ∧ p.latestFailedWithdrawalBundle = some failures ∧
          failures.pop.2.value = m6id ∧ p'.latestFailedWithdrawalBundle = failures.pop.1) ∨
        (∀ bundle, info ≠ .known bundle) ∧ p'.latestFailedWithdrawalBundle = p.latestFailedWithdrawalBundle) := by
  simp only [disconnectWithdrawalBundleFailed,found,okOr,okBind,if_neg later,bindOk] at ok
  obtain ⟨previous,popped,ok⟩ := ok
  refine ⟨previous,(popStatusSource popped).1,?_⟩
  cases info with
  | known bundle =>
      simp only [bindOk,pureOk,popLatestFailed,okOrOk,ensureOk] at ok
      obtain ⟨q,outputs,_,⟨failures,isLatest,_,value,_,_,rfl⟩,_,rfl,rfl⟩ := ok
      have same := refailKeeps outputs
      have bundles : q.withdrawalBundles = p.withdrawalBundles := congrArg PegTables.withdrawalBundles same
      have latest : q.latestFailedWithdrawalBundle = p.latestFailedWithdrawalBundle :=
        congrArg PegTables.latestFailedWithdrawalBundle same
      exact ⟨congrArg (Table.put · m6id _) bundles,.inl ⟨bundle,failures,rfl,latest.symm.trans isLatest,value,rfl⟩⟩
  | unknown =>
      cases ok
      exact ⟨rfl,.inr ⟨fun bundle => WithdrawalBundleInfo.noConfusion,rfl⟩⟩
  | unknownConfirmed spendUtxos =>
      cases ok
      exact ⟨rfl,.inr ⟨fun bundle => WithdrawalBundleInfo.noConfusion,rfl⟩⟩

theorem Recorded.undo {blockHash : Hash} (holds : Recorded (told ++ [(height,blockHash,.withdrawalBundle ⟨m6id,status⟩)]) p.toPegTables)
    (orderly : Orderly (told ++ [(height,blockHash,.withdrawalBundle ⟨m6id,status⟩)]))
    (ok : disconnectWithdrawalBundleEvent lib height p ⟨m6id,status⟩ = .ok p') : Recorded told p'.toPegTables := by
  have own := holds.reports m6id
  rw [stampedOwn] at own
  have others (m : M6id) (other : m ≠ m6id) : stampedReports m told =
      stampedReports m (told ++ [(height,blockHash,.withdrawalBundle ⟨m6id,status⟩)]) := (stampedOther other).symm
  cases found : p.withdrawalBundles.tryGet m6id with
  | none =>
      rw [recordedMissing.mpr found] at own
      exact absurd own.symm (List.append_ne_nil_of_right_ne_nil _ (List.cons_ne_nil _ _))
  | some record =>
      obtain ⟨info,history⟩ := record
      have list : history.toList = stampedReports m6id told ++ [⟨status,height⟩] := (recordedOf found).symm.trans own
      have latest := RollBack.latestOf list
      obtain ⟨popped,rest⟩ := RollBack.popOf list
      have notFailed (live : status ≠ .failed) (bundle : WithdrawalBundle) (h : RollBack WithdrawalBundleStatus)
          (isFound : p.withdrawalBundles.tryGet m6id = some (.known bundle,h)) : h.latest.value ≠ .failed := by
        cases found.symm.trans isFound
        rw [latest]
        exact live
      have previousList {previous : RollBack WithdrawalBundleStatus} (isPrevious : history.pop.1 = some previous) :
          previous.toList = stampedReports m6id told := by
        rw [isPrevious] at rest
        exact rest
      cases status with
      | submitted =>
          obtain ⟨bundles,failures⟩ := undoSubmitted ok found latest
          have sameFailures : p'.toPegTables.failures = p.toPegTables.failures := by rw [PegTables.failures,failures]; rfl
          refine ⟨?_,?_,sameFailures ▸ holds.distinct⟩
          · intro m
            rw [PegTables.recorded,bundles,Table.tryGetDelete]
            split
            · next here =>
                have values := orderly.legal m6id
                have once := orderly.once m6id
                rw [← stampedValues,stampedOwn,List.map_append] at values once
                rcases reportedBefore values once with ⟨_,none⟩ | ⟨notSubmitted,_⟩
                · rw [here,List.map_eq_nil_iff.mp none]
                  rfl
                · exact absurd rfl notSubmitted
            · next other => rw [others m other,← holds.reports m]; rfl
          · refine holds.failuresKept sameFailures (fun m other => ?_) (notFailed WithdrawalBundleStatus.noConfusion)
            rw [bundles,Table.tryGetDeleteOther other]
      | confirmed =>
          obtain ⟨info',previous,isPrevious,bundles,failures⟩ := undoConfirmed ok found (by
            rw [popped]
            exact WithdrawalBundleStatus.noConfusion)
          have sameFailures : p'.toPegTables.failures = p.toPegTables.failures := by rw [PegTables.failures,failures]; rfl
          exact holds.write bundles sameFailures (previousList isPrevious) others (notFailed WithdrawalBundleStatus.noConfusion)
      | failed =>
          obtain ⟨previous,isPrevious,bundles,which⟩ := undoFailed ok found (by
            rw [popped]
            exact WithdrawalBundleStatus.noConfusion)
          rcases which with ⟨bundle,failures,rfl,isLatest,value,after⟩ | ⟨unknown,failures⟩
          · obtain ⟨kept,x,ends⟩ := failures.listSplit
            obtain ⟨isPopped,remain⟩ := RollBack.popOf ends
            have before : p.toPegTables.failures = kept ++ [x] := by rw [PegTables.failures,isLatest]; exact ends
            have now : p'.toPegTables.failures = kept := by rw [PegTables.failures,after]; exact remain
            have distinct := holds.distinct
            rw [before,List.map_append,List.nodup_append] at distinct
            refine ⟨holds.rewritten bundles (previousList isPrevious) others,?_,now ▸ distinct.1⟩
            intro failure mem
            rw [now] at mem
            obtain ⟨b,h,isFound,isFailed⟩ := holds.failures failure (before ▸ List.mem_append_left _ mem)
            have own : x.value = m6id := isPopped ▸ value
            have other : failure.value ≠ m6id := by
              rw [← own]
              exact distinct.2.2 failure.value (List.mem_map_of_mem mem) x.value List.mem_cons_self
            exact ⟨b,h,by rw [bundles,Table.tryGetPutOther other,isFound],isFailed⟩
          · have sameFailures : p'.toPegTables.failures = p.toPegTables.failures := by rw [PegTables.failures,failures]; rfl
            refine holds.write bundles sameFailures (previousList isPrevious) others (fun bundle h isFound => ?_)
            cases found.symm.trans isFound
            exact absurd rfl (unknown bundle)

end Disconnect

section Run

variable {laid : List Laid}

structure LaidOut (laid : List Laid) (s : State F) : Prop where
  next : s.nextHeight = laidBlocks laid
  recorded : Recorded (toldBy laid) s.toPegTables

theorem LaidOut.tip (holds : LaidOut laid s) (atHeight : s.height = some height) : laidBlocks laid - 1 = height := by
  rw [← holds.next,State.nextHeight,atHeight]
  rfl

theorem Recorded.tables {told : List (Nat × Hash × BlockEvent)} {t t' : PegTables} (holds : Recorded told t)
    (bundles : t'.withdrawalBundles = t.withdrawalBundles)
    (failures : t'.latestFailedWithdrawalBundle = t.latestFailedWithdrawalBundle) : Recorded told t' := by
  have sameFailures : t'.failures = t.failures := by rw [PegTables.failures,failures]; rfl
  refine ⟨?_,?_,sameFailures ▸ holds.distinct⟩
  · intro m
    rw [PegTables.recorded,bundles]
    exact holds.reports m
  · rw [sameFailures,bundles]
    exact holds.failures

theorem Recorded.events {told : List (Nat × Hash × BlockEvent)} {events : List (Hash × BlockEvent)} {p p' : PegProgress}
    (holds : Recorded told p.toPegTables) (orderly : Orderly (told ++ events.map (height,·)))
    (ok : events.foldlM (connectEvent lib height) p = .ok p') : Recorded (told ++ events.map (height,·)) p'.toPegTables := by
  refine foldHistory (P := fun before q => Recorded (told ++ before.map (height,·)) q.toPegTables) ?_ ?_ ok
  · rw [List.map_nil,List.append_nil]
    exact holds
  · intro before event after q q' split _ connected now
    obtain ⟨ops,effect⟩ := eventEffect connected
    rw [List.map_append,← List.append_assoc]
    refine now.connect ?_ effect.cases
    have all : Orderly ((told ++ before.map (height,·) ++ [(height,event)]) ++ after.map (height,·)) := by
      have same : told ++ events.map (height,·) =
          (told ++ before.map (height,·) ++ [(height,event)]) ++ after.map (height,·) := by simp [split]
      exact same ▸ orderly
    exact all.earlier

theorem Recorded.unwind {told : List (Nat × Hash × BlockEvent)} {events : List (Hash × BlockEvent)} {p p' : PegProgress}
    (holds : Recorded (told ++ events.map (height,·)) p.toPegTables) (orderly : Orderly (told ++ events.map (height,·)))
    (ok : events.reverse.foldlM (disconnectEvent lib height) p = .ok p') : Recorded told p'.toPegTables := by
  induction events using List.reverseRecOn generalizing p with
  | nil =>
      cases foldNilOk.mp ok
      simpa using holds
  | append_singleton events event ih =>
      rw [List.reverse_append,List.reverse_singleton,List.singleton_append] at ok
      obtain ⟨middle,undone,rest⟩ := foldConsOk.mp ok
      rw [List.map_append,← List.append_assoc] at holds orderly
      refine ih ?_ orderly.earlier rest
      obtain ⟨blockHash,what⟩ := event
      cases what with
      | deposit d =>
          simp only [disconnectEvent,bindOk,ensureOk,pureOk] at undone
          obtain ⟨_,_,rfl⟩ := undone
          refine ⟨fun m => ?_,holds.failures,holds.distinct⟩
          have reports := holds.reports m
          rw [List.map_cons,List.map_nil,stampedConcat] at reports
          have none : (BlockEvent.deposit d).report m = none := rfl
          rw [none,Option.map_none,Option.toList_none,List.append_nil] at reports
          exact reports
      | withdrawalBundle report =>
          simp only [disconnectEvent,bindOk,pureOk] at undone
          obtain ⟨q,undone,rfl⟩ := undone
          have before : Recorded _ q.toPegTables := holds.undo orderly undone
          exact before

theorem LaidOut.step {x : Step F} {t : State F} {after : List Laid} (holds : LaidOut laid s) (orderly : Orderly (toldBy laid))
    (orderlyAfter : Orderly (toldBy after)) (lays : laidStep laid x = some after) (applied : x.apply lib ctxt s = .ok t) :
    LaidOut after t := by
  cases x with
  | connect header body =>
      obtain ⟨pre,source⟩ := connectBlockSource applied
      cases lays
      refine ⟨?_,?_⟩
      · rw [State.nextHeight,source.connected.height,laidBlocks,← holds.next]
      · exact holds.recorded.tables (congrArg PegTables.withdrawalBundles source.connected.pegs)
          (congrArg PegTables.latestFailedWithdrawalBundle source.connected.pegs)
  | connectPeg data rpc =>
      obtain ⟨height,progress,source⟩ := pegConnectSource applied
      cases lays
      refine ⟨?_,?_⟩
      · rw [State.nextHeight,(connectPegSource applied).height]
        exact holds.next
      · rw [toldBy,holds.tip source.atHeight] at orderlyAfter ⊢
        have told : Recorded _ progress.toPegTables := Recorded.events holds.recorded orderlyAfter source.events
        exact told.tables source.bundles source.failures
  | disconnect header body =>
      cases laid with
      | nil => cases lays
      | cons top rest =>
          simp only [laidStep] at lays
          split at lays
          · next isTop =>
              cases lays
              subst isTop
              have source := disconnectSource applied
              have next := disconnectNext applied
              rw [holds.next,laidBlocks] at next
              refine ⟨by omega,?_⟩
              exact holds.recorded.tables (congrArg PegTables.withdrawalBundles source.pegs)
                (congrArg PegTables.latestFailedWithdrawalBundle source.pegs)
          · cases lays
  | disconnectPeg data =>
      cases laid with
      | nil => cases lays
      | cons top rest =>
          simp only [laidStep] at lays
          split at lays
          · next isTop =>
              cases lays
              subst isTop
              obtain ⟨height,progress,source⟩ := pegDisconnectSource applied
              have tip : laidBlocks after - 1 = height := holds.tip source.atHeight
              have recorded := holds.recorded
              rw [toldBy,tip] at recorded orderly
              refine ⟨?_,?_⟩
              · rw [State.nextHeight,source.still]
                exact holds.next
              · have before : Recorded _ progress.toPegTables :=
                  Recorded.unwind (recorded.tables rfl rfl) orderly source.events
                exact before.tables source.bundles source.failures
          · cases lays
  | restoreAccumulator accumulator =>
      cases lays
      cases applied
      exact ⟨holds.next,holds.recorded⟩
  | localOp op =>
      cases lays
      simp only [Step.apply,bindOk,pureOk] at applied
      obtain ⟨w,_,rfl⟩ := applied
      exact ⟨holds.next,holds.recorded⟩

theorem newLaidOut : LaidOut [] (State.new F) := by
  refine ⟨rfl,?_,?_,List.nodup_nil⟩
  · intro m
    exact recordedMissing.mpr Table.tryGetEmpty
  · intro failure mem
    cases mem

def OrderlyRun (steps : List (Step F)) : Prop :=
  ∀ earlier later laid, steps = earlier ++ later → laidOf earlier = some laid → Orderly (toldBy laid)

theorem runLaidOut (orderly : OrderlyRun steps) (isLaid : laidOf steps = some laid)
    (ok : run lib ctxt steps (State.new F) = .ok last) : LaidOut laid last := by
  have all : ∀ now, laidOf steps = some now → LaidOut now last := by
    refine historyInvariant (P := fun earlier s => ∀ now, laidOf earlier = some now → LaidOut now s) ?_ ?_ ok
    · intro now isNow
      cases isNow
      exact newLaidOut
    · intro earlier s x t later split _ applied holds now isNow
      have upTo : steps = (earlier ++ [x]) ++ later := by rw [split,List.append_assoc,List.singleton_append]
      have orderlyNow := orderly (earlier ++ [x]) later now upTo isNow
      rw [laidOf,List.foldlM_append] at isNow
      obtain ⟨before,isBefore,lays⟩ := Option.bind_eq_some_iff.mp isNow
      rw [List.foldlM_cons] at lays
      obtain ⟨after,isAfter,same⟩ := Option.bind_eq_some_iff.mp lays
      cases Option.some.inj same
      exact (holds before isBefore).step (orderly earlier (x :: later) before split isBefore) orderlyNow isAfter applied
  exact all laid isLaid

end Run

section Calm

variable {told : List (Nat × Hash × BlockEvent)} {event : Hash × BlockEvent} {m6id : M6id} {p : PegProgress}
  {data : TwoWayPegData} {laid : List Laid}

/- No handler of an event panics, nor does the check of the gap after the latest failure. -/
structure ConnectsCalmly (lib : Externals F) (s : State F) (data : TwoWayPegData) : Prop where
  handlers : ∀ height before event after p, s.height = some height → data.events = before ++ event :: after →
    before.foldlM (connectEvent lib height) (PegProgress.start s) = .ok p →
    connectEvent lib height p event ≠ .error .panic
  gap : ∀ height p, s.height = some height →
    data.events.foldlM (connectEvent lib height) (PegProgress.start s) = .ok p →
    ∃ failed, p.toPegTables.getLatestFailedWithdrawalBundle = .ok failed ∧ (failed.map (·.1)).getD 0 ≤ height

/- The pending bundle is submitted in the block after the one it was collected in. -/
def Prompt (lib : Externals F) (s : State F) (data : TwoWayPegData) : Prop :=
  ∀ bundle collectedAt blockHash, s.pendingWithdrawalBundle = some (bundle,collectedAt) →
    (blockHash,.withdrawalBundle ⟨bundle.computeM6id lib,.submitted⟩) ∈ data.events → s.height = some (collectedAt + 1)

theorem stampedBelow (below : ∀ entry ∈ told, entry.1 ≤ height) {x : HeightStamped WithdrawalBundleStatus}
    (mem : x ∈ stampedReports m6id told) : x.height ≤ height := by
  obtain ⟨entry,inside,same⟩ := List.mem_filterMap.mp mem
  obtain ⟨_,_,rfl⟩ := Option.map_eq_some_iff.mp same
  exact below entry inside

theorem Recorded.failureBelow (holds : Recorded told p.toPegTables) (below : ∀ entry ∈ told, entry.1 ≤ height)
    {failures : RollBack M6id} (found : p.latestFailedWithdrawalBundle = some failures) :
    ∃ bundle history, p.withdrawalBundles.tryGet failures.latest.value = some (.known bundle,history) ∧
      history.latest = ⟨.failed,failures.latest.height⟩ ∧ failures.latest.height ≤ height := by
  have mem : failures.latest ∈ p.toPegTables.failures := by
    rw [PegTables.failures,found]
    exact failures.latestMem
  obtain ⟨bundle,history,recorded,isLatest⟩ := holds.failures failures.latest mem
  refine ⟨bundle,history,recorded,isLatest,?_⟩
  have inside := history.latestMem
  rw [← recordedOf recorded,holds.reports,isLatest] at inside
  exact stampedBelow below inside

theorem submittedPanics (panics : connectWithdrawalBundleSubmitted lib height p m6id = .error .panic) :
    (∃ bundle collectedAt, p.pendingWithdrawalBundle = some (bundle,collectedAt) ∧ bundle.computeM6id lib = m6id ∧
      collectedAt + 1 ≠ height) ∨ p.withdrawalBundles.tryGet m6id ≠ none := by
  unfold connectWithdrawalBundleSubmitted at panics
  split at panics
  · next bundle collectedAt found =>
      obtain ⟨pending,own⟩ := Option.filter_eq_some_iff.mp found
      simp only [bindError,ensureError,pureError,and_true,and_false,exists_false,or_false] at panics
      exact .inl ⟨bundle,collectedAt,pending,of_decide_eq_true own,panics⟩
  · split at panics
    · next recorded =>
        rw [recorded]
        exact .inr (Option.some_ne_none _)
    · simp only [pureError] at panics

theorem confirmedPanics {blockHash : Hash} (panics : connectWithdrawalBundleConfirmed lib height p blockHash m6id = .error .panic) :
    ∃ info history, p.withdrawalBundles.tryGet m6id = some (info,history) ∧
      (history.latest.value ≠ .submitted ∨ history.push .confirmed height = none) := by
  simp only [connectWithdrawalBundleConfirmed,bindError,okOrError,okOrOk,reduceCtorEq,and_false,false_or] at panics
  obtain ⟨⟨info,history⟩,recorded,panics⟩ := panics
  refine ⟨info,history,recorded,?_⟩
  split at panics
  · simp only [pureError] at panics
  · simp only [bindError,ensureError,and_true] at panics
    rcases panics with notSubmitted | ⟨_,_,panics⟩
    · exact .inl notSubmitted
    · refine .inr ?_
      cases info with
      | known bundle =>
          simp only [bindError,okOrError,pureError,pureOk,and_true,and_false,false_or,or_false,exists_false] at panics
          obtain ⟨_,_,push⟩ := panics
          exact push
      | _ =>
          simp only [bindError,ensureError,okOrError,pureError,pureOk,reduceCtorEq,and_true,and_false,false_or,or_false,
            exists_false] at panics
          obtain ⟨_,_,_,_,push⟩ := panics
          exact push

theorem failedPanics (panics : connectWithdrawalBundleFailed lib height p m6id = .error .panic) :
    ∃ info history, p.withdrawalBundles.tryGet m6id = some (info,history) ∧
      (history.latest.value ≠ .submitted ∨ history.push .failed height = none ∨
        ∃ failures, p.latestFailedWithdrawalBundle = some failures ∧ failures.push m6id height = none) := by
  simp only [connectWithdrawalBundleFailed,bindError,okOrError,okOrOk,reduceCtorEq,and_false,false_or] at panics
  obtain ⟨⟨info,history⟩,recorded,panics⟩ := panics
  refine ⟨info,history,recorded,?_⟩
  split at panics
  · simp only [pureError] at panics
  · simp only [bindError,ensureError,okOrError,okOrOk,and_true] at panics
    rcases panics with notSubmitted | ⟨_,_,push | ⟨pushed,_,panics⟩⟩
    · exact .inl notSubmitted
    · exact .inr (.inl push)
    · refine .inr (.inr ?_)
      cases info with
      | known bundle =>
          simp only [unspendsProgress,bindError,pureError,and_false,exists_false,or_false] at panics
          unfold pushLatestFailed at panics
          split at panics
          · next failures found =>
              rw [okOrError] at panics
              exact ⟨failures,found,panics.1⟩
          · simp only [pureError] at panics
      | _ => simp only [bindError,pureError,and_false,exists_false,or_false] at panics

theorem eventCalm (holds : Recorded told p.toPegTables) (below : ∀ entry ∈ told, entry.1 ≤ height)
    (orderly : Orderly (told ++ [(height,event)]))
    (prompt : ∀ bundle collectedAt, p.pendingWithdrawalBundle = some (bundle,collectedAt) →
      event.2 = .withdrawalBundle ⟨bundle.computeM6id lib,.submitted⟩ → collectedAt + 1 = height) :
    connectEvent lib height p event ≠ .error .panic := by
  obtain ⟨blockHash,what⟩ := event
  have pushes {T : Type} {r : RollBack T} {value : T} (isBelow : r.latest.height ≤ height) : r.push value height ≠ none := by
    rw [RollBack.push,if_neg (Nat.not_lt.mpr isBelow)]
    exact Option.some_ne_none _
  intro panics
  cases what with
  | deposit d => cases panics
  | withdrawalBundle report =>
      simp only [connectEvent,bindError,pureError,and_false,exists_false,or_false] at panics
      obtain ⟨m6id,status⟩ := report
      -- what is on record when the report comes in, and that it can be pushed to
      have submission {info : WithdrawalBundleInfo} {history : RollBack WithdrawalBundleStatus}
          (later : status ≠ .submitted) (found : p.withdrawalBundles.tryGet m6id = some (info,history)) :
          history.latest.value = .submitted ∧ history.latest.height ≤ height := by
        rcases orderly.before (holds.reports m6id) with ⟨isSubmitted,_⟩ | ⟨_,at_,_,_,isFound,one,inside⟩
        · exact absurd isSubmitted later
        · cases found.symm.trans isFound
          rw [RollBack.latestOf (show history.toList = [] ++ [⟨.submitted,at_⟩] from one)]
          exact ⟨rfl,stampedBelow below inside⟩
      cases status with
      | submitted =>
          rcases submittedPanics panics with ⟨bundle,collectedAt,pending,rfl,late⟩ | recorded
          · exact late (prompt bundle collectedAt pending rfl)
          · rcases orderly.before (holds.reports m6id) with ⟨_,missing⟩ | ⟨notSubmitted,_⟩
            · exact recorded missing
            · exact notSubmitted rfl
      | confirmed =>
          obtain ⟨info,history,found,why⟩ := confirmedPanics panics
          obtain ⟨isSubmitted,isBelow⟩ := submission WithdrawalBundleStatus.noConfusion found
          rcases why with notSubmitted | push
          · exact notSubmitted isSubmitted
          · exact pushes isBelow push
      | failed =>
          obtain ⟨info,history,found,why⟩ := failedPanics panics
          obtain ⟨isSubmitted,isBelow⟩ := submission WithdrawalBundleStatus.noConfusion found
          rcases why with notSubmitted | push | ⟨failures,isLatest,push⟩
          · exact notSubmitted isSubmitted
          · exact pushes isBelow push
          · obtain ⟨_,_,_,_,failureBelow⟩ := holds.failureBelow below isLatest
            exact pushes failureBelow push

theorem pendingBefore {events : List (Hash × BlockEvent)} {q : PegProgress} {pending : WithdrawalBundle × Nat}
    (ok : events.foldlM (connectEvent lib height) p = .ok q) (found : q.pendingWithdrawalBundle = some pending) :
    p.pendingWithdrawalBundle = some pending := by
  have all : ∀ now, q.pendingWithdrawalBundle = some now → p.pendingWithdrawalBundle = some now := by
    refine eventsInvariant (P := fun r => ∀ now, r.pendingWithdrawalBundle = some now →
      p.pendingWithdrawalBundle = some now) ?_ (fun _ same => same) ok
    intro r event r' ops _ holds effect now isNow
    exact holds now (eventPending effect.cases isNow)
  exact all pending found

theorem Recorded.gap (holds : Recorded told p.toPegTables) (below : ∀ entry ∈ told, entry.1 ≤ height) :
    ∃ failed, p.toPegTables.getLatestFailedWithdrawalBundle = .ok failed ∧ (failed.map (·.1)).getD 0 ≤ height := by
  unfold PegTables.getLatestFailedWithdrawalBundle
  cases found : p.latestFailedWithdrawalBundle with
  | none => exact ⟨none,rfl,Nat.zero_le _⟩
  | some failures =>
      obtain ⟨bundle,history,recorded,isLatest,isBelow⟩ := holds.failureBelow below found
      simp only [recorded,okOr,okBind,isLatest,ensure,if_true]
      exact ⟨_,rfl,isBelow⟩

/- Legal reports, no bundle submitted twice, and the pending one submitted right after it was collected. -/
theorem connectsCalmly (isLaid : laidOf steps = some laid) (ok : run lib ctxt steps (State.new F) = .ok last)
    (orderly : OrderlyRun steps) (next : Orderly (toldBy (.peg data :: laid))) (prompt : Prompt lib last data) :
    ConnectsCalmly lib last data := by
  have holds := runLaidOut orderly isLaid ok
  have below {height : Nat} (atHeight : last.height = some height) {events : List (Hash × BlockEvent)} :
      ∀ entry ∈ toldBy laid ++ events.map (height,·), entry.1 ≤ height := by
    intro entry mem
    rcases List.mem_append.mp mem with before | new
    · exact holds.tip atHeight ▸ toldHeight entry before
    · obtain ⟨_,_,rfl⟩ := List.mem_map.mp new
      exact Nat.le_refl _
  refine ⟨?_,?_⟩
  · intro height before event after p atHeight split folded
    rw [toldBy,holds.tip atHeight] at next
    have all : toldBy laid ++ data.events.map (height,·) =
        (toldBy laid ++ before.map (height,·) ++ [(height,event)]) ++ after.map (height,·) := by simp [split]
    rw [all] at next
    have upTo : Orderly (toldBy laid ++ before.map (height,·) ++ [(height,event)]) := next.earlier
    have told : Recorded _ p.toPegTables := Recorded.events holds.recorded upTo.earlier folded
    refine eventCalm told (below atHeight) upTo (fun bundle collectedAt pending isSubmitted => ?_)
    have isNext := prompt bundle collectedAt event.1 (pendingBefore folded pending) (by
      rw [split,← isSubmitted]
      exact List.mem_append_right before List.mem_cons_self)
    exact Option.some.inj (isNext.symm.trans atHeight)
  · intro height p atHeight folded
    rw [toldBy,holds.tip atHeight] at next
    have told : Recorded _ p.toPegTables := Recorded.events holds.recorded next folded
    exact told.gap (below atHeight)

end Calm

section Reached
open Reference

variable {steps : List (Step Forest)} {s : State Forest} {m6id : M6id}

def emptyBlock : Body := body [] []

def reporting (m6id : M6id) (status : WithdrawalBundleStatus) : TwoWayPegData := ⟨[(2,[.withdrawalBundle ⟨m6id,status⟩])]⟩

def panicsAfter (m6id : M6id) (status : WithdrawalBundleStatus) (steps : List (Step Forest)) (s : State Forest) : Bool :=
  match laidOf (steps ++ [.connect (mine s emptyBlock) emptyBlock]),connectBlock externals context s (mine s emptyBlock) emptyBlock with
  | some laid,.ok t =>
      let told := (toldBy (.peg (reporting m6id status) :: laid)).map (·.2)
      reportsOnly m6id told && (legalAfter none (reportsOf m6id told) && t.height.any (fun height =>
        match connectEvent externals height (PegProgress.start t) (2,.withdrawalBundle ⟨m6id,status⟩) with
        | .error .panic => true
        | _ => false))
  | _,_ => false

def PanicsOn (status : WithdrawalBundleStatus) : Prop :=
  ∃ (steps : List (Step Forest)) (last : State Forest) (laid : List Laid) (m6id : M6id),
    run externals context steps (State.new Forest) = .ok last ∧ laidOf steps = some laid ∧
    LegalOrder ((toldBy (.peg (reporting m6id status) :: laid)).map (·.2)) ∧
    ¬ ConnectsCalmly externals last (reporting m6id status)

theorem panicsAfterRun {status : WithdrawalBundleStatus} (ran : run externals context steps (State.new Forest) = .ok s)
    (panics : panicsAfter m6id status steps s = true) : PanicsOn status := by
  unfold panicsAfter at panics
  split at panics
  · next laid t isLaid connected =>
      simp only [Bool.and_eq_true] at panics
      obtain ⟨only,legal,panics⟩ := panics
      have applied : Step.apply externals context s (.connect (mine s emptyBlock) emptyBlock) = .ok t := connected
      refine ⟨steps ++ [.connect (mine s emptyBlock) emptyBlock],t,laid,m6id,
        foldAppendOk.mpr ⟨s,ran,foldConsOk.mpr ⟨t,applied,rfl⟩⟩,isLaid,legalOnly only legal,fun calm => ?_⟩
      obtain ⟨height,atHeight,panics⟩ := (Option.any_eq_true _ _).mp panics
      split at panics
      · next isPanic => exact calm.handlers height [] _ [] (PegProgress.start t) atHeight rfl rfl isPanic
      · cases panics
  · cases panics

/- Submitted two blocks after it was collected, and confirmed after it failed and was submitted again. -/
theorem lateOrRepeatedPanics : PanicsOn .submitted ∧ PanicsOn .confirmed := by
  have late : playsReported collected [[]] (fun steps s => panicsAfter (pendingId s) .submitted steps s) = true := by
    decide +kernel
  have repeated : playsReported collected [[.submitted],[.failed],[.submitted]] (fun steps s =>
      s.withdrawalBundles.entries.any (fun entry => panicsAfter entry.1 .confirmed steps s)) = true := by decide +kernel
  refine ⟨?_,?_⟩
  · obtain ⟨steps,s,ran,panics⟩ := playsReportedRun late
    exact panicsAfterRun ran panics
  · obtain ⟨steps,s,ran,checked⟩ := playsReportedRun repeated
    obtain ⟨entry,_,panics⟩ := List.any_eq_true.mp checked
    exact panicsAfterRun ran panics

theorem orderlyOnly {told : List (Nat × Hash × BlockEvent)} (only : reportsOnly m6id (told.map (·.2)) = true)
    (legal : legalAfter none (reportsOf m6id (told.map (·.2))) = true)
    (once : (reportsOf m6id (told.map (·.2))).count .submitted ≤ 1) : Orderly told := by
  refine ⟨legalOnly only legal,fun m => ?_⟩
  by_cases own : m = m6id
  · rw [own]
    exact once
  · rw [reportsElsewhere only own]
    exact Nat.zero_le _

theorem forwardOrderly {laid : List Laid} (forward : ∀ step ∈ steps, step.isForward = true)
    (isLaid : laidOf steps = some laid) (orderly : Orderly (toldBy laid)) : OrderlyRun steps := by
  rintro earlier later before rfl isBefore
  have extends_ (later : List (Step Forest)) (forward : ∀ step ∈ later, step.isForward = true) (before after : List Laid)
      (lays : later.foldlM laidStep before = some after) : ∃ more, toldBy after = toldBy before ++ more := by
    induction later generalizing before with
    | nil =>
        cases Option.some.inj lays
        exact ⟨[],(List.append_nil _).symm⟩
    | cons step rest ih =>
        rw [List.foldlM_cons] at lays
        obtain ⟨middle,first,more⟩ := Option.bind_eq_some_iff.mp lays
        obtain ⟨tail,told⟩ := ih (fun x mem => forward x (List.mem_cons_of_mem _ mem)) middle more
        have isForward := forward step List.mem_cons_self
        cases step with
        | connect header body =>
            cases first
            exact ⟨tail,told⟩
        | connectPeg data rpc =>
            cases first
            rw [told,toldBy,List.append_assoc]
            exact ⟨_,rfl⟩
        | localOp op =>
            cases first
            exact ⟨tail,told⟩
        | _ => cases isForward
  rw [laidOf,List.foldlM_append] at isLaid
  obtain ⟨middle,isMiddle,lays⟩ := Option.bind_eq_some_iff.mp isLaid
  cases isBefore.symm.trans isMiddle
  obtain ⟨more,told⟩ := extends_ later (fun x mem => forward x (List.mem_append_right _ mem)) before laid lays
  rw [told] at orderly
  exact orderly.earlier

def promptAfter (m6id : M6id) (steps : List (Step Forest)) (s : State Forest) : Bool :=
  match laidOf (steps ++ [.connect (mine s emptyBlock) emptyBlock]),connectBlock externals context s (mine s emptyBlock) emptyBlock with
  | some laid,.ok t =>
      let told := (toldBy (.peg (reporting m6id .submitted) :: laid)).map (·.2)
      steps.all Step.isForward && (reportsOnly m6id told && (legalAfter none (reportsOf m6id told) &&
        (decide ((reportsOf m6id told).count .submitted ≤ 1) && t.pendingWithdrawalBundle.any (fun pending =>
          pending.1.computeM6id externals = m6id && t.height = some (pending.2 + 1)))))
  | _,_ => false

theorem promptlySubmitted : ∃ (steps : List (Step Forest)) (last : State Forest) (laid : List Laid) (bundle : WithdrawalBundle)
    (collectedAt : Nat) (data : TwoWayPegData), laidOf steps = some laid ∧
    run externals context steps (State.new Forest) = .ok last ∧ OrderlyRun steps ∧ Orderly (toldBy (.peg data :: laid)) ∧
    last.pendingWithdrawalBundle = some (bundle,collectedAt) ∧
    data = reporting (bundle.computeM6id externals) .submitted ∧ Prompt externals last data ∧
    ConnectsCalmly externals last data := by
  have played : plays collected (fun steps s => promptAfter (pendingId s) steps s) = true := by decide +kernel
  obtain ⟨steps,s,ran,passes⟩ := playsRun played
  unfold promptAfter at passes
  split at passes
  · next laid t isLaid connected =>
      have applied : Step.apply externals context s (.connect (mine s emptyBlock) emptyBlock) = .ok t := connected
      have ok : run externals context (steps ++ [.connect (mine s emptyBlock) emptyBlock]) (State.new Forest) = .ok t :=
        foldAppendOk.mpr ⟨s,ran,foldConsOk.mpr ⟨t,applied,rfl⟩⟩
      simp only [Bool.and_eq_true] at passes
      obtain ⟨allForward,only,legal,once,pending⟩ := passes
      obtain ⟨⟨bundle,collectedAt⟩,isPending,isNext⟩ := (Option.any_eq_true _ _).mp pending
      obtain ⟨own,atHeight⟩ := Bool.and_eq_true_iff.mp isNext
      have orderly := orderlyOnly only legal (of_decide_eq_true once)
      have forward : ∀ step ∈ steps ++ [.connect (mine s emptyBlock) emptyBlock], step.isForward = true := by
        intro step mem
        rcases List.mem_append.mp mem with before | new
        · exact List.all_eq_true.mp allForward step before
        · rw [List.mem_singleton.mp new]
          rfl
      have orderlyRun := forwardOrderly forward isLaid orderly.earlier
      have prompt : Prompt externals t (reporting (pendingId s) .submitted) := by
        intro b at_ blockHash found _
        cases isPending.symm.trans found
        exact of_decide_eq_true atHeight
      refine ⟨_,t,laid,bundle,collectedAt,_,isLaid,ok,orderlyRun,orderly,isPending,?_,prompt,
        connectsCalmly isLaid ok orderlyRun orderly prompt⟩
      rw [← of_decide_eq_true own]
  · cases passes

end Reached

end Coinshift
