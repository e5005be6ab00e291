import Coinshift.LedgerOps
import Coinshift.TwoWayPegData
import Mathlib.Data.List.Perm.Subperm

/-! What one event of the peg can do, told once.
On the ledger it is a list of operations, each on one outpoint and each with its request to the
accumulator; on the bundle tables it is one of the cases of `EventCase`. -/
namespace Coinshift
open Checked

inductive PegOp where
  | deposit (utxo : OutPoint × Output)
  | spend (m6id : M6id) (utxo : OutPoint × Output)
  | unspend (utxo : OutPoint × Output)
  deriving DecidableEq, Repr

namespace PegOp

def utxo : PegOp → OutPoint × Output
  | deposit utxo | spend _ utxo | unspend utxo => utxo

def isSpend : PegOp → Bool
  | spend .. => true
  | _ => false

def apply (l : Ledger) : PegOp → Ledger
  | deposit utxo => { l with utxos := l.utxos.put utxo.1 utxo.2 }
  | spend m6id utxo => ⟨l.utxos.delete utxo.1,l.stxos.put utxo.1 ⟨utxo.2,.withdrawal m6id⟩⟩
  | unspend utxo => ⟨l.utxos.put utxo.1 utxo.2,l.stxos.delete utxo.1⟩

variable {F : Type} (lib : Externals F)

def leaf (op : PegOp) : Hash := utxoHash lib ⟨op.utxo.1,op.utxo.2⟩

def request (op : PegOp) : Bool × Hash := (!op.isSpend,op.leaf lib)

end PegOp

variable {F : Type} {lib : Externals F}

section Events

/- Submitted with all its conditions: the bundle that is pending, one on record, or one never heard of. -/
inductive EventCase (lib : Externals F) (height : Nat) (utxos : Table OutPoint Output) (t : PegTables) :
    BlockEvent → List PegOp → PegTables → Prop where
  | deposited (d : Deposit) :
      EventCase lib height utxos t (.deposit d) [.deposit (.deposit d.txid d.vout,d.output)] t
  | submitted {m6id : M6id} {bundle : WithdrawalBundle} {collectedAt : Nat}
      (pending : t.pendingWithdrawalBundle = some (bundle,collectedAt)) (own : bundle.computeM6id lib = m6id)
      (next : collectedAt + 1 = height) :
      EventCase lib height utxos t (.withdrawalBundle ⟨m6id,.submitted⟩) (bundle.spendUtxos.map (.spend m6id))
        { t with
          withdrawalBundles := t.withdrawalBundles.put m6id (.known bundle,RollBack.new .submitted height)
          pendingWithdrawalBundle := none }
  | submittedAgain {m6id : M6id} {info : WithdrawalBundleInfo} {history : RollBack WithdrawalBundleStatus}
      (other : ∀ bundle collectedAt, t.pendingWithdrawalBundle = some (bundle,collectedAt) → bundle.computeM6id lib ≠ m6id)
      (recorded : t.withdrawalBundles.tryGet m6id = some (info,history)) (first : history.earliest.value = .submitted) :
      EventCase lib height utxos t (.withdrawalBundle ⟨m6id,.submitted⟩) [] t
  | submittedUnknown {m6id : M6id}
      (other : ∀ bundle collectedAt, t.pendingWithdrawalBundle = some (bundle,collectedAt) → bundle.computeM6id lib ≠ m6id)
      (missing : t.withdrawalBundles.tryGet m6id = none) :
      EventCase lib height utxos t (.withdrawalBundle ⟨m6id,.submitted⟩) []
        { t with withdrawalBundles := t.withdrawalBundles.put m6id (.unknown,RollBack.new .submitted height) }
  | confirmedAgain {m6id : M6id} {info : WithdrawalBundleInfo} {history : RollBack WithdrawalBundleStatus}
      (recorded : t.withdrawalBundles.tryGet m6id = some (info,history)) (already : history.latest.value = .confirmed) :
      EventCase lib height utxos t (.withdrawalBundle ⟨m6id,.confirmed⟩) [] t
  | confirmed {m6id : M6id} {bundle : WithdrawalBundle} {history pushed : RollBack WithdrawalBundleStatus}
      (recorded : t.withdrawalBundles.tryGet m6id = some (.known bundle,history))
      (live : history.latest.value = .submitted) (push : history.push .confirmed height = some pushed) :
      EventCase lib height utxos t (.withdrawalBundle ⟨m6id,.confirmed⟩) []
        { t with withdrawalBundles := t.withdrawalBundles.put m6id (.known bundle,pushed) }
  | confirmedUnknown {m6id : M6id} {info : WithdrawalBundleInfo} {history pushed : RollBack WithdrawalBundleStatus}
      (recorded : t.withdrawalBundles.tryGet m6id = some (info,history)) (unknown : ∀ bundle, info ≠ .known bundle)
      (genesis : height = 0) (live : history.latest.value = .submitted)
      (push : history.push .confirmed height = some pushed) :
      EventCase lib height utxos t (.withdrawalBundle ⟨m6id,.confirmed⟩)
        ((sortByOutPoint utxos.entries).map (.spend m6id))
        { t with
          withdrawalBundles := t.withdrawalBundles.put m6id (.unknownConfirmed (sortByOutPoint utxos.entries),pushed) }
  | failedAgain {m6id : M6id} {info : WithdrawalBundleInfo} {history : RollBack WithdrawalBundleStatus}
      (recorded : t.withdrawalBundles.tryGet m6id = some (info,history)) (already : history.latest.value = .failed) :
      EventCase lib height utxos t (.withdrawalBundle ⟨m6id,.failed⟩) [] t
  | failed {m6id : M6id} {bundle : WithdrawalBundle} {history pushed : RollBack WithdrawalBundleStatus}
      {latest : RollBack M6id} (recorded : t.withdrawalBundles.tryGet m6id = some (.known bundle,history))
      (live : history.latest.value = .submitted) (push : history.push .failed height = some pushed)
      (failures : pushLatestFailed height t.latestFailedWithdrawalBundle m6id = .ok latest) :
      EventCase lib height utxos t (.withdrawalBundle ⟨m6id,.failed⟩) (bundle.spendUtxos.map .unspend)
        { t with
          withdrawalBundles := t.withdrawalBundles.put m6id (.known bundle,pushed)
          latestFailedWithdrawalBundle := some latest }
  | failedUnknown {m6id : M6id} {info : WithdrawalBundleInfo} {history pushed : RollBack WithdrawalBundleStatus}
      (recorded : t.withdrawalBundles.tryGet m6id = some (info,history)) (unknown : ∀ bundle, info ≠ .known bundle)
      (live : history.latest.value = .submitted) (push : history.push .failed height = some pushed) :
      EventCase lib height utxos t (.withdrawalBundle ⟨m6id,.failed⟩) []
        { t with withdrawalBundles := t.withdrawalBundles.put m6id (info,pushed) }

variable {height : Nat} {p p' : PegProgress} {us : List (OutPoint × Output)} {m6id : M6id}

theorem spendsProgress : us.foldl (PegProgress.bundleSpend lib m6id) p = { p with
    toLedger := (us.map (PegOp.spend m6id)).foldl PegOp.apply p.toLedger
    accumulatorDiff := p.accumulatorDiff.recordAll ((us.map (PegOp.spend m6id)).map (PegOp.request lib))
    indexEvents := ⟨p.indexEvents.deposits,p.indexEvents.bundleSpends ++ us.map (fun u => (u.1,m6id))⟩ } := by
  induction us generalizing p with
  | nil => simp [AccumulatorDiff.recordAll]
  | cons u us ih =>
      rw [List.foldl_cons,ih]
      simp only [PegProgress.bundleSpend,List.append_assoc,List.map_cons,List.singleton_append]
      rfl

theorem unspendsProgress : us.foldl (PegProgress.bundleUnspend lib) p = { p with
    toLedger := (us.map PegOp.unspend).foldl PegOp.apply p.toLedger
    accumulatorDiff := p.accumulatorDiff.recordAll ((us.map PegOp.unspend).map (PegOp.request lib)) } := by
  induction us generalizing p with
  | nil => rfl
  | cons u us ih =>
      rw [List.foldl_cons,ih]
      rfl

structure EventEffect (lib : Externals F) (height : Nat) (p : PegProgress) (event : Hash × BlockEvent)
    (p' : PegProgress) (ops : List PegOp) : Prop where
  cases : EventCase lib height p.utxos p.toPegTables event.2 ops p'.toPegTables
  ledger : p'.toLedger = ops.foldl PegOp.apply p.toLedger
  diff : p'.accumulatorDiff = p.accumulatorDiff.recordAll (ops.map (PegOp.request lib))

theorem submittedEffect {blockHash : Hash} (ok : connectWithdrawalBundleSubmitted lib height p m6id = .ok p') :
    ∃ ops, EventEffect lib height p (blockHash,.withdrawalBundle ⟨m6id,.submitted⟩) p' ops := by
  unfold connectWithdrawalBundleSubmitted at ok
  split at ok
  · next bundle collectedAt found =>
      obtain ⟨pending,own⟩ := Option.filter_eq_some_iff.mp found
      simp only [bindOk,ensureOk,pureOk] at ok
      obtain ⟨_,next,rfl⟩ := ok
      rw [spendsProgress]
      exact ⟨_,.submitted pending (of_decide_eq_true own) next,rfl,rfl⟩
  · next found =>
      have other : ∀ bundle collectedAt, p.pendingWithdrawalBundle = some (bundle,collectedAt) →
          bundle.computeM6id lib ≠ m6id := by
        intro bundle collectedAt pending own
        rw [pending] at found
        simp [own] at found
      split at ok
      · next info history recorded =>
          simp only [bindOk,ensureOk,pureOk] at ok
          obtain ⟨_,first,rfl⟩ := ok
          exact ⟨[],.submittedAgain other recorded first,rfl,rfl⟩
      · next missing =>
          rw [pureOk] at ok
          subst ok
          exact ⟨[],.submittedUnknown other missing,rfl,rfl⟩

theorem spendsUtxos {l : Ledger} : ((us.map (PegOp.spend m6id)).foldl PegOp.apply l).utxos =
    (us.map (·.1)).foldl Table.delete l.utxos := by
  induction us generalizing l with
  | nil => rfl
  | cons u us ih => exact ih

theorem memSortByOutPoint {u : OutPoint × Output} : u ∈ sortByOutPoint us ↔ u ∈ us :=
  (List.perm_insertionSort _ us).mem_iff

theorem spendsAllUtxos {l : Ledger} :
    (((sortByOutPoint l.utxos.entries).map (PegOp.spend m6id)).foldl PegOp.apply l).utxos = ∅ := by
  rw [spendsUtxos]
  refine Table.ext (fun o => ?_)
  rw [Table.tryGetDeletes,Table.tryGetEmpty]
  split
  · rfl
  · next absent =>
      refine Option.eq_none_iff_forall_ne_some.mpr (fun output found => absent ?_)
      exact List.mem_map.mpr ⟨(o,output),memSortByOutPoint.mpr (Table.memEntries.mpr found),rfl⟩

theorem spendAllProgress : spendAllUtxos lib p m6id = { p with
    toLedger := ((sortByOutPoint p.utxos.entries).map (PegOp.spend m6id)).foldl PegOp.apply p.toLedger
    accumulatorDiff := p.accumulatorDiff.recordAll
      (((sortByOutPoint p.utxos.entries).map (PegOp.spend m6id)).map (PegOp.request lib)) } := by
  have folded (us : List (OutPoint × Output)) (q : PegProgress) : us.foldl (fun p utxo =>
      { p.remove lib utxo with stxos := p.stxos.put utxo.1 ⟨utxo.2,.withdrawal m6id⟩ }) q = { q with
        stxos := ((us.map (PegOp.spend m6id)).foldl PegOp.apply q.toLedger).stxos
        accumulatorDiff := q.accumulatorDiff.recordAll ((us.map (PegOp.spend m6id)).map (PegOp.request lib)) } := by
    induction us generalizing q with
    | nil => rfl
    | cons u us ih =>
        have stxosOnly (us : List (OutPoint × Output)) (a b : Ledger) (same : a.stxos = b.stxos) :
            ((us.map (PegOp.spend m6id)).foldl PegOp.apply a).stxos =
              ((us.map (PegOp.spend m6id)).foldl PegOp.apply b).stxos := by
          induction us generalizing a b with
          | nil => exact same
          | cons u us ih => exact ih _ _ (congrArg (Table.put · u.1 _) same)
        rw [List.foldl_cons,ih]
        simp only [PegProgress.remove,List.map_cons,List.foldl_cons]
        rw [stxosOnly us ⟨q.utxos,q.stxos.put u.1 ⟨u.2,.withdrawal m6id⟩⟩ (PegOp.apply q.toLedger (.spend m6id u)) rfl]
        rfl
  have empty := @spendsAllUtxos m6id p.toLedger
  unfold spendAllUtxos
  simp only [folded]
  cases p
  simp only [PegProgress.mk.injEq,and_true]
  exact congrArg₂ Ledger.mk empty.symm rfl

theorem confirmedEffect {blockHash : Hash} (ok : connectWithdrawalBundleConfirmed lib height p blockHash m6id = .ok p') :
    ∃ ops, EventEffect lib height p (blockHash,.withdrawalBundle ⟨m6id,.confirmed⟩) p' ops := by
  simp only [connectWithdrawalBundleConfirmed,bindOk,okOrOk] at ok
  obtain ⟨⟨info,history⟩,recorded,ok⟩ := ok
  split at ok
  · next already =>
      rw [pureOk] at ok
      subst ok
      exact ⟨[],.confirmedAgain recorded already,rfl,rfl⟩
  · simp only [bindOk,ensureOk] at ok
    obtain ⟨_,live,ok⟩ := ok
    split at ok
    · next bundle =>
        simp only [bindOk,okOrOk,pureOk] at ok
        obtain ⟨_,rfl,pushed,push,rfl⟩ := ok
        exact ⟨[],.confirmed recorded live push,rfl,rfl⟩
    · next unknown =>
        simp only [bindOk,ensureOk,okOrOk,pureOk] at ok
        obtain ⟨_,genesis,_,rfl,pushed,push,rfl⟩ := ok
        rw [spendAllProgress]
        exact ⟨_,.confirmedUnknown recorded unknown genesis live push,rfl,rfl⟩

theorem failedEffect {blockHash : Hash} (ok : connectWithdrawalBundleFailed lib height p m6id = .ok p') :
    ∃ ops, EventEffect lib height p (blockHash,.withdrawalBundle ⟨m6id,.failed⟩) p' ops := by
  simp only [connectWithdrawalBundleFailed,bindOk,okOrOk] at ok
  obtain ⟨⟨info,history⟩,recorded,ok⟩ := ok
  split at ok
  · next already =>
      rw [pureOk] at ok
      subst ok
      exact ⟨[],.failedAgain recorded already,rfl,rfl⟩
  · simp only [bindOk,ensureOk,okOrOk] at ok
    obtain ⟨_,live,pushed,push,ok⟩ := ok
    split at ok
    · next bundle =>
        simp only [unspendsProgress,bindOk,pureOk] at ok
        obtain ⟨latest,failures,_,rfl,rfl⟩ := ok
        exact ⟨_,.failed recorded live push failures,rfl,rfl⟩
    · next unknown =>
        simp only [bindOk,pureOk] at ok
        obtain ⟨_,rfl,rfl⟩ := ok
        exact ⟨[],.failedUnknown recorded unknown live push,rfl,rfl⟩

theorem eventEffect {event : Hash × BlockEvent} (ok : connectEvent lib height p event = .ok p') :
    ∃ ops, EventEffect lib height p event p' ops := by
  obtain ⟨blockHash,event⟩ := event
  cases event with
  | deposit d =>
      rw [connectEvent,pureOk] at ok
      subst ok
      exact ⟨_,.deposited d,rfl,rfl⟩
  | withdrawalBundle bundleEvent =>
      simp only [connectEvent,bindOk,pureOk] at ok
      obtain ⟨middle,ok,rfl⟩ := ok
      obtain ⟨m6id,status⟩ := bundleEvent
      cases status with
      | submitted =>
          obtain ⟨ops,effect⟩ := @submittedEffect _ _ _ _ _ _ blockHash ok
          exact ⟨ops,effect.cases,effect.ledger,effect.diff⟩
      | confirmed =>
          obtain ⟨ops,effect⟩ := confirmedEffect ok
          exact ⟨ops,effect.cases,effect.ledger,effect.diff⟩
      | failed =>
          obtain ⟨ops,effect⟩ := @failedEffect _ _ _ _ _ _ blockHash ok
          exact ⟨ops,effect.cases,effect.ledger,effect.diff⟩

end Events

section Collection

variable {utxos : Table OutPoint Output} {height : Nat}

def aggregatedUtxos (aggregated : List AggregatedWithdrawal) : List (OutPoint × Output) :=
  aggregated.flatMap (·.spendUtxos)

theorem replacedSubperm {aggregated : List AggregatedWithdrawal} {mainAddress : MainAddress}
    {found : AggregatedWithdrawal} (isFound : aggregated.find? (·.mainAddress = mainAddress) = some found) :
    List.Subperm (aggregatedUtxos (aggregated.filter (·.mainAddress ≠ mainAddress)) ++ found.spendUtxos)
      (aggregatedUtxos aggregated) := by
  induction aggregated with
  | nil => cases isFound
  | cons a rest ih =>
      by_cases here : a.mainAddress = mainAddress
      · rw [List.find?_cons_of_pos (by simp [here])] at isFound
        cases isFound
        rw [List.filter_cons_of_neg (by simp [here])]
        have sub : List.Sublist (aggregatedUtxos (rest.filter (·.mainAddress ≠ mainAddress))) (aggregatedUtxos rest) :=
          List.filter_sublist.flatMap _
        exact (List.perm_append_comm.subperm).trans ((List.subperm_append_left _).mpr sub.subperm)
      · rw [List.find?_cons_of_neg (by simp [here])] at isFound
        rw [List.filter_cons_of_pos (by simp [here]),aggregatedUtxos,List.flatMap_cons,List.append_assoc]
        exact (List.subperm_append_left a.spendUtxos).mpr (ih isFound)

theorem aggregateSubperm {aggregated aggregated' : List AggregatedWithdrawal} {utxo : OutPoint × Output}
    (ok : aggregateWithdrawal aggregated utxo = .ok aggregated') :
    List.Subperm (aggregatedUtxos aggregated')
      (aggregatedUtxos aggregated ++ [utxo].filter (·.2.content.isWithdrawal)) := by
  unfold aggregateWithdrawal at ok
  split at ok
  · next payout mainFee mainAddress content =>
      simp only [bindOk,okOrOk,pureOk] at ok
      obtain ⟨_,_,_,_,rfl⟩ := ok
      have kept : [utxo].filter (·.2.content.isWithdrawal) = [utxo] := by simp [content,Content.isWithdrawal]
      rw [kept,aggregatedUtxos,List.flatMap_append,List.flatMap_singleton,← List.append_assoc]
      refine (List.subperm_append_right [utxo]).mpr ?_
      cases isFound : aggregated.find? (·.mainAddress = mainAddress) with
      | some found => exact replacedSubperm isFound
      | none =>
          rw [Option.getD_none,List.append_nil]
          exact (List.filter_sublist.flatMap _).subperm
  · next other =>
      rw [pureOk] at ok
      subst ok
      exact (List.sublist_append_left _ _).subperm

theorem aggregateAllSubperm {entries : List (OutPoint × Output)} {aggregated aggregated' : List AggregatedWithdrawal}
    (ok : entries.foldlM aggregateWithdrawal aggregated = .ok aggregated') :
    List.Subperm (aggregatedUtxos aggregated')
      (aggregatedUtxos aggregated ++ entries.filter (·.2.content.isWithdrawal)) := by
  induction entries generalizing aggregated with
  | nil =>
      cases foldNilOk.mp ok
      rw [List.filter_nil,List.append_nil]
  | cons utxo rest ih =>
      obtain ⟨middle,first,more⟩ := foldConsOk.mp ok
      have head := aggregateSubperm first
      have split : (utxo :: rest).filter (·.2.content.isWithdrawal) =
          [utxo].filter (·.2.content.isWithdrawal) ++ rest.filter (·.2.content.isWithdrawal) := by
        rw [← List.filter_append,List.singleton_append]
      rw [split,← List.append_assoc]
      exact (ih more).trans ((List.subperm_append_right _).mpr head)

/- What is packed comes from the draft and the withdrawals offered: a payout is taken whole or not at all. -/
theorem packSubperm {draft draft' : BundleDraft} {aggregated : List AggregatedWithdrawal}
    (ok : packBundle lib draft aggregated = .ok draft') :
    List.Subperm draft'.spendUtxos (draft.spendUtxos ++ aggregatedUtxos aggregated) := by
  have ends {d : BundleDraft} {offered : List AggregatedWithdrawal} (done : Except.ok (ε := Error) d = .ok draft') :
      List.Subperm draft'.spendUtxos (d.spendUtxos ++ aggregatedUtxos offered) := by
    cases done
    exact (List.sublist_append_left _ _).subperm
  have skips {d : BundleDraft} {a : AggregatedWithdrawal} {rest : List AggregatedWithdrawal}
      (packed : List.Subperm draft'.spendUtxos (d.spendUtxos ++ aggregatedUtxos rest)) :
      List.Subperm draft'.spendUtxos (d.spendUtxos ++ aggregatedUtxos (a :: rest)) := by
    refine packed.trans ((List.subperm_append_left _).mpr ?_)
    exact (List.sublist_append_right a.spendUtxos _).subperm
  fun_induction packBundle lib draft aggregated with
  | case1 => exact ends ok
  | case2 => exact ends ok
  | case3 _ _ _ _ _ _ _ ih => exact skips (ih ok)
  | case4 _ _ _ _ _ _ _ _ ih => exact skips (ih ok)
  | case5 => exact ends ok
  | case6 => exact ends ok
  | case7 => cases ok
  | case8 _ _ _ _ _ _ _ _ _ _ _ _ _ _ ih =>
      have packed := ih ok
      rwa [List.append_assoc] at packed

theorem packedSubperm {aggregated : List AggregatedWithdrawal} {draft : BundleDraft}
    (collected : utxos.entries.foldlM aggregateWithdrawal [] = .ok aggregated)
    (packed : packBundle lib ⟨Amount.zero,[],[],0⟩ (aggregated.insertionSort (fun a b => a.before b)) = .ok draft) :
    List.Subperm draft.spendUtxos (utxos.entries.filter (·.2.content.isWithdrawal)) := by
  have unsorted : List.Perm (aggregatedUtxos (aggregated.insertionSort (fun a b => a.before b)))
      (aggregatedUtxos aggregated) := (List.perm_insertionSort _ _).flatMap_right _
  exact (packSubperm packed).trans (unsorted.subperm.trans (aggregateAllSubperm collected))

structure BundleSource (utxos : Table OutPoint Output) (bundle : WithdrawalBundle) : Prop where
  distinct : (bundle.spendUtxos.map (·.1)).Nodup
  unspent : ∀ u ∈ bundle.spendUtxos, utxos.tryGet u.1 = some u.2
  withdrawals : ∀ u ∈ bundle.spendUtxos, u.2.content.isWithdrawal = true

theorem collectSource {bundle : WithdrawalBundle} (ok : collectWithdrawalBundle lib utxos height = .ok (some bundle)) :
    BundleSource utxos bundle := by
  simp only [collectWithdrawalBundle,bindOk] at ok
  obtain ⟨aggregated,collected,ok⟩ := ok
  split at ok
  · cases ok
  · simp only [bindOk,pureOk] at ok
    obtain ⟨draft,packed,made,new,same⟩ := ok
    cases Option.some.inj same
    simp only [WithdrawalBundle.new,bindOk,ensureOk,pureOk] at new
    obtain ⟨_,_,rfl⟩ := new
    have sorted : List.Perm (sortByOutPoint draft.spendUtxos) draft.spendUtxos := List.perm_insertionSort _ _
    have fromUtxos : List.Subperm (sortByOutPoint draft.spendUtxos)
        (utxos.entries.filter (·.2.content.isWithdrawal)) := sorted.subperm.trans (packedSubperm collected packed)
    refine ⟨?_,?_,?_⟩
    · obtain ⟨picked,perm,sub⟩ := fromUtxos
      have keys : (picked.map (·.1)).Nodup :=
        Table.entriesDistinct.sublist ((sub.trans List.filter_sublist).map _)
      exact (perm.map _).nodup_iff.mp keys
    · intro u mem
      exact Table.memEntries.mp (List.mem_filter.mp (fromUtxos.subset mem)).1
    · intro u mem
      exact (List.mem_filter.mp (fromUtxos.subset mem)).2

end Collection

section Connect

variable {s s' : State F} {data : TwoWayPegData} {rpc : RpcReplies} {height : Nat}

structure PegConnectSource (lib : Externals F) (s : State F) (data : TwoWayPegData) (s' : State F) (height : Nat)
    (progress : PegProgress) : Prop where
  atHeight : s.height = some height
  events : data.events.foldlM (connectEvent lib height) (PegProgress.start s) = .ok progress
  ledger : s'.toLedger = progress.toLedger
  bundles : s'.withdrawalBundles = progress.withdrawalBundles
  failures : s'.latestFailedWithdrawalBundle = progress.latestFailedWithdrawalBundle
  pending : collectPending lib progress.toPegTables progress.utxos height = .ok s'.pendingWithdrawalBundle
  accumulator : ∃ applied, applyDiff lib (s.accumulator lib) progress.accumulatorDiff = .ok applied ∧
    s'.utreexoAccumulator = some applied

theorem pegConnectSource (ok : connectTwoWayPegData lib s data rpc = .ok s') :
    ∃ height progress, PegConnectSource lib s data s' height progress := by
  simp only [connectTwoWayPegData,bindOk,okOrOk,pureOk] at ok
  obtain ⟨height,heightIs,progress,events,_,_,pending,collected,accumulator,applied,rfl⟩ := ok
  exact ⟨height,progress,heightIs,events,rfl,rfl,rfl,collected,accumulator,applied,rfl⟩

structure PegDisconnectSource (lib : Externals F) (s : State F) (data : TwoWayPegData) (s' : State F) (height : Nat)
    (progress : PegProgress) : Prop where
  atHeight : s.height = some height
  events : data.events.reverse.foldlM (disconnectEvent lib height)
    { PegProgress.start s with blockIndexEvents := s.blockIndexEvents.delete height } = .ok progress
  ledger : s'.toLedger = progress.toLedger
  bundles : s'.withdrawalBundles = progress.withdrawalBundles
  failures : s'.latestFailedWithdrawalBundle = progress.latestFailedWithdrawalBundle
  indexEvents : s'.blockIndexEvents = progress.blockIndexEvents
  swaps : s'.toSwapTables = restoreExpiredSwaps s.toSwapTables height
  bundleBlocks : popEventBlock progress.withdrawalBundleEventBlocks progress.latestWithdrawalBundleEventBlockHash height
    .noWithdrawalBundleEventBlock = .ok s'.withdrawalBundleEventBlocks
  depositBlocks : popEventBlock progress.depositBlocks progress.latestDepositBlockHash height .noDepositBlock =
    .ok s'.depositBlocks
  pending : dropPending progress.toPegTables height = .ok s'.pendingWithdrawalBundle
  still : s'.height = s.height

theorem pegDisconnectSource (ok : disconnectTwoWayPegData lib s data = .ok s') :
    ∃ height progress, PegDisconnectSource lib s data s' height progress := by
  simp only [disconnectTwoWayPegData,bindOk,okOrOk,pureOk] at ok
  obtain ⟨height,heightIs,progress,events,_,bundleBlocks,_,pending,_,depositBlocks,_,_,rfl⟩ := ok
  exact ⟨height,progress,heightIs,events,rfl,rfl,rfl,rfl,rfl,bundleBlocks,depositBlocks,pending,rfl⟩

theorem eventsInvariant {P : PegProgress → Prop} {events : List (Hash × BlockEvent)} {p p' : PegProgress}
    (step : ∀ p event p' ops, event ∈ events → P p → EventEffect lib height p event p' ops → P p')
    (start : P p) (ok : events.foldlM (connectEvent lib height) p = .ok p') : P p' := by
  refine foldInvariant ?_ start ok
  intro p event p' mem holds connected
  obtain ⟨ops,effect⟩ := eventEffect connected
  exact step p event p' ops mem holds effect

theorem collectPendingSource {t : PegTables} {utxos : Table OutPoint Output} {pending : Option (WithdrawalBundle × Nat)}
    (ok : collectPending lib t utxos height = .ok pending) :
    pending = t.pendingWithdrawalBundle ∨ t.pendingWithdrawalBundle = none ∧ withdrawalBundleFailureGap ≤ height ∧
      ∀ bundle collectedAt, pending = some (bundle,collectedAt) → collectedAt = height ∧ BundleSource utxos bundle := by
  simp only [collectPending,bindOk] at ok
  obtain ⟨failed,_,_,_,ok⟩ := ok
  split at ok
  · next due =>
      simp only [bindOk,pureOk] at ok
      obtain ⟨collected,ok,rfl⟩ := ok
      refine .inr ⟨Option.isNone_iff_eq_none.mp due.2,Nat.le_trans due.1 (Nat.sub_le _ _),?_⟩
      intro bundle collectedAt found
      obtain ⟨_,rfl,same⟩ := Option.map_eq_some_iff.mp found
      cases same
      exact ⟨rfl,collectSource ok⟩
  · rw [pureOk] at ok
    exact .inl ok.symm

end Connect

section Effects

variable {l : Ledger} {us : List (OutPoint × Output)} {m6id : M6id} {o : OutPoint}

theorem spendsUnspent : ((us.map (PegOp.spend m6id)).foldl PegOp.apply l).utxos.tryGet o =
    if o ∈ us.map (·.1) then none else l.utxos.tryGet o := by
  rw [spendsUtxos,Table.tryGetDeletes]

theorem opsElsewhere {ops : List PegOp} (away : ∀ op ∈ ops, op.utxo.1 ≠ o) :
    (ops.foldl PegOp.apply l).cell o = l.cell o := by
  induction ops generalizing l with
  | nil => rfl
  | cons op ops ih =>
      rw [List.foldl_cons,ih (fun op mem => away op (List.mem_cons_of_mem _ mem))]
      have other := (away op List.mem_cons_self).symm
      cases op <;> simp only [PegOp.utxo] at other <;>
        simp only [PegOp.apply,Ledger.cell,Table.tryGetPutOther other,Table.tryGetDeleteOther other]

def PegOp.cellAfter (l : Ledger) : PegOp → Cell
  | deposit u => ⟨some u.2,(l.cell u.1).spent⟩
  | spend m6id u => ⟨none,some ⟨u.2,.withdrawal m6id⟩⟩
  | unspend u => ⟨some u.2,none⟩

theorem PegOp.applyCell {op : PegOp} : (op.apply l).cell op.utxo.1 = op.cellAfter l := by
  cases op <;> simp only [apply,cellAfter,utxo,Ledger.cell,Table.tryGetPutSelf,Table.tryGetDeleteSelf]

theorem PegOp.applyElsewhere {op : PegOp} (other : o ≠ op.utxo.1) : (op.apply l).cell o = l.cell o :=
  @opsElsewhere l o [op] (fun _ mem => List.mem_singleton.mp mem ▸ other.symm)

theorem opsKeys {f : OutPoint × Output → PegOp} (same : ∀ u, (f u).utxo = u) :
    (us.map f).map (·.utxo.1) = us.map (·.1) := by
  rw [List.map_map]
  exact List.map_congr_left (fun u _ => congrArg Prod.fst (same u))

end Effects

end Coinshift
