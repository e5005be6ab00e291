import Coinshift.BundlePayout
import Coinshift.LedgerRollback

/-! The accumulator holds the leaves of the unspent outputs.
A diff forgets how often a leaf was inserted, so it follows the utxos only where no output is put at an
outpoint that has an unspent one. -/
namespace Coinshift
open Checked Keyed

variable {F : Type} {lib : Externals F} {ctxt : BatchVerificationContext} {s t last : State F}
  {header : Header} {body : Body} {pre : PrevalidatedBlock} {steps : List (Step F)} {height : Nat}

/- The forest as a set of leaves: `MemForest::modify` takes the removed ones out and the added ones in. -/
structure ForestIsSet (lib : Externals F) (holds : F → Hash → Prop) : Prop where
  empty : ∀ x, ¬ holds lib.emptyForest x
  modify : ∀ forest add del after, lib.modify forest add del = .ok after →
    ∀ x, holds after x ↔ x ∈ add ∨ holds forest x ∧ x ∉ del

namespace AccumulatorDiff

variable {d : AccumulatorDiff} {x y : Hash} {before now : Hash → Prop}

theorem memInsertionsIff (distinct : d.Distinct) : x ∈ d.insertions ↔ d.status x = some true := by
  refine ⟨fun mem => ?_,memInsertions⟩
  obtain ⟨⟨leaf,held⟩,entry,rfl⟩ := List.mem_map.mp mem
  obtain ⟨inside,insertion⟩ := List.mem_filter.mp entry
  cases held with
  | true => exact statusOfMem distinct inside
  | false => cases insertion

theorem memDeletionsIff (distinct : d.Distinct) : x ∈ d.deletions ↔ d.status x = some false := by
  refine ⟨memDeletions distinct,fun held => ?_⟩
  obtain ⟨before,after,split,_⟩ := List.lookup_eq_some_iff.mp held
  refine List.mem_map.mpr ⟨(x,false),List.mem_filter.mpr ⟨?_,rfl⟩,rfl⟩
  rw [split]
  exact List.mem_append_right _ List.mem_cons_self

def Leads (d : AccumulatorDiff) (before now : Hash → Prop) : Prop :=
  ∀ x, match d.status x with
    | none => now x ↔ before x
    | some true => now x ∧ ¬ before x
    | some false => ¬ now x ∧ before x

theorem Leads.start : Leads empty before before := fun _ => Iff.rfl

theorem Leads.insert {now' : Hash → Prop} (leads : Leads d before now) (absent : ¬ now y)
    (after : ∀ x, now' x ↔ x = y ∨ now x) : Leads (d.record (true,y)) before now' := by
  intro x
  have was := leads x
  rw [statusRecord,after x]
  by_cases here : x = y
  · subst here
    cases held : d.status x with
    | none => simpa [held,absent,statusAfter] using was
    | some flag => cases flag <;> simp_all [statusAfter]
  · simpa [here] using was

theorem Leads.remove {now' : Hash → Prop} (leads : Leads d before now) (present : now y)
    (after : ∀ x, now' x ↔ x ≠ y ∧ now x) : Leads (d.record (false,y)) before now' := by
  intro x
  have was := leads x
  rw [statusRecord,after x]
  by_cases here : x = y
  · subst here
    cases held : d.status x with
    | none => simpa [held,present,statusAfter] using was
    | some flag => cases flag <;> simp_all [statusAfter]
  · simpa [here] using was

theorem Leads.result (leads : Leads d before now) (x : Hash) :
    now x ↔ d.status x = some true ∨ before x ∧ d.status x ≠ some false := by
  have was := leads x
  cases held : d.status x with
  | none => simpa [held] using was
  | some flag => cases flag <;> simp_all

end AccumulatorDiff

theorem appliedHolds {holds : F → Hash → Prop} (laws : ForestIsSet lib holds) {forest after : F} {d : AccumulatorDiff}
    {now : Hash → Prop} (distinct : d.Distinct) (leads : d.Leads (holds forest) now) (applied : applyDiff lib forest d = .ok after)
    (x : Hash) : holds after x ↔ now x := by
  rw [applyDiff,mapErrorOk] at applied
  rw [laws.modify _ _ _ _ applied,AccumulatorDiff.memInsertionsIff distinct,AccumulatorDiff.memDeletionsIff distinct]
  exact (leads.result x).symm

section Leaves

variable {made : List PointedOutput} {l l' : Ledger} {d : AccumulatorDiff} {before : Hash → Prop}

def Ledger.leaves (lib : Externals F) (l : Ledger) (x : Hash) : Prop :=
  ∃ o y, l.utxos.tryGet o = some y ∧ utxoHash lib ⟨o,y⟩ = x

def LeavesApart (lib : Externals F) (made : List PointedOutput) : Prop :=
  ∀ p ∈ made, ∀ q ∈ made, utxoHash lib p = utxoHash lib q → p.outpoint = q.outpoint

theorem putLeads {p : PointedOutput} (apart : LeavesApart lib made) (isFrom : LedgerFrom made l)
    (mem : p ∈ made) (fresh : l.utxos.tryGet p.outpoint = none) (same : l'.utxos = l.utxos.put p.outpoint p.output)
    (leads : d.Leads before (l.leaves lib)) : (d.record (true,utxoHash lib p)).Leads before (l'.leaves lib) := by
  refine leads.insert ?_ (fun x => ?_)
  · rintro ⟨o,y,found,leaf⟩
    have here : o = p.outpoint := apart ⟨o,y⟩ (isFrom.utxos o y found) p mem leaf
    rw [here,fresh] at found
    cases found
  · constructor
    · rintro ⟨o,y,found,rfl⟩
      rw [same,Table.tryGetPut] at found
      split at found
      · next here =>
          cases found
          exact .inl (by rw [here])
      · exact .inr ⟨o,y,found,rfl⟩
    · rintro (rfl | ⟨o,y,found,rfl⟩)
      · exact ⟨p.outpoint,p.output,by rw [same,Table.tryGetPutSelf],rfl⟩
      · refine ⟨o,y,?_,rfl⟩
        rw [same,Table.tryGetPutOther]
        · exact found
        · rintro rfl
          rw [fresh] at found
          cases found

theorem takeLeads {o : OutPoint} {y : Output} (apart : LeavesApart lib made) (isFrom : LedgerFrom made l)
    (unspent : l.utxos.tryGet o = some y) (same : l'.utxos = l.utxos.delete o) (leads : d.Leads before (l.leaves lib)) :
    (d.record (false,utxoHash lib ⟨o,y⟩)).Leads before (l'.leaves lib) := by
  refine leads.remove ⟨o,y,unspent,rfl⟩ (fun x => ?_)
  constructor
  · rintro ⟨o',y',found,rfl⟩
    rw [same,Table.tryGetDelete] at found
    split at found
    · cases found
    · next other =>
        refine ⟨fun leaf => other ?_,o',y',found,rfl⟩
        exact apart ⟨o',y'⟩ (isFrom.utxos o' y' found) ⟨o,y⟩ (isFrom.utxos o y unspent) leaf
  · rintro ⟨differs,o',y',found,rfl⟩
    refine ⟨o',y',?_,rfl⟩
    rw [same,Table.tryGetDeleteOther]
    · exact found
    · rintro rfl
      rw [unspent] at found
      cases found
      exact differs rfl

end Leaves

section Block

variable {made : List PointedOutput}

def FreshBlock (lib : Externals F) (s : State F) (header : Header) (body : Body) : Prop :=
  ∀ before p after l, blockOps lib header body = before ++ .put p :: after →
    before.foldlM LedgerOp.apply s.toLedger = .ok l → l.utxos.tryGet p.outpoint = none

structure FreshWalk (lib : Externals F) (made : List PointedOutput) (s : State F) (before : List LedgerOp) (l : Ledger) : Prop where
  from_ : LedgerFrom made l
  unspent : ∀ o y, o ∉ spendKeys before → s.utxos.tryGet o = some y → l.utxos.tryGet o = some y
  leads : AccumulatorDiff.Leads
    (AccumulatorDiff.empty.recordAll (before.map (fun op => (op.isPut,op.leaf lib s.toLedger)))) (s.toLedger.leaves lib) (l.leaves lib)

theorem recordConcat {d : AccumulatorDiff} {requests : List (Bool × Hash)} {request : Bool × Hash} :
    d.recordAll (requests ++ [request]) = (d.recordAll requests).record request := by
  rw [AccumulatorDiff.recordAll,List.foldl_append]
  rfl

theorem freshWalk {l' : Ledger} (apart : LeavesApart lib made) (isFrom : LedgerFrom made s.toLedger)
    (created : blockCreates lib header body ⊆ made) (distinct : body.inputKeys.Nodup)
    (present : ∀ o ∈ body.inputKeys, (s.utxos.tryGet o).isSome = true) (fresh : FreshBlock lib s header body)
    (ok : (blockOps lib header body).foldlM LedgerOp.apply s.toLedger = .ok l') :
    FreshWalk lib made s (blockOps lib header body) l' := by
  refine foldHistory (P := fun before l => FreshWalk lib made s before l) ⟨isFrom,fun _ _ _ found => found,.start⟩ ?_ ok
  intro before op after l l' split reached applied walk
  have inBlock : op ∈ blockOps lib header body := split ▸ List.mem_append_right before List.mem_cons_self
  have concat : spendKeys (before ++ [op]) = spendKeys before ++ spendKeys [op] := spendKeysAppend
  cases op with
  | put p =>
      have mem : p ∈ made := created (memBlockPuts.mp inBlock)
      have empty := fresh before p after l split reached
      cases applied
      refine ⟨walk.from_.put mem,?_,?_⟩
      · intro o y notSpent was
        have now := walk.unspent o y (fun inside => notSpent (concat ▸ List.mem_append_left _ inside)) was
        rw [Ledger.putOutput,Table.tryGetPutOther]
        · exact now
        · rintro rfl
          rw [empty] at now
          cases now
      · rw [List.map_append,List.map_cons,List.map_nil,recordConcat]
        exact putLeads apart walk.from_ mem empty rfl walk.leads
  | spend o inpoint =>
      have isInput : o ∈ body.inputKeys := by
        rw [← @spendKeysBlock _ lib header]
        exact List.mem_map.mpr ⟨_,List.mem_filter.mpr ⟨inBlock,rfl⟩,rfl⟩
      obtain ⟨y,was⟩ := Option.isSome_iff_exists.mp (present o isInput)
      have once : o ∉ spendKeys before := by
        rw [← @spendKeysBlock _ lib header,split,spendKeysAppend,List.nodup_append] at distinct
        exact fun inside => distinct.2.2 o inside o List.mem_cons_self rfl
      have now := walk.unspent o y once was
      simp only [LedgerOp.apply,bindOk,okOrOk,pureOk] at applied
      obtain ⟨_,found,rfl⟩ := applied
      cases now.symm.trans found
      refine ⟨walk.from_.spend (walk.from_.utxos o y now),?_,?_⟩
      · intro o' y' notSpent isUnspent
        have other : o' ≠ o := by
          rintro rfl
          exact notSpent (concat ▸ List.mem_append_right _ List.mem_cons_self)
        rw [Table.tryGetDeleteOther other]
        exact walk.unspent o' y' (fun inside => notSpent (concat ▸ List.mem_append_left _ inside)) isUnspent
      · have leaf : LedgerOp.leaf lib s.toLedger (.spend o inpoint) = utxoHash lib ⟨o,y⟩ := by simp [LedgerOp.leaf,was]
        rw [List.map_append,List.map_cons,List.map_nil,recordConcat,leaf]
        exact takeLeads apart walk.from_ now rfl walk.leads

end Block

section Peg

variable {made : List PointedOutput} {l : Ledger} {d : AccumulatorDiff} {before : Hash → Prop}

def PegOp.Fits (l : Ledger) : PegOp → Prop
  | .deposit u | .unspend u => l.utxos.tryGet u.1 = none
  | .spend _ u => l.utxos.tryGet u.1 = some u.2

theorem opLeads {op : PegOp} (apart : LeavesApart lib made) (isFrom : LedgerFrom made l)
    (mem : ⟨op.utxo.1,op.utxo.2⟩ ∈ made) (fits : op.Fits l) (leads : d.Leads before (l.leaves lib)) :
    (d.record (op.request lib)).Leads before ((op.apply l).leaves lib) := by
  cases op with
  | deposit u => exact putLeads apart isFrom mem fits rfl leads
  | unspend u => exact putLeads apart isFrom mem fits rfl leads
  | spend m6id u => exact takeLeads apart isFrom fits rfl leads

theorem opsLead {ops : List PegOp} (apart : LeavesApart lib made) (isFrom : LedgerFrom made l)
    (mem : ∀ op ∈ ops, ⟨op.utxo.1,op.utxo.2⟩ ∈ made) (distinct : (ops.map (·.utxo.1)).Nodup) (fits : ∀ op ∈ ops, op.Fits l)
    (leads : d.Leads before (l.leaves lib)) :
    (d.recordAll (ops.map (PegOp.request lib))).Leads before ((ops.foldl PegOp.apply l).leaves lib) := by
  induction ops generalizing l d with
  | nil => exact leads
  | cons op ops ih =>
      rw [List.map_cons,List.nodup_cons] at distinct
      refine ih (opLedgerFrom isFrom (mem op List.mem_cons_self)) (fun x inside => mem x (List.mem_cons_of_mem _ inside))
        distinct.2 (fun x inside => ?_) (opLeads apart isFrom (mem op List.mem_cons_self) (fits op List.mem_cons_self) leads)
      have other : op.utxo.1 ≠ x.utxo.1 := fun same => distinct.1 (same ▸ List.mem_map_of_mem inside)
      have kept : (op.apply l).utxos.tryGet x.utxo.1 = l.utxos.tryGet x.utxo.1 :=
        congrArg Cell.unspent (@opsElsewhere l x.utxo.1 [op] (fun y isOp => List.mem_singleton.mp isOp ▸ other))
      have before := fits x (List.mem_cons_of_mem _ inside)
      cases x with
      | deposit u => exact kept.trans before
      | spend m6id u => exact kept.trans before
      | unspend u => exact kept.trans before

structure PendingUnspent (height : Nat) (w : PegTables) (l : Ledger) : Prop where
  unspent : ∀ bundle collectedAt, w.pendingWithdrawalBundle = some (bundle,collectedAt) → BundleSource l.utxos bundle
  genesis : height = 0 → w.pendingWithdrawalBundle = none

structure FreshEvent (w : PegTables) (utxos : Table OutPoint Output) (event : BlockEvent) : Prop where
  deposit : ∀ d, event = .deposit d → utxos.tryGet (.deposit d.txid d.vout) = none
  failure : ∀ m6id bundle history, event = .withdrawalBundle ⟨m6id,.failed⟩ →
    w.withdrawalBundles.tryGet m6id = some (.known bundle,history) → history.latest.value = .submitted →
    ∀ u ∈ bundle.spendUtxos, utxos.tryGet u.1 = none

variable {w w' : PegTables} {event : BlockEvent} {ops : List PegOp}

theorem eventOpsFit (bundles : BundlesFrom made w) (pending : PendingUnspent height w l) (fresh : FreshEvent w l.utxos event)
    (happened : EventCase lib height l.utxos w event ops w') :
    (ops.map (·.utxo.1)).Nodup ∧ ∀ op ∈ ops, op.Fits l := by
  cases happened with
  | deposited d =>
      refine ⟨List.nodup_singleton _,fun op mem => ?_⟩
      cases List.mem_singleton.mp mem
      exact fresh.deposit d rfl
  | submitted isPending own next =>
      have source := pending.unspent _ _ isPending
      refine ⟨by rw [opsKeys (fun _ => rfl)]; exact source.distinct,fun op mem => ?_⟩
      obtain ⟨u,inside,rfl⟩ := List.mem_map.mp mem
      exact source.unspent u inside
  | confirmedUnknown recorded unknown genesis live push =>
      have sorted : List.Perm (sortByOutPoint l.utxos.entries) l.utxos.entries := List.perm_insertionSort _ _
      refine ⟨?_,fun op mem => ?_⟩
      · rw [opsKeys (fun _ => rfl),(sorted.map _).nodup_iff]
        exact Table.entriesDistinct
      · obtain ⟨u,inside,rfl⟩ := List.mem_map.mp mem
        exact Table.memEntries.mp (memSortByOutPoint.mp inside)
  | failed recorded live push failures =>
      refine ⟨by rw [opsKeys (fun _ => rfl)]; exact (bundles.known _ _ _ recorded).distinct,fun op mem => ?_⟩
      obtain ⟨u,inside,rfl⟩ := List.mem_map.mp mem
      exact fresh.failure _ _ _ rfl recorded live u inside
  | _ => exact ⟨List.nodup_nil,fun op mem => by cases mem⟩

def PegTables.pendingSpends (w : PegTables) : List (OutPoint × Output) := (w.pendingWithdrawalBundle.map (·.1.spendUtxos)).getD []

theorem pendingSpendsOf {bundle : WithdrawalBundle} {collectedAt : Nat}
    (pending : w.pendingWithdrawalBundle = some (bundle,collectedAt)) : w.pendingSpends = bundle.spendUtxos := by
  rw [PegTables.pendingSpends,pending]
  rfl

structure SparesEvent (w : PegTables) (event : BlockEvent) : Prop where
  deposit : ∀ d, event = .deposit d → ∀ u ∈ w.pendingSpends, u.1 = .deposit d.txid d.vout → u.2 = d.output
  failure : ∀ m6id bundle history, event = .withdrawalBundle ⟨m6id,.failed⟩ →
    w.withdrawalBundles.tryGet m6id = some (.known bundle,history) → history.latest.value = .submitted →
    ∀ u ∈ w.pendingSpends, ∀ x ∈ bundle.spendUtxos, u.1 = x.1 → u.2 = x.2

def PegOp.Spares (u : OutPoint × Output) : PegOp → Prop
  | .deposit x | .unspend x => u.1 = x.1 → u.2 = x.2
  | .spend _ x => u.1 ≠ x.1

theorem opsSpare {u : OutPoint × Output} (spare : ∀ op ∈ ops, op.Spares u) (unspent : l.utxos.tryGet u.1 = some u.2) :
    (ops.foldl PegOp.apply l).utxos.tryGet u.1 = some u.2 := by
  induction ops generalizing l with
  | nil => exact unspent
  | cons op ops ih =>
      refine ih (fun x mem => spare x (List.mem_cons_of_mem _ mem)) ?_
      have spared := spare op List.mem_cons_self
      have put {x : OutPoint × Output} (same : u.1 = x.1 → u.2 = x.2) : (l.utxos.put x.1 x.2).tryGet u.1 = some u.2 := by
        rw [Table.tryGetPut]
        split
        · next here => rw [same here]
        · exact unspent
      cases op with
      | deposit x => exact put spared
      | unspend x => exact put spared
      | spend m6id x => exact (Table.tryGetDeleteOther spared).trans unspent

theorem PendingUnspent.spared (pending : PendingUnspent height w l) (spares : SparesEvent w event)
    (happened : EventCase lib height l.utxos w event ops w') : PendingUnspent height w' (ops.foldl PegOp.apply l) := by
  refine ⟨?_,?_⟩
  · intro bundle collectedAt found
    have before := eventPending happened found
    have source := pending.unspent bundle collectedAt before
    refine ⟨source.distinct,fun u inside => ?_,source.withdrawals⟩
    have unspent := source.unspent u inside
    have isSpend : u ∈ w.pendingSpends := (pendingSpendsOf before).symm ▸ inside
    cases happened with
    | deposited d =>
        refine opsSpare (fun op mem => ?_) unspent
        cases List.mem_singleton.mp mem
        exact spares.deposit d rfl u isSpend
    | submitted => cases found
    | confirmedUnknown recorded unknown genesis live push =>
        rw [pending.genesis genesis] at before
        cases before
    | failed recorded live push failures =>
        refine opsSpare (fun op mem => ?_) unspent
        obtain ⟨x,isSpent,rfl⟩ := List.mem_map.mp mem
        exact spares.failure _ _ _ rfl recorded live u isSpend x isSpent
    | _ => exact unspent
  · intro isZero
    cases after : w'.pendingWithdrawalBundle with
    | none => rfl
    | some now =>
        have before := eventPending happened after
        rw [pending.genesis isZero] at before
        cases before

theorem FreshEvent.spares (fresh : FreshEvent w l.utxos event) (pending : PendingUnspent height w l) : SparesEvent w event := by
  have unspent {u : OutPoint × Output} (mem : u ∈ w.pendingSpends) : l.utxos.tryGet u.1 = some u.2 := by
    cases found : w.pendingWithdrawalBundle with
    | none => simp [PegTables.pendingSpends,found] at mem
    | some now => exact (pending.unspent now.1 now.2 found).unspent u (pendingSpendsOf found ▸ mem)
  refine ⟨fun d isDeposit u mem here => ?_,fun m6id bundle history isFailed recorded live u mem x inside here => ?_⟩
  · have absent := fresh.deposit d isDeposit
    rw [← here,unspent mem] at absent
    cases absent
  · have absent := fresh.failure m6id bundle history isFailed recorded live x inside
    rw [← here,unspent mem] at absent
    cases absent

end Peg

section Run

variable {made : List PointedOutput} {holds : F → Hash → Prop}

def AccumulatorMirrors (lib : Externals F) (holds : F → Hash → Prop) (s : State F) : Prop :=
  ∀ x, holds (s.accumulator lib) x ↔ ∃ o y, s.utxos.tryGet o = some y ∧ utxoHash lib ⟨o,y⟩ = x

/- No output is put where one is unspent: not by a block, by a deposit or by a failed bundle. -/
structure FreshInsertions (lib : Externals F) (ctxt : BatchVerificationContext) (steps : List (Step F)) : Prop where
  blocks : ∀ s header body t later, Takes lib ctxt steps s (.connect header body) t later → FreshBlock lib s header body
  events : ∀ p height event, TakesEvent lib ctxt steps p height event → FreshEvent p.toPegTables p.utxos event.2

structure Mirrored (lib : Externals F) (holds : F → Hash → Prop) (s : State F) : Prop where
  mirrors : AccumulatorMirrors lib holds s
  pending : PendingUnspent (s.height.getD 0) s.toPegTables s.toLedger

theorem leavesHeld (mirrors : AccumulatorMirrors lib holds s) : holds (s.accumulator lib) = s.toLedger.leaves lib := by
  funext x
  exact propext (mirrors x)

theorem blockMirrored (laws : ForestIsSet lib holds) (apart : LeavesApart lib made) (provenance : Provenance made s)
    (created : blockCreates lib header body ⊆ made) (fresh : FreshBlock lib s header body) (mirrored : Mirrored lib holds s)
    (ok : connectBlock lib ctxt s header body = .ok t) : Mirrored lib holds t := by
  obtain ⟨pre,source⟩ := connectBlockSource ok
  have coins := source.connected.coins
  rw [connectCoinsOps] at coins
  have walk := freshWalk apart provenance.ledger created source.validated.distinct
    (fun o isInput => inputsPresent source.validated.transactions isInput) fresh coins
  obtain ⟨applied,applies,isApplied⟩ := source.connected.accumulator
  refine ⟨?_,?_,?_⟩
  · have leads := walk.leads
    rw [← connectDiffOps source.validated,← leavesHeld mirrored.mirrors] at leads
    have distinct : (connectDiff lib header body).Distinct := by
      rw [connectDiffOps source.validated]
      exact AccumulatorDiff.distinctRecordAll List.nodup_nil
    intro x
    rw [State.accumulator,isApplied]
    exact appliedHolds laws distinct leads applies x
  · intro bundle collectedAt found
    rw [source.connected.pegs] at found
    have before := mirrored.pending.unspent bundle collectedAt found
    refine ⟨before.distinct,fun u inside => ?_,before.withdrawals⟩
    refine walk.unspent u.1 u.2 (fun spent => ?_) (before.unspent u inside)
    rw [spendKeysBlock] at spent
    have notWithdrawn := inputsNotWithdrawn source.validated.transactions spent (before.unspent u inside)
    rw [before.withdrawals u inside] at notWithdrawn
    cases notWithdrawn
  · intro isZero
    rw [source.connected.height,Option.getD_some] at isZero
    rw [source.connected.pegs]
    refine mirrored.pending.genesis ?_
    unfold State.nextHeight at isZero
    cases height : s.height with
    | none => rfl
    | some below => simp [height] at isZero

theorem pegMirrored {data : TwoWayPegData} {rpc : RpcReplies} (laws : ForestIsSet lib holds) (apart : LeavesApart lib made)
    (provenance : Provenance made s) (created : data.deposits ⊆ made)
    (fresh : ∀ height before event after p, s.height = some height → data.events = before ++ event :: after →
      before.foldlM (connectEvent lib height) (PegProgress.start s) = .ok p → FreshEvent p.toPegTables p.utxos event.2)
    (mirrored : Mirrored lib holds s) (ok : connectTwoWayPegData lib s data rpc = .ok t) : Mirrored lib holds t := by
  obtain ⟨height,progress,source⟩ := pegConnectSource ok
  have atHeight : s.height.getD 0 = height := by rw [source.atHeight]; rfl
  have walk : (LedgerFrom made progress.toLedger ∧ BundlesFrom made progress.toPegTables) ∧
      PendingUnspent height progress.toPegTables progress.toLedger ∧ progress.accumulatorDiff.Distinct ∧
      progress.accumulatorDiff.Leads (s.toLedger.leaves lib) (progress.toLedger.leaves lib) := by
    refine foldHistory (P := fun _ p => (LedgerFrom made p.toLedger ∧ BundlesFrom made p.toPegTables) ∧
      PendingUnspent height p.toPegTables p.toLedger ∧ p.accumulatorDiff.Distinct ∧
      p.accumulatorDiff.Leads (s.toLedger.leaves lib) (p.toLedger.leaves lib)) ?_ ?_ source.events
    · exact ⟨⟨provenance.ledger,provenance.bundles⟩,atHeight ▸ mirrored.pending,List.nodup_nil,.start⟩
    · intro before event after p p' split folded connected now
      obtain ⟨isFrom,pending,distinct,leads⟩ := now
      obtain ⟨ops,effect⟩ := eventEffect connected
      have isFresh := fresh height before event after p source.atHeight split folded
      have deposited : event.2.created.toList ⊆ made := by
        intro x inside
        refine created (List.mem_filterMap.mpr ⟨event,?_,Option.mem_toList.mp inside⟩)
        exact split ▸ List.mem_append_right before List.mem_cons_self
      have mem : ∀ op ∈ ops, ⟨op.utxo.1,op.utxo.2⟩ ∈ made := by
        intro op isOp
        rcases List.mem_append.mp (eventOpsFrom isFrom.1 isFrom.2 effect.cases op isOp) with inside | new
        · exact inside
        · exact deposited new
      obtain ⟨nodup,fits⟩ := eventOpsFit isFrom.2 pending isFresh effect.cases
      refine ⟨eventProvenance isFrom deposited effect,?_,?_,?_⟩
      · rw [effect.ledger]
        exact pending.spared (isFresh.spares pending) effect.cases
      · rw [effect.diff]
        exact AccumulatorDiff.distinctRecordAll distinct
      · rw [effect.diff,effect.ledger]
        exact opsLead apart isFrom.1 mem nodup fits leads
  obtain ⟨_,pending,distinct,leads⟩ := walk
  obtain ⟨applied,applies,isApplied⟩ := source.accumulator
  refine ⟨?_,?_,?_⟩
  · rw [← leavesHeld mirrored.mirrors] at leads
    intro x
    rw [State.accumulator,isApplied]
    refine (appliedHolds laws distinct leads applies x).trans ?_
    rw [← source.ledger]
    exact Iff.rfl
  · intro bundle collectedAt found
    rw [source.ledger]
    rcases collectPendingSource source.pending with same | ⟨_,_,collected⟩
    · exact pending.unspent bundle collectedAt (same ▸ found)
    · exact (collected bundle collectedAt found).2
  · intro isZero
    rw [(connectPegSource ok).height,atHeight] at isZero
    rcases collectPendingSource source.pending with same | ⟨_,gap,_⟩
    · exact same.trans (pending.genesis isZero)
    · rw [isZero] at gap
      cases gap

theorem newMirrored (laws : ForestIsSet lib holds) : Mirrored lib holds (State.new F) := by
  refine ⟨fun x => ⟨fun held => absurd held (laws.empty x),?_⟩,?_,fun _ => rfl⟩
  · rintro ⟨o,y,found,_⟩
    cases Table.tryGetEmpty.symm.trans found
  · intro bundle collectedAt found
    cases found

/- The leaves are kept apart by the hash; what is asked of the run is that nothing unspent is put again. -/
theorem accumulatorMirrors (laws : ForestIsSet lib holds) (forward : ∀ step ∈ steps, step.isForward = true)
    (apart : LeavesApart lib (createdBy lib steps)) (fresh : FreshInsertions lib ctxt steps)
    (ok : run lib ctxt steps (State.new F) = .ok last) : AccumulatorMirrors lib holds last := by
  have mirrored : Mirrored lib holds last := by
    refine historyInvariant (P := fun _ s => Mirrored lib holds s) (newMirrored laws) ?_ ok
    intro earlier s x t later split reached applied mirrored
    have made : createdBy lib steps = createdBy lib earlier ++ (x.creates lib ++ createdBy lib later) := by
      rw [split,createdByAppend]
      rfl
    have provenance : Provenance (createdBy lib steps) s := by
      have early := runProvenance (fun step mem => forward step (split ▸ List.mem_append_left _ mem)) reached
      have sub : createdBy lib earlier ⊆ createdBy lib steps := made ▸ List.subset_append_left _ _
      exact ⟨early.ledger.mono sub,early.bundles.mono sub⟩
    have created : x.creates lib ⊆ createdBy lib steps := by
      rw [made]
      exact fun p mem => List.mem_append_right _ (List.mem_append_left _ mem)
    have isForward := forward x (split ▸ List.mem_append_right earlier List.mem_cons_self)
    cases x with
    | connect header body =>
        exact blockMirrored laws apart provenance created
          (fresh.blocks s header body t later ⟨⟨earlier,split,reached⟩,applied⟩) mirrored applied
    | connectPeg data rpc =>
        refine pegMirrored laws apart provenance created ?_ mirrored applied
        intro height before event after p atHeight isSplit folded
        exact fresh.events p height event
          ⟨s,data,rpc,t,later,before,after,⟨⟨earlier,split,reached⟩,applied⟩,atHeight,isSplit,folded⟩
    | localOp op =>
        simp only [Step.apply,bindOk,pureOk] at applied
        obtain ⟨w,_,rfl⟩ := applied
        exact ⟨mirrored.mirrors,mirrored.pending⟩
    | _ => cases isForward
  exact mirrored.mirrors

end Run

section Reached
open Reference

def held (forest : Forest) (x : Hash) : Prop := x ∈ forest

theorem referenceSet : ForestIsSet externals held := by
  refine ⟨fun x => List.not_mem_nil,?_⟩
  intro forest add del after modified x
  simp only [externals,Reference.modify] at modified
  split at modified
  · cases modified
    simp only [held,List.mem_append,List.mem_filter,decide_not,Bool.not_eq_true',decide_eq_false_iff_not]
    exact or_comm
  · cases modified

def apartCheck (steps : List (Step Forest)) : Bool :=
  (createdBy externals steps).all (fun p => (createdBy externals steps).all (fun q =>
    utxoHash externals p ≠ utxoHash externals q || p.outpoint = q.outpoint))

theorem apartChecked {steps : List (Step Forest)} (passes : apartCheck steps = true) :
    LeavesApart externals (createdBy externals steps) := by
  intro p memP q memQ same
  have passed := List.all_eq_true.mp (List.all_eq_true.mp passes p memP) q memQ
  simpa [same] using passed

def opFresh (l : Ledger) : LedgerOp → Bool
  | .put p => (l.utxos.tryGet p.outpoint).isNone
  | .spend _ _ => true

def eventFresh (p : PegProgress) (event : Hash × BlockEvent) : Bool :=
  match event.2 with
  | .deposit d => (p.utxos.tryGet (.deposit d.txid d.vout)).isNone
  | .withdrawalBundle report =>
      match p.withdrawalBundles.tryGet report.m6id with
      | some (.known bundle,history) =>
          decide (report.status = .failed ∧ history.latest.value = .submitted) →
            bundle.spendUtxos.all (fun u => (p.utxos.tryGet u.1).isNone)
      | _ => true

def stepFresh (s : State Forest) : Step Forest → Bool
  | .connect header body => every LedgerOp.apply opFresh (blockOps externals header body) s.toLedger
  | .connectPeg data _ => s.height.all (fun height =>
      every (connectEvent externals height) eventFresh data.events (PegProgress.start s))
  | _ => true

theorem freshChecked {steps : List (Step Forest)} (passes : everyStep stepFresh steps (State.new Forest) = true) :
    FreshInsertions externals context steps := by
  refine ⟨?_,?_⟩
  · intro s header body t later takes before p after l split reached
    have passed : every LedgerOp.apply opFresh (blockOps externals header body) s.toLedger = true := everyStepTakes passes takes
    rw [split] at passed
    have isFresh : opFresh l (.put p) = true := everyTaken passed reached
    exact Option.isNone_iff_eq_none.mp isFresh
  · intro p height event takes
    obtain ⟨s,data,rpc,t,later,before,after,step,atHeight,split,reached⟩ := takes.taken
    have passed := everyStepTakes passes step
    simp only [stepFresh,atHeight,Option.all_some,split] at passed
    have isFresh : eventFresh p event = true := everyTaken passed reached
    refine ⟨?_,?_⟩
    · intro d isDeposit
      simpa [eventFresh,isDeposit] using isFresh
    · intro m6id bundle history isFailed recorded live u spent
      simp only [eventFresh,isFailed,recorded,live,and_self,decide_true,decide_eq_true_eq,forall_const,
        List.all_eq_true] at isFresh
      exact Option.isNone_iff_eq_none.mp (isFresh u spent)

theorem failedBundleMirrored : ∃ (steps : List (Step Forest)) (last : State Forest),
    run externals context steps (State.new Forest) = .ok last ∧ AccumulatorMirrors externals held last := by
  have played : playsReported collected [[.submitted],[.failed]] (fun steps _ =>
      steps.all Step.isForward && (apartCheck steps && everyStep stepFresh steps (State.new Forest))) = true := by
    decide +kernel
  obtain ⟨steps,last,ran,checked⟩ := playsReportedRun played
  obtain ⟨forward,checked⟩ := Bool.and_eq_true_iff.mp checked
  obtain ⟨apart,fresh⟩ := Bool.and_eq_true_iff.mp checked
  exact ⟨steps,last,ran,
    accumulatorMirrors referenceSet (List.all_eq_true.mp forward) (apartChecked apart) (freshChecked fresh) ran⟩

def strayLeaf (s : State Forest) : Bool :=
  (s.accumulator externals).any (fun x => s.utxos.entries.all (fun entry => utxoHash externals ⟨entry.1,entry.2⟩ ≠ x))

/- A worthless coin, spent by a payment to herself that Alice can repeat when the coin is mined again. -/
def zeroBody : Body := Reference.body [] [coin alice 0]

def zeroCoin : OutPoint × Output := (.coinbase (mine (State.new Forest) zeroBody).merkleRoot 0,coin alice 0)

def payZero : Transaction := transaction [zeroCoin] [coin alice 0] .regular

def spendZero : Transaction := transaction [outputOf payZero 0 (coin alice 0)] [coin bob 0] .regular

theorem leafLeftBehind : ForestIsSet externals held ∧ ∃ (steps : List (Step Forest)) (last : State Forest),
    (∀ step ∈ steps, step.isForward = true) ∧ LeavesApart externals (createdBy externals steps) ∧
    run externals context steps (State.new Forest) = .ok last ∧ ¬ AccumulatorMirrors externals held last := by
  refine ⟨referenceSet,?_⟩
  have played : plays [.grow zeroBody [] noRpc,grow [(payZero,[alice])],.grow zeroBody [] noRpc,
      grow [(payZero,[alice]),(spendZero,[alice])]] (fun steps s =>
        steps.all Step.isForward && (apartCheck steps && strayLeaf s)) = true := by decide +kernel
  obtain ⟨steps,last,ran,checked⟩ := playsRun played
  obtain ⟨forward,checked⟩ := Bool.and_eq_true_iff.mp checked
  obtain ⟨apart,stray⟩ := Bool.and_eq_true_iff.mp checked
  refine ⟨steps,last,List.all_eq_true.mp forward,apartChecked apart,ran,fun mirrors => ?_⟩
  obtain ⟨x,inside,none⟩ := List.any_eq_true.mp stray
  obtain ⟨o,y,found,leaf⟩ := (mirrors x).mp inside
  have differs := List.all_eq_true.mp none (o,y) (Table.memEntries.mpr found)
  exact of_decide_eq_true differs leaf

end Reached

end Coinshift
