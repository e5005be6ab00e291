import Coinshift.Provenance

/-! What a step does to the ledger, told as changes of single outpoints, also where it takes a block back.
Whatever the ledger and the bundles hold was created by an earlier step. -/
namespace Coinshift
open Checked

variable {F : Type} {lib : Externals F} {ctxt : BatchVerificationContext} {s s' : State F} {header : Header} {body : Body}
  {made more : List PointedOutput} {gone : OutPoint → Prop} {l l' : Ledger}

/- One change. What is put there comes from `made`; what is taken out without a trace is in `gone`. -/
inductive Change (made : List PointedOutput) (gone : OutPoint → Prop) : Ledger → Ledger → Prop
  | created {l : Ledger} {o : OutPoint} {x : Output} (isMade : ⟨o,x⟩ ∈ made) (unspent : l.stxos.tryGet o = none) :
      Change made gone l ⟨l.utxos.put o x,l.stxos⟩
  | spent {l : Ledger} {o : OutPoint} {y : SpentOutput} (isMade : ⟨o,y.output⟩ ∈ made) :
      Change made gone l ⟨l.utxos.delete o,l.stxos.put o y⟩
  | restored {l : Ledger} {o : OutPoint} {x : Output} (isMade : ⟨o,x⟩ ∈ made) :
      Change made gone l ⟨l.utxos.put o x,l.stxos.delete o⟩
  | removed {l : Ledger} {o : OutPoint} (isGone : gone o) : Change made gone l ⟨l.utxos.delete o,l.stxos⟩

abbrev Changes (made : List PointedOutput) (gone : OutPoint → Prop) : Ledger → Ledger → Prop :=
  Relation.ReflTransGen (Change made gone)

theorem LedgerFrom.change (holds : LedgerFrom made l) (change : Change made gone l l') : LedgerFrom made l' := by
  cases change with
  | created isMade _ => exact holds.put isMade
  | spent isMade => exact holds.spend isMade
  | restored isMade =>
      refine ⟨(holds.put isMade).utxos,fun o y found => ?_⟩
      rw [Table.tryGetDelete] at found
      split at found
      · cases found
      · exact holds.stxos o y found
  | removed _ =>
      refine ⟨fun o x found => ?_,holds.stxos⟩
      rw [Table.tryGetDelete] at found
      split at found
      · cases found
      · exact holds.utxos o x found

theorem LedgerFrom.changes (holds : LedgerFrom made l) (changes : Changes made gone l l') : LedgerFrom made l' := by
  induction changes with
  | refl => exact holds
  | tail _ change ih => exact ih.change change

theorem Change.cell (change : Change made gone l l') : ∃ o, (∀ o' ≠ o, l'.cell o' = l.cell o') ∧
    ((∃ x, ⟨o,x⟩ ∈ made ∧ l'.cell o = ⟨some x,none⟩) ∨ (∃ y, ⟨o,y.output⟩ ∈ made ∧ l'.cell o = ⟨none,some y⟩) ∨
      gone o ∧ l'.cell o = ⟨none,(l.cell o).spent⟩) := by
  cases change with
  | @created o x isMade unspent =>
      refine ⟨o,fun o' other => ?_,.inl ⟨x,isMade,?_⟩⟩
      · simp only [Ledger.cell,Table.tryGetPutOther other]
      · simp only [Ledger.cell,Table.tryGetPutSelf,unspent]
  | @spent o y isMade =>
      refine ⟨o,fun o' other => ?_,.inr (.inl ⟨y,isMade,?_⟩)⟩
      · simp only [Ledger.cell,Table.tryGetDeleteOther other,Table.tryGetPutOther other]
      · simp only [Ledger.cell,Table.tryGetDeleteSelf,Table.tryGetPutSelf]
  | @restored o x isMade =>
      refine ⟨o,fun o' other => ?_,.inl ⟨x,isMade,?_⟩⟩
      · simp only [Ledger.cell,Table.tryGetDeleteOther other,Table.tryGetPutOther other]
      · simp only [Ledger.cell,Table.tryGetDeleteSelf,Table.tryGetPutSelf]
  | @removed o isGone =>
      refine ⟨o,fun o' other => ?_,.inr (.inr ⟨isGone,?_⟩)⟩
      · simp only [Ledger.cell,Table.tryGetDeleteOther other]
      · simp only [Ledger.cell,Table.tryGetDeleteSelf]

section Blocks

def FreshOutputs (lib : Externals F) (stxos : Table OutPoint SpentOutput) (header : Header) (body : Body) : Prop :=
  ∀ p ∈ blockCreates lib header body, stxos.tryGet p.outpoint = none ∧ p.outpoint ∉ body.inputKeys

theorem connectChanges (holds : LedgerFrom made l) (isMade : blockCreates lib header body ⊆ made)
    (fresh : FreshOutputs lib l.stxos header body) (connected : connectCoins lib header body l = .ok l') :
    Changes made gone l l' := by
  rw [connectCoinsOps] at connected
  have kept := foldInvariant (P := fun now => Changes made gone l now ∧
    ∀ p ∈ blockCreates lib header body, now.stxos.tryGet p.outpoint = none) ?_ ⟨.refl,fun p mem => (fresh p mem).1⟩ connected
  · exact kept.1
  intro now op next mem ⟨changes,unspent⟩ applied
  cases op with
  | put p =>
      have created := memBlockPuts.mp mem
      cases pureOk.mp applied
      exact ⟨changes.tail (.created (isMade created) (unspent p created)),unspent⟩
  | spend o inpoint =>
      simp only [LedgerOp.apply,bindOk,okOrOk,pureOk] at applied
      obtain ⟨x,found,rfl⟩ := applied
      refine ⟨changes.tail (@Change.spent _ _ now o ⟨x,inpoint⟩ ((holds.changes changes).utxos o x found)),?_⟩
      intro p created
      have other : p.outpoint ≠ o := by
        rintro rfl
        refine (fresh p created).2 ?_
        rw [← @spendKeysBlock _ lib header body]
        exact List.mem_map.mpr ⟨_,List.mem_filter.mpr ⟨mem,rfl⟩,rfl⟩
      rw [Table.tryGetPutOther other]
      exact unspent p created

theorem disconnectChanges (holds : LedgerFrom made l) (isGone : ∀ p ∈ blockCreates lib header body, gone p.outpoint)
    (disconnected : disconnectCoins lib header body l = .ok l') : Changes made gone l l' := by
  rw [disconnectCoinsOps] at disconnected
  refine foldInvariant (P := fun now => Changes made gone l now) ?_ .refl disconnected
  intro now op next mem changes undone
  rw [List.mem_reverse] at mem
  cases op with
  | put p =>
      simp only [LedgerOp.undo,Ledger.removeOutput,bindOk,ensureOk,pureOk] at undone
      obtain ⟨_,_,rfl⟩ := undone
      exact changes.tail (.removed (isGone p (memBlockPuts.mp mem)))
  | spend o inpoint =>
      simp only [LedgerOp.undo,Ledger.unspend,bindOk,okOrOk,pureOk] at undone
      obtain ⟨y,found,rfl⟩ := undone
      exact changes.tail (.restored ((holds.changes changes).stxos o y found))

end Blocks

section Peg

variable {t t' : PegTables} {height : Nat} {p p' : PegProgress} {us : List (OutPoint × Output)} {m6id : M6id}

def WithdrawalBundleInfo.lists : WithdrawalBundleInfo → List (OutPoint × Output)
  | .known bundle => bundle.spendUtxos
  | .unknown => []
  | .unknownConfirmed spendUtxos => spendUtxos

def AllMade (made : List PointedOutput) (us : List (OutPoint × Output)) : Prop := ∀ u ∈ us, ⟨u.1,u.2⟩ ∈ made

structure ListedFrom (made : List PointedOutput) (t : PegTables) : Prop where
  pending : ∀ bundle collectedAt, t.pendingWithdrawalBundle = some (bundle,collectedAt) → AllMade made bundle.spendUtxos
  recorded : ∀ m6id info history, t.withdrawalBundles.tryGet m6id = some (info,history) → AllMade made info.lists

theorem ListedFrom.record (listed : ListedFrom made t) {info : WithdrawalBundleInfo}
    {history : RollBack WithdrawalBundleStatus} (isMade : AllMade made info.lists) (m : M6id) (info' : WithdrawalBundleInfo)
    (history' : RollBack WithdrawalBundleStatus)
    (found : (t.withdrawalBundles.put m6id (info,history)).tryGet m = some (info',history')) : AllMade made info'.lists := by
  rw [Table.tryGetPut] at found
  split at found
  · cases found
    exact isMade
  · exact listed.recorded m info' history' found

theorem opsChanges {ops : List PegOp} (isMade : ∀ op ∈ ops, ⟨op.utxo.1,op.utxo.2⟩ ∈ made)
    (moves : ∀ op ∈ ops, ∀ u, op ≠ .deposit u) : Changes made gone l (ops.foldl PegOp.apply l) := by
  induction ops generalizing l with
  | nil => exact .refl
  | cons op ops ih =>
      have own := isMade op List.mem_cons_self
      have first : Change made gone l (op.apply l) := by
        cases op with
        | deposit u => exact absurd rfl (moves _ List.mem_cons_self u)
        | spend m6id u => exact @Change.spent _ _ l u.1 ⟨u.2,.withdrawal m6id⟩ own
        | unspend u => exact .restored own
      have rest := @ih (op.apply l) (fun op mem => isMade op (List.mem_cons_of_mem _ mem))
        (fun op mem => moves op (List.mem_cons_of_mem _ mem))
      exact rest.head first

theorem listChanges {f : OutPoint × Output → PegOp} (own : ∀ u, (f u).utxo = u) (moves : ∀ u v, f u ≠ .deposit v)
    (isMade : AllMade made us) : Changes made gone l ((us.map f).foldl PegOp.apply l) := by
  refine opsChanges (fun op mem => ?_) (fun op mem v => ?_)
  · obtain ⟨u,inside,rfl⟩ := List.mem_map.mp mem
    rw [own]
    exact isMade u inside
  · obtain ⟨u,_,rfl⟩ := List.mem_map.mp mem
    exact moves u v

theorem entriesMade (holds : LedgerFrom made l) : AllMade made (sortByOutPoint l.utxos.entries) := by
  intro u inside
  exact holds.utxos u.1 u.2 (Table.memEntries.mp (memSortByOutPoint.mp inside))

theorem eventChanges {event : BlockEvent} {ops : List PegOp} (holds : LedgerFrom made l) (listed : ListedFrom made t)
    (deposit : ∀ p ∈ event.created, p ∈ made ∧ l.stxos.tryGet p.outpoint = none)
    (happened : EventCase lib height l.utxos t event ops t') :
    Changes made gone l (ops.foldl PegOp.apply l) ∧ ListedFrom made t' := by
  cases happened with
  | deposited d =>
      obtain ⟨isMade,unspent⟩ := deposit _ rfl
      exact ⟨.single (.created isMade unspent),listed⟩
  | submitted pending own next =>
      have isMade := listed.pending _ _ pending
      refine ⟨listChanges (fun _ => rfl) (fun _ _ => nofun) isMade,fun _ _ gone => ?_,listed.record isMade⟩
      cases gone
  | submittedUnknown other missing => exact ⟨.refl,listed.pending,listed.record (fun u mem => nomatch mem)⟩
  | confirmed recorded live push => exact ⟨.refl,listed.pending,listed.record (listed.recorded _ _ _ recorded)⟩
  | confirmedUnknown recorded unknown genesis live push =>
      have isMade := entriesMade holds
      exact ⟨listChanges (fun _ => rfl) (fun _ _ => nofun) isMade,listed.pending,listed.record isMade⟩
  | failed recorded live push failures =>
      have isMade := listed.recorded _ _ _ recorded
      exact ⟨listChanges (fun _ => rfl) (fun _ _ => nofun) isMade,listed.pending,listed.record isMade⟩
  | failedUnknown recorded unknown live push =>
      exact ⟨.refl,listed.pending,listed.record (listed.recorded _ _ _ recorded)⟩
  | submittedAgain other recorded first => exact ⟨.refl,listed⟩
  | confirmedAgain recorded already => exact ⟨.refl,listed⟩
  | failedAgain recorded already => exact ⟨.refl,listed⟩

structure Drawn (made : List PointedOutput) (gone : OutPoint → Prop) (l : Ledger) (p : PegProgress) : Prop where
  changes : Changes made gone l p.toLedger
  listed : ListedFrom made p.toPegTables

def FreshDeposits (lib : Externals F) (s : State F) (data : TwoWayPegData) : Prop :=
  ∀ height before event after progress p, s.height = some height → data.events = before ++ event :: after →
    before.foldlM (connectEvent lib height) (PegProgress.start s) = .ok progress → event.2.created = some p →
      progress.stxos.tryGet p.outpoint = none

theorem connectPegChanges {data : TwoWayPegData} {rpc : RpcReplies} (holds : LedgerFrom made s.toLedger)
    (listed : ListedFrom made s.toPegTables) (isMade : data.deposits ⊆ made) (fresh : FreshDeposits lib s data)
    (ok : connectTwoWayPegData lib s data rpc = .ok s') :
    Changes made gone s.toLedger s'.toLedger ∧ ListedFrom made s'.toPegTables := by
  obtain ⟨height,progress,source⟩ := pegConnectSource ok
  have drawn : Drawn made gone s.toLedger progress := by
    refine foldHistory (P := fun _ p => Drawn made gone s.toLedger p) ⟨.refl,listed⟩ ?_ source.events
    intro before event after p p' split reached connected drawn
    obtain ⟨ops,effect⟩ := eventEffect connected
    have created : ∀ q ∈ event.2.created, q ∈ made ∧ p.stxos.tryGet q.outpoint = none := by
      intro q isCreated
      have mem : event ∈ data.events := split ▸ List.mem_append_right before List.mem_cons_self
      exact ⟨isMade (List.mem_filterMap.mpr ⟨event,mem,isCreated⟩),
        fresh height before event after p q source.atHeight split reached isCreated⟩
    obtain ⟨more,listed⟩ := eventChanges (holds.changes drawn.changes) drawn.listed created effect.cases
    refine ⟨drawn.changes.trans ?_,listed⟩
    rw [effect.ledger]
    exact more
  refine ⟨source.ledger ▸ drawn.changes,fun bundle collectedAt found => ?_,fun m6id info history found => ?_⟩
  · rcases collectPendingSource source.pending with same | ⟨_,_,collected⟩
    · exact drawn.listed.pending bundle collectedAt (same ▸ found)
    · obtain ⟨_,new⟩ := collected bundle collectedAt found
      exact fun u mem => (holds.changes drawn.changes).utxos u.1 u.2 (new.unspent u mem)
  · rw [source.bundles] at found
    exact drawn.listed.recorded m6id info history found

theorem restoreChanges (isMade : AllMade made us) (ok : us.foldlM (restoreOutput lib) p = .ok p') :
    Changes made gone p.toLedger p'.toLedger ∧ p'.toPegTables = p.toPegTables := by
  refine foldInvariant (P := fun now => Changes made gone p.toLedger now.toLedger ∧ now.toPegTables = p.toPegTables) ?_
    ⟨.refl,rfl⟩ ok
  intro now u next mem ⟨changes,same⟩ restored
  simp only [restoreOutput,bindOk,ensureOk,pureOk] at restored
  obtain ⟨_,_,rfl⟩ := restored
  exact ⟨changes.tail (.restored (isMade u mem)),same⟩

theorem refailChanges (isMade : AllMade made us) (ok : us.foldlM (refail lib m6id) p = .ok p') :
    Changes made gone p.toLedger p'.toLedger ∧ p'.toPegTables = p.toPegTables := by
  refine foldInvariant (P := fun now => Changes made gone p.toLedger now.toLedger ∧ now.toPegTables = p.toPegTables) ?_
    ⟨.refl,rfl⟩ ok
  intro now u next mem ⟨changes,same⟩ respent
  simp only [refail,bindOk,ensureOk,pureOk] at respent
  obtain ⟨_,_,rfl⟩ := respent
  exact ⟨changes.tail (@Change.spent _ _ now.toLedger u.1 ⟨u.2,.withdrawal m6id⟩ (isMade u mem)),same⟩

theorem AllMade.reverse (isMade : AllMade made us) : AllMade made us.reverse :=
  fun u mem => isMade u (List.mem_reverse.mp mem)

theorem undoReportChanges {report : WithdrawalBundleEvent} (listed : ListedFrom made p.toPegTables)
    (ok : disconnectWithdrawalBundleEvent lib height p report = .ok p') : Drawn made gone p.toLedger p' := by
  obtain ⟨m6id,status⟩ := report
  cases status with
  | submitted =>
      simp only [disconnectWithdrawalBundleEvent,disconnectWithdrawalBundleSubmitted] at ok
      split at ok
      · simp only [bindOk,ensureOk,pureOk] at ok
        obtain ⟨_,_,rfl⟩ := ok
        exact ⟨.refl,listed⟩
      · next info history recorded =>
          simp only [bindOk,ensureOk] at ok
          obtain ⟨_,_,ok⟩ := ok
          have isMade := listed.recorded _ _ _ recorded
          have deleted (m : M6id) (info' : WithdrawalBundleInfo) (history' : RollBack WithdrawalBundleStatus)
              (found : (p.withdrawalBundles.delete m6id).tryGet m = some (info',history')) : AllMade made info'.lists := by
            rw [Table.tryGetDelete] at found
            split at found
            · cases found
            · exact listed.recorded m info' history' found
          split at ok
          · split at ok
            · simp only [bindOk,pureOk] at ok
              obtain ⟨_,restored,_,rfl,rfl⟩ := ok
              obtain ⟨changes,same⟩ := restoreChanges isMade.reverse restored
              refine ⟨changes,fun bundle collectedAt found => ?_,?_⟩
              · cases found
                exact isMade
              · dsimp only
                rw [congrArg PegTables.withdrawalBundles same]
                exact deleted
            · cases ok
              exact ⟨.refl,listed.pending,deleted⟩
          · cases ok
            exact ⟨.refl,listed⟩
  | confirmed =>
      simp only [disconnectWithdrawalBundleEvent,disconnectWithdrawalBundleConfirmed,bindOk,okOrOk] at ok
      obtain ⟨⟨info,history⟩,recorded,ok⟩ := ok
      have isMade := listed.recorded _ _ _ recorded
      split at ok
      · cases ok
        exact ⟨.refl,listed⟩
      · simp only [bindOk] at ok
        obtain ⟨previous,_,ok⟩ := ok
        split at ok
        · simp only [bindOk,pureOk] at ok
          obtain ⟨_,restored,_,rfl,rfl⟩ := ok
          obtain ⟨changes,same⟩ := restoreChanges isMade restored
          have still : ListedFrom made _ := same ▸ listed
          exact ⟨changes,still.pending,still.record (fun u mem => absurd mem List.not_mem_nil)⟩
        · cases ok
          exact ⟨.refl,listed.pending,listed.record isMade⟩
  | failed =>
      simp only [disconnectWithdrawalBundleEvent,disconnectWithdrawalBundleFailed,bindOk,okOrOk] at ok
      obtain ⟨⟨info,history⟩,recorded,ok⟩ := ok
      have isMade := listed.recorded _ _ _ recorded
      split at ok
      · cases ok
        exact ⟨.refl,listed⟩
      · simp only [bindOk] at ok
        obtain ⟨previous,_,ok⟩ := ok
        split at ok
        · simp only [bindOk,pureOk] at ok
          obtain ⟨_,respent,_,_,_,rfl,rfl⟩ := ok
          obtain ⟨changes,same⟩ := refailChanges isMade.reverse respent
          have still : ListedFrom made _ := same ▸ listed
          exact ⟨changes,still.pending,still.record isMade⟩
        · cases ok
          exact ⟨.refl,listed.pending,listed.record isMade⟩

theorem disconnectPegChanges {data : TwoWayPegData} (listed : ListedFrom made s.toPegTables)
    (isGone : ∀ p ∈ data.deposits, gone p.outpoint) (ok : disconnectTwoWayPegData lib s data = .ok s') :
    Changes made gone s.toLedger s'.toLedger ∧ ListedFrom made s'.toPegTables := by
  obtain ⟨height,progress,source⟩ := pegDisconnectSource ok
  have drawn : Drawn made gone s.toLedger progress := by
    refine foldInvariant (P := fun p => Drawn made gone s.toLedger p) ?_ ⟨.refl,⟨listed.pending,listed.recorded⟩⟩ source.events
    rintro p ⟨blockHash,event⟩ p' mem drawn undone
    cases event with
    | deposit d =>
        simp only [disconnectEvent,bindOk,ensureOk,pureOk] at undone
        obtain ⟨_,_,rfl⟩ := undone
        have isDeposit : (⟨.deposit d.txid d.vout,d.output⟩ : PointedOutput) ∈ data.deposits :=
          List.mem_filterMap.mpr ⟨_,List.mem_reverse.mp mem,rfl⟩
        exact ⟨drawn.changes.tail (.removed (isGone _ isDeposit)),drawn.listed⟩
    | withdrawalBundle report =>
        simp only [disconnectEvent,bindOk,pureOk] at undone
        obtain ⟨middle,undone,rfl⟩ := undone
        have further : Drawn made gone p.toLedger middle := undoReportChanges drawn.listed undone
        exact ⟨drawn.changes.trans further.changes,further.listed⟩
  refine ⟨source.ledger ▸ drawn.changes,fun bundle collectedAt found => ?_,fun m6id info history found => ?_⟩
  · have pending := source.pending
    simp only [dropPending,bindOk,ensureOk] at pending
    obtain ⟨_,_,_,_,pending⟩ := pending
    split at pending
    · rw [pureOk] at pending
      rw [← pending] at found
      exact drawn.listed.pending bundle collectedAt (Option.filter_eq_some_iff.mp found).1
    · rw [pureOk] at pending
      exact drawn.listed.pending bundle collectedAt (pending.trans found)
  · rw [source.bundles] at found
    exact drawn.listed.recorded m6id info history found

end Peg

section Steps

structure Traced (made : List PointedOutput) (s : State F) : Prop where
  ledger : LedgerFrom made s.toLedger
  listed : ListedFrom made s.toPegTables

def Step.removes (lib : Externals F) : Step F → List PointedOutput
  | .disconnect header body => blockCreates lib header body
  | .disconnectPeg data => data.deposits
  | _ => []

def Step.Fresh (lib : Externals F) (s : State F) : Step F → Prop
  | .connect header body => FreshOutputs lib s.stxos header body
  | .connectPeg data _ => FreshDeposits lib s data
  | _ => True

theorem newTraced : Traced made (State.new F) := by
  refine ⟨newLedgerFrom,fun bundle collectedAt found => ?_,fun m6id info history found => ?_⟩
  · cases found
  · cases Table.tryGetEmpty.symm.trans found

theorem stepChanges {x : Step F} (traced : Traced made s) (isMade : x.creates lib ⊆ made) (fresh : x.Fresh lib s)
    (isGone : ∀ p ∈ x.removes lib, gone p.outpoint) (ok : x.apply lib ctxt s = .ok s') :
    Changes made gone s.toLedger s'.toLedger ∧ Traced made s' := by
  have withLedger (changes : Changes made gone s.toLedger s'.toLedger) (listed : ListedFrom made s'.toPegTables) :
      Changes made gone s.toLedger s'.toLedger ∧ Traced made s' :=
    ⟨changes,traced.ledger.changes changes,listed⟩
  cases x with
  | connect header body =>
      obtain ⟨pre,source⟩ := connectBlockSource ok
      exact withLedger (connectChanges traced.ledger isMade fresh source.connected.coins)
        (source.connected.pegs ▸ traced.listed)
  | disconnect header body =>
      have source := disconnectSource ok
      exact withLedger (disconnectChanges traced.ledger isGone source.coins) (source.pegs ▸ traced.listed)
  | connectPeg data rpc =>
      obtain ⟨changes,listed⟩ := connectPegChanges traced.ledger traced.listed isMade fresh ok
      exact withLedger changes listed
  | disconnectPeg data =>
      obtain ⟨changes,listed⟩ := disconnectPegChanges traced.listed isGone ok
      exact withLedger changes listed
  | restoreAccumulator accumulator =>
      cases ok
      exact withLedger .refl traced.listed
  | localOp op =>
      simp only [Step.apply,bindOk,pureOk] at ok
      obtain ⟨w,_,rfl⟩ := ok
      exact withLedger .refl traced.listed

end Steps

end Coinshift
