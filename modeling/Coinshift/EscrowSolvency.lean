import Coinshift.ConnectTotal
import Coinshift.ConsensusView
import Coinshift.EscrowSpend
import Coinshift.Maintenance
import Coinshift.Provenance
import Coinshift.SwapLifecycle
import Coinshift.TransactionEncoding
import Mathlib.Algebra.Order.BigOperators.Group.List

/-! Every lock is on an unspent output that escrows for its swap, and what is locked to an unsettled
swap covers its amount. The locks, the utxos and the records are three tables: what ties them together is
where an escrow output comes from, since no other transaction creates an output at its outpoint. -/
namespace Coinshift
open Checked Keyed SwapTables

variable {F : Type} {lib : Externals F} {ctxt : BatchVerificationContext} {s t last : State F}
  {header : Header} {body : Body} {pre : PrevalidatedBlock} {swapId : SwapId} {o : OutPoint} {steps : List (Step F)}

section Statement

def State.valueAt (s : State F) (o : OutPoint) : Nat := ((s.utxos.tryGet o).map (·.getValue.val)).getD 0

def State.lockedValue (s : State F) (swapId : SwapId) : Nat := ((s.lockedOutputsOf swapId).map s.valueAt).sum

structure EscrowSolvent (s : State F) : Prop where
  locks : ∀ o swapId, s.isOutputLockedToSwap o = some swapId →
    (∃ address value, s.utxos.tryGet o = some ⟨address,.swapPending value swapId⟩) ∧
    (s.getSwap swapId).isSome = true
  covered : ∀ swapId swap, s.getSwap swapId = some swap → swap.isUnsettled = true →
    swap.l2Amount.val ≤ s.lockedValue swapId

end Statement

section Escrows

theorem memEscrow {tx : Transaction} : o ∈ tx.escrowOutpoints lib swapId ↔
    ∃ x, ⟨o,x⟩ ∈ tx.createdOutputs lib ∧ (x.escrowFor swapId).isSome = true := by
  simp only [Transaction.escrowOutpoints,List.mem_map,List.mem_filter]
  constructor
  · intro found
    obtain ⟨p,⟨created,escrow⟩,rfl⟩ := found
    exact ⟨p.output,created,escrow⟩
  · intro found
    obtain ⟨x,created,escrow⟩ := found
    exact ⟨⟨o,x⟩,⟨created,escrow⟩,rfl⟩

theorem escrowContent {x : Output} (escrow : (x.escrowFor swapId).isSome = true) :
    ∃ address value, x = ⟨address,.swapPending value swapId⟩ := by
  obtain ⟨address,content⟩ := x
  unfold Output.escrowFor at escrow
  cases content with
  | swapPending value tag =>
      by_cases own : tag = swapId
      · exact ⟨address,value,own ▸ rfl⟩
      · simp [own] at escrow
  | value => cases escrow
  | withdrawal => cases escrow

def Escrows (lib : Externals F) (txs : List Transaction) (o : OutPoint) (swapId : SwapId) : Prop :=
  ∃ tx ∈ txs, tx.createdId = some swapId ∧ o ∈ tx.escrowOutpoints lib swapId

theorem createdAtEscrow {txs : List Transaction} (bind : TxidsBind lib txs) (short : ∀ tx ∈ txs, tx.Short lib)
    (escrows : Escrows lib txs o swapId) {tx : Transaction} (mem : tx ∈ txs) {x : Output}
    (created : ⟨o,x⟩ ∈ tx.createdOutputs lib) : tx.createdId = some swapId ∧ (x.escrowFor swapId).isSome = true := by
  obtain ⟨origin,memOrigin,creates,inside⟩ := escrows
  obtain ⟨y,createdOrigin,escrow⟩ := memEscrow.mp inside
  obtain ⟨alike,bares⟩ := createdAlike bind mem memOrigin (short tx mem) (short origin memOrigin) created createdOrigin rfl
  refine ⟨alike.created.trans creates,?_⟩
  rw [← bareEscrow,bares,bareEscrow]
  exact escrow

theorem escrowRegular {txs : List Transaction} (escrows : Escrows lib txs o swapId) :
    ∃ txid vout, o = .regular txid vout := by
  obtain ⟨tx,_,_,inside⟩ := escrows
  obtain ⟨x,created,_⟩ := memEscrow.mp inside
  obtain ⟨output,_,same⟩ := List.mem_map.mp created
  exact ⟨_,_,(congrArg PointedOutput.outpoint same).symm⟩

end Escrows

section Locks

variable {txs : List Transaction} {locks : OutPoint → Option SwapId}

theorem lockOrigin (locked : txs.foldl (fun locks tx => locksAfter lib tx locks) locks o = some swapId) :
    locks o = some swapId ∨ Escrows lib txs o swapId := by
  induction txs generalizing locks with
  | nil => exact .inl locked
  | cons tx txs ih =>
      rcases ih locked with before | ⟨origin,mem,creates,inside⟩
      · by_cases creates : tx.createdId = some swapId ∧ o ∈ tx.escrowOutpoints lib swapId
        · exact .inr ⟨tx,List.mem_cons_self,creates.1,creates.2⟩
        · unfold locksAfter at before
          cases kind : tx.data with
          | swapCreate create =>
              simp only [kind] at before
              split at before
              · next inside =>
                  have own := Option.some.inj before
                  exact absurd ⟨createdIdSome.mpr ⟨create,kind,own⟩,own ▸ inside⟩ creates
              · exact .inl before
          | swapClaim claimed declared proof =>
              simp only [kind] at before
              split at before
              · cases before
              · exact .inl before
          | regular => exact .inl (by simpa only [kind] using before)
          | swapAccept accepted claimer => exact .inl (by simpa only [kind] using before)
      · exact .inr ⟨origin,List.mem_cons_of_mem tx mem,creates,inside⟩

theorem lockKept {tx : Transaction} (ours : ∀ other, tx.createdId = some other → o ∈ tx.escrowOutpoints lib other →
      other = swapId) (unclaimed : tx.Claims swapId → o ∉ tx.inputs.map (·.1)) (locked : locks o = some swapId) :
    locksAfter lib tx locks o = some swapId := by
  unfold locksAfter
  cases kind : tx.data with
  | swapCreate create =>
      dsimp only
      split
      · next inside => exact congrArg some (ours create.swapId (createdIdSome.mpr ⟨create,kind,rfl⟩) inside)
      · exact locked
  | swapClaim claimed declared proof =>
      dsimp only
      split
      · next released =>
          have own : claimed = swapId := Option.some.inj (released.2.symm.trans locked)
          exact absurd released.1 (unclaimed ⟨declared,proof,own ▸ kind⟩)
      · exact locked
  | regular => exact locked
  | swapAccept accepted claimer => exact locked

theorem locksKept (ours : ∀ tx ∈ txs, ∀ other, tx.createdId = some other → o ∈ tx.escrowOutpoints lib other →
      other = swapId) (unclaimed : ∀ tx ∈ txs, tx.Claims swapId → o ∉ tx.inputs.map (·.1))
    (locked : locks o = some swapId) : txs.foldl (fun locks tx => locksAfter lib tx locks) locks o = some swapId := by
  induction txs generalizing locks with
  | nil => exact locked
  | cons tx txs ih =>
      refine ih (fun tx mem => ours tx (List.mem_cons_of_mem _ mem)) (fun tx mem => unclaimed tx (List.mem_cons_of_mem _ mem)) ?_
      exact lockKept (ours tx List.mem_cons_self) (unclaimed tx List.mem_cons_self) locked

theorem escrowsLocked (ours : ∀ tx ∈ txs, ∀ other, tx.createdId = some other → o ∈ tx.escrowOutpoints lib other →
      other = swapId) (unclaimed : ∀ tx ∈ txs, ¬ tx.Claims swapId) (escrows : Escrows lib txs o swapId) :
    txs.foldl (fun locks tx => locksAfter lib tx locks) locks o = some swapId := by
  obtain ⟨tx,mem,creates,inside⟩ := escrows
  obtain ⟨front,back,rfl⟩ := List.append_of_mem mem
  rw [List.foldl_append,List.foldl_cons]
  refine locksKept (fun tx mem => ours tx (List.mem_append_right front (List.mem_cons_of_mem _ mem)))
    (fun tx mem claims => absurd claims (unclaimed tx (List.mem_append_right front (List.mem_cons_of_mem _ mem)))) ?_
  obtain ⟨create,kind,rfl⟩ := createdIdSome.mp creates
  simp only [locksAfter,kind]
  exact if_pos inside

theorem claimReleases {tx : Transaction} (mem : tx ∈ txs) (claims : tx.Claims swapId) (spent : o ∈ tx.inputs.map (·.1))
    (fresh : ¬ Escrows lib txs o swapId) :
    txs.foldl (fun locks tx => locksAfter lib tx locks) locks o ≠ some swapId := by
  obtain ⟨front,back,rfl⟩ := List.append_of_mem mem
  rw [List.foldl_append,List.foldl_cons]
  intro locked
  rcases lockOrigin locked with afterClaim | ⟨origin,inside,creates,escrow⟩
  · obtain ⟨declared,proof,kind⟩ := claims
    simp only [locksAfter,kind] at afterClaim
    split at afterClaim
    · cases afterClaim
    · next unlocked => exact unlocked ⟨spent,afterClaim⟩
  · exact fresh ⟨origin,List.mem_append_right front (List.mem_cons_of_mem tx inside),creates,escrow⟩

end Locks

section Values

theorem escrowsDistinct {tx : Transaction} (short : tx.Short lib) : (tx.escrowOutpoints lib swapId).Nodup :=
  (createdDistinct short).sublist (List.filter_sublist.map _)

theorem lockedOutputsDistinct {w : SwapTables} : (w.lockedOutputsOf swapId).Nodup :=
  Table.entriesDistinct.sublist (List.filter_sublist.map _)

theorem lockedValueGe {os : List OutPoint} (distinct : os.Nodup)
    (locked : ∀ o ∈ os, s.isOutputLockedToSwap o = some swapId) : (os.map s.valueAt).sum ≤ s.lockedValue swapId := by
  have sub : List.Subperm os (s.lockedOutputsOf swapId) :=
    List.subperm_of_subset distinct (fun o mem => memLockedOutputsOf.mpr (locked o mem))
  obtain ⟨picked,perm,sublist⟩ := sub
  rw [State.lockedValue,← (perm.map s.valueAt).sum_eq]
  exact (sublist.map s.valueAt).sum_le_sum (fun _ _ => Nat.zero_le _)

theorem lockedValueMono (stays : ∀ o, s.isOutputLockedToSwap o = some swapId →
      t.isOutputLockedToSwap o = some swapId ∧ t.utxos.tryGet o = s.utxos.tryGet o) :
    s.lockedValue swapId ≤ t.lockedValue swapId := by
  have values : (s.lockedOutputsOf swapId).map s.valueAt = (s.lockedOutputsOf swapId).map t.valueAt := by
    refine List.map_congr_left (fun o mem => ?_)
    rw [State.valueAt,State.valueAt,(stays o (memLockedOutputsOf.mp mem)).2]
  rw [State.lockedValue,values]
  exact lockedValueGe lockedOutputsDistinct (fun o mem => (stays o (memLockedOutputsOf.mp mem)).1)

theorem escrowForValue {x : Output} {value : Amount} (escrow : x.escrowFor swapId = some value) : x.getValue = value := by
  obtain ⟨address,content⟩ := x
  unfold Output.escrowFor at escrow
  cases content with
  | swapPending amount tag =>
      simp only [Option.ite_none_right_eq_some,Option.some.injEq] at escrow
      exact escrow.2
  | value => cases escrow
  | withdrawal => cases escrow

theorem escrowSum {tx : Transaction} (values : ∀ p ∈ tx.createdOutputs lib, (p.output.escrowFor swapId).isSome = true →
      s.valueAt p.outpoint = p.output.getValue.val) :
    ((tx.escrowOutpoints lib swapId).map s.valueAt).sum =
      ((tx.outputs.filterMap (Output.escrowFor swapId)).map Amount.val).sum := by
  have pairs (outputs : List (Output × Nat)) (pointed : Output × Nat → PointedOutput)
      (same : ∀ o, (pointed o).output = o.1) (values : ∀ p ∈ outputs.map pointed,
        (p.output.escrowFor swapId).isSome = true → s.valueAt p.outpoint = p.output.getValue.val) :
      ((((outputs.map pointed).filter (fun p => (p.output.escrowFor swapId).isSome)).map (·.outpoint)).map s.valueAt).sum =
        (((outputs.map (·.1)).filterMap (Output.escrowFor swapId)).map Amount.val).sum := by
    induction outputs with
    | nil => rfl
    | cons first rest ih =>
        have tail := ih (fun p mem => values p (List.mem_cons_of_mem _ mem))
        have head := values (pointed first) List.mem_cons_self
        rw [same] at head
        rw [List.map_cons,List.map_cons]
        cases escrow : first.1.escrowFor swapId with
        | none =>
            rw [List.filter_cons_of_neg (by rw [same,escrow]; simp),List.filterMap_cons_none escrow]
            exact tail
        | some value =>
            rw [List.filter_cons_of_pos (by rw [same,escrow]; rfl),List.filterMap_cons_some escrow]
            simp only [List.map_cons,List.sum_cons]
            rw [tail,head (by rw [escrow]; rfl),escrowForValue escrow]
  have firsts := List.zipIdx_map_fst 0 tx.outputs
  have total := pairs tx.outputs.zipIdx _ (fun _ => rfl) values
  rw [firsts] at total
  exact total

end Values

section Records

variable {w w' : SwapTables} {filled : List FilledTransaction} {height : Nat}

theorem createdAmount (ok : filled.foldlM (connectSwap lib height) w = .ok w') (missing : w.getSwap swapId = none)
    {swap : Swap} (recorded : w'.getSwap swapId = some swap) : ∃ f ∈ filled, ∃ create,
    f.transaction.data = .swapCreate create ∧ create.swapId = swapId ∧ swap.l2Amount = Amount.fromSat create.l2Amount := by
  have invariant : ∀ swap, w'.getSwap swapId = some swap → ∃ f ∈ filled, ∃ create,
      f.transaction.data = .swapCreate create ∧ create.swapId = swapId ∧ swap.l2Amount = Amount.fromSat create.l2Amount := by
    refine foldInvariant (P := fun w' => ∀ swap, w'.getSwap swapId = some swap → ∃ f ∈ filled, ∃ create,
      f.transaction.data = .swapCreate create ∧ create.swapId = swapId ∧
        swap.l2Amount = Amount.fromSat create.l2Amount) ?_ ?_ ok
    · intro middle f next mem before step swap found
      rw [(connectSwapEffect step).2.2.1] at found
      unfold recordsAfter at found
      cases kind : f.transaction.data with
      | swapCreate create =>
          simp only [kind] at found
          split at found
          · next own =>
              cases found
              exact ⟨f,mem,create,kind,own.symm,rfl⟩
          · exact before swap found
      | swapClaim claimed declared proof =>
          simp only [kind] at found
          split at found
          · obtain ⟨old,recordedOld,rfl⟩ := Option.map_eq_some_iff.mp found
            exact before old recordedOld
          · exact before swap found
      | regular => exact before swap (by simpa only [kind] using found)
      | swapAccept accepted claimer => exact before swap (by simpa only [kind] using found)
    · intro swap found
      rw [missing] at found
      cases found
  exact invariant swap recorded

theorem recordQuiet (ok : filled.foldlM (connectSwap lib height) w = .ok w') (recorded : (w.getSwap swapId).isSome = true)
    (others : ∀ f ∈ filled, f.transaction.createdId ≠ some swapId) :
    ((∀ f ∈ filled, ¬ f.transaction.Claims swapId) ∧ w'.getSwap swapId = w.getSwap swapId) ∨
      ∃ swap, w'.getSwap swapId = some swap ∧ swap.state = .completed := by
  induction filled generalizing w with
  | nil =>
      cases foldNilOk.mp ok
      exact .inl ⟨by simp,rfl⟩
  | cons f rest ih =>
      obtain ⟨middle,first,more⟩ := foldConsOk.mp ok
      have records := congrFun (connectSwapEffect first).2.2.1 swapId
      have quiet (unclaimed : ¬ f.transaction.Claims swapId) : middle.getSwap swapId = w.getSwap swapId := by
        rw [records]
        unfold recordsAfter
        cases kind : f.transaction.data with
        | swapCreate create =>
            have other : swapId ≠ create.swapId := fun own =>
              others f List.mem_cons_self (createdIdSome.mpr ⟨create,kind,own.symm⟩)
            simp [other]
        | swapClaim claimed declared proof =>
            have other : swapId ≠ claimed := fun own => unclaimed ⟨declared,proof,own ▸ kind⟩
            simp [other]
        | regular => rfl
        | swapAccept accepted claimer => rfl
      have stillRecorded : (middle.getSwap swapId).isSome = true := by
        rw [records]
        exact recordedAfter.mpr (.inl recorded)
      rcases ih more stillRecorded (fun g mem => others g (List.mem_cons_of_mem _ mem)) with ⟨unclaimed,same⟩ | completed
      · by_cases claims : f.transaction.Claims swapId
        · refine .inr ?_
          obtain ⟨declared,proof,kind⟩ := claims
          obtain ⟨swap,found⟩ := Option.isSome_iff_exists.mp recorded
          refine ⟨swap.markCompleted,?_,rfl⟩
          rw [same,records]
          simp only [recordsAfter,kind,if_true,found,Option.map_some]
        · refine .inl ⟨?_,same.trans (quiet claims)⟩
          intro g mem
          rcases List.mem_cons.mp mem with rfl | inside
          · exact claims
          · exact unclaimed g inside
      · exact .inr completed

end Records

/- What the history of a node says about its locks. -/
structure Escrowed (lib : Externals F) (txs : List Transaction) (s : State F) : Prop where
  created : ∀ tx ∈ txs, ∀ swapId, tx.createdId = some swapId → (s.getSwap swapId).isSome = true
  origin : ∀ o swapId, s.isOutputLockedToSwap o = some swapId → Escrows lib txs o swapId
  backed : ∀ o swapId, s.isOutputLockedToSwap o = some swapId →
    ∃ x, s.utxos.tryGet o = some x ∧ (x.escrowFor swapId).isSome = true
  covered : ∀ swapId swap, s.getSwap swapId = some swap → swap.isUnsettled = true →
    swap.l2Amount.val ≤ s.lockedValue swapId
  early : s.height = none → ∀ o, s.utxos.tryGet o = none
  genesis : s.height = none ∨ s.height = some 0 → ∀ swapId, s.getSwap swapId = none

theorem Escrowed.recorded {txs : List Transaction} (escrowed : Escrowed lib txs s)
    (locked : s.isOutputLockedToSwap o = some swapId) : (s.getSwap swapId).isSome = true := by
  obtain ⟨tx,mem,creates,_⟩ := escrowed.origin o swapId locked
  exact escrowed.created tx mem swapId creates

theorem Escrowed.solvent {txs : List Transaction} (escrowed : Escrowed lib txs s) : EscrowSolvent s := by
  refine ⟨?_,escrowed.covered⟩
  intro o swapId locked
  obtain ⟨x,found,escrow⟩ := escrowed.backed o swapId locked
  obtain ⟨address,value,rfl⟩ := escrowContent escrow
  exact ⟨⟨address,value,found⟩,escrowed.recorded locked⟩

section Block

structure Extends (lib : Externals F) (txs : List Transaction) (s : State F) (body : Body) : Prop where
  escrowed : Escrowed lib txs s
  regular : ∀ txid vout x, s.utxos.tryGet (.regular txid vout) = some x →
    ∃ tx ∈ txs, ⟨.regular txid vout,x⟩ ∈ tx.createdOutputs lib
  bind : TxidsBind lib (txs ++ body.transactions)
  short : ∀ tx ∈ txs ++ body.transactions, tx.Short lib

variable {txs : List Transaction}

theorem escrowsLeft {more : List Transaction} (escrows : Escrows lib txs o swapId) : Escrows lib (txs ++ more) o swapId := by
  obtain ⟨tx,mem,rest⟩ := escrows
  exact ⟨tx,List.mem_append_left more mem,rest⟩

theorem escrowsRight {more : List Transaction} (escrows : Escrows lib more o swapId) : Escrows lib (txs ++ more) o swapId := by
  obtain ⟨tx,mem,rest⟩ := escrows
  exact ⟨tx,List.mem_append_right txs mem,rest⟩

theorem Extends.freshEscrow (extends_ : Extends lib txs s body) (source : PrevalidateSource lib ctxt s header body pre)
    (escrows : Escrows lib body.transactions o swapId) : s.utxos.tryGet o = none := by
  refine Option.eq_none_iff_forall_ne_some.mpr (fun x found => ?_)
  obtain ⟨txid,vout,rfl⟩ := escrowRegular escrows
  obtain ⟨tx,mem,created⟩ := extends_.regular txid vout x found
  obtain ⟨creates,_⟩ := createdAtEscrow extends_.bind extends_.short (escrowsRight escrows)
    (List.mem_append_left _ mem) created
  obtain ⟨origin,inside,createsAgain,_⟩ := escrows
  exact source.notCreated (extends_.escrowed.created tx mem swapId creates) origin inside createsAgain

theorem Extends.lockedUncreated (extends_ : Extends lib txs s body) (source : PrevalidateSource lib ctxt s header body pre)
    (locked : s.isOutputLockedToSwap o = some swapId) (x : Output) : ⟨o,x⟩ ∉ blockCreates lib header body := by
  have escrows := extends_.escrowed.origin o swapId locked
  intro made
  rcases List.mem_append.mp made with coinbase | created
  · obtain ⟨txid,vout,rfl⟩ := escrowRegular escrows
    obtain ⟨_,_,same⟩ := List.mem_map.mp coinbase
    cases congrArg PointedOutput.outpoint same
  · obtain ⟨tx,mem,inside⟩ := List.mem_flatMap.mp created
    obtain ⟨creates,_⟩ := createdAtEscrow extends_.bind extends_.short (escrowsLeft escrows)
      (List.mem_append_right _ mem) inside
    exact source.notCreated (extends_.escrowed.recorded locked) tx mem creates

theorem Extends.lockedNoEscrow (extends_ : Extends lib txs s body) (source : PrevalidateSource lib ctxt s header body pre)
    (locked : s.isOutputLockedToSwap o = some swapId) {tx : Transaction} (mem : tx ∈ body.transactions) (other : SwapId) :
    o ∉ tx.escrowOutpoints lib other := by
  intro inside
  obtain ⟨x,created,_⟩ := memEscrow.mp inside
  exact extends_.lockedUncreated source locked x
    (List.mem_append_right _ (List.mem_flatMap.mpr ⟨tx,mem,created⟩))

theorem Extends.lockedSpent (extends_ : Extends lib txs s body) (source : PrevalidateSource lib ctxt s header body pre)
    (locked : s.isOutputLockedToSwap o = some swapId) (spent : o ∈ body.inputKeys) :
    ∃ tx ∈ body.transactions, tx.Claims swapId ∧ o ∈ tx.inputs.map (·.1) := by
  obtain ⟨tx,mem,isInput⟩ := List.mem_flatMap.mp spent
  obtain ⟨input,inside,rfl⟩ := List.mem_map.mp isInput
  obtain ⟨filled,_,txSource⟩ := relatedLeft source.transactions mem
  rcases transactionSpendsOwn txSource inside locked with claims | ⟨_,_,_,missing⟩
  · exact ⟨tx,mem,claims,isInput⟩
  · have recorded := extends_.escrowed.recorded locked
    rw [missing] at recorded
    cases recorded

theorem Extends.lockStays (extends_ : Extends lib txs s body) (source : ConnectBlockSource lib ctxt s header body pre t)
    (locked : s.isOutputLockedToSwap o = some swapId)
    (unclaimed : ∀ tx ∈ body.transactions, tx.Claims swapId → o ∉ tx.inputs.map (·.1)) :
    t.isOutputLockedToSwap o = some swapId ∧ t.utxos.tryGet o = s.utxos.tryGet o := by
  refine ⟨?_,?_⟩
  · rw [source.locks]
    refine locksKept (fun tx mem other _ inside => ?_) unclaimed locked
    exact absurd inside (extends_.lockedNoEscrow source.validated locked mem other)
  · refine congrArg Cell.unspent (blockUntouched source.connected.coins ?_ (extends_.lockedUncreated source.validated locked))
    intro spent
    obtain ⟨tx,mem,claims,isInput⟩ := extends_.lockedSpent source.validated locked spent
    exact unclaimed tx mem claims isInput

theorem Extends.escrowThere (extends_ : Extends lib txs s body) (source : ConnectBlockSource lib ctxt s header body pre t)
    (escrows : Escrows lib body.transactions o swapId) :
    ∃ y, t.utxos.tryGet o = some y ∧ ∃ tx ∈ body.transactions, ⟨o,y⟩ ∈ tx.createdOutputs lib := by
  have unspent : o ∉ body.inputKeys := by
    intro spent
    have present := inputsPresent source.validated.transactions spent
    rw [extends_.freshEscrow source.validated escrows] at present
    cases present
  obtain ⟨txid,vout,rfl⟩ := escrowRegular escrows
  obtain ⟨origin,mem,_,inside⟩ := escrows
  obtain ⟨x,created,_⟩ := memEscrow.mp inside
  obtain ⟨y,found,made⟩ := blockCreated source.connected.coins unspent
    (List.mem_append_right _ (List.mem_flatMap.mpr ⟨origin,mem,created⟩))
  refine ⟨y,found,?_⟩
  rcases List.mem_append.mp made with coinbase | byTransaction
  · obtain ⟨_,_,same⟩ := List.mem_map.mp coinbase
    cases congrArg PointedOutput.outpoint same
  · exact List.mem_flatMap.mp byTransaction

theorem Extends.backedAfter (extends_ : Extends lib txs s body) (source : ConnectBlockSource lib ctxt s header body pre t)
    (locked : t.isOutputLockedToSwap o = some swapId) :
    ∃ x, t.utxos.tryGet o = some x ∧ (x.escrowFor swapId).isSome = true := by
  have folded := locked
  rw [source.locks] at folded
  rcases lockOrigin folded with before | escrows
  · have unclaimed : ∀ tx ∈ body.transactions, tx.Claims swapId → o ∉ tx.inputs.map (·.1) := by
      intro tx mem claims isInput
      refine claimReleases mem claims isInput (fun escrows => ?_) folded
      obtain ⟨other,inside,_,escrow⟩ := escrows
      exact extends_.lockedNoEscrow source.validated before inside swapId escrow
    obtain ⟨x,found,escrow⟩ := extends_.escrowed.backed o swapId before
    exact ⟨x,(extends_.lockStays source before unclaimed).2.trans found,escrow⟩
  · obtain ⟨y,found,tx,mem,created⟩ := extends_.escrowThere source escrows
    exact ⟨y,found,(createdAtEscrow extends_.bind extends_.short (escrowsRight escrows)
      (List.mem_append_right _ mem) created).2⟩

theorem Extends.newCovered (extends_ : Extends lib txs s body) (source : ConnectBlockSource lib ctxt s header body pre t)
    (missing : s.getSwap swapId = none) {swap : Swap} (recorded : t.getSwap swapId = some swap) :
    swap.l2Amount.val ≤ t.lockedValue swapId := by
  obtain ⟨f,mem,create,kind,rfl,amount⟩ := createdAmount source.connected.swaps missing recorded
  obtain ⟨inside,txSource⟩ := filledSource source.validated.transactions mem
  obtain ⟨value,sum,enough⟩ := (txSource.create kind).escrowed
  have creates : f.transaction.createdId = some create.swapId := createdIdSome.mpr ⟨create,kind,rfl⟩
  have escrowsAt (o : OutPoint) (isEscrow : o ∈ f.transaction.escrowOutpoints lib create.swapId) :
      Escrows lib body.transactions o create.swapId := ⟨f.transaction,inside,creates,isEscrow⟩
  have unclaimed : ∀ tx ∈ body.transactions, ¬ tx.Claims create.swapId := by
    rintro tx memTx ⟨declared,proof,isClaim⟩
    obtain ⟨_,_,_,rules⟩ := source.validated.claim memTx isClaim
    have isRecorded := rules.recorded
    rw [missing] at isRecorded
    cases isRecorded
  have values : ∀ p ∈ f.transaction.createdOutputs lib, (p.output.escrowFor create.swapId).isSome = true →
      t.valueAt p.outpoint = p.output.getValue.val := by
    intro p created isEscrow
    obtain ⟨y,found,tx,memTx,createdY⟩ := extends_.escrowThere source
      (escrowsAt p.outpoint (memEscrow.mpr ⟨p.output,created,isEscrow⟩))
    have bares := (createdAlike extends_.bind (List.mem_append_right _ memTx) (List.mem_append_right _ inside)
      (extends_.short tx (List.mem_append_right _ memTx)) (extends_.short _ (List.mem_append_right _ inside))
      createdY created rfl).2
    have same : y.getValue = p.output.getValue := by rw [← bareValue,bares,bareValue]
    rw [State.valueAt,found]
    exact congrArg Amount.val same
  have locked : ∀ o ∈ f.transaction.escrowOutpoints lib create.swapId,
      t.isOutputLockedToSwap o = some create.swapId := by
    intro o isEscrow
    rw [source.locks]
    refine escrowsLocked (fun tx memTx other createsOther insideOther => ?_) unclaimed (escrowsAt o isEscrow)
    obtain ⟨x,created,_⟩ := memEscrow.mp insideOther
    have own := (createdAtEscrow extends_.bind extends_.short (escrowsRight (escrowsAt o isEscrow))
      (List.mem_append_right _ memTx) created).1
    exact Option.some.inj (createsOther.symm.trans own)
  have total := lockedValueGe (escrowsDistinct (extends_.short _ (List.mem_append_right _ inside))) locked
  rw [escrowSum values,← Amount.checkedSumVal sum] at total
  rw [amount]
  exact Nat.le_trans enough total

theorem Extends.covered (extends_ : Extends lib txs s body) (source : ConnectBlockSource lib ctxt s header body pre t)
    {swap : Swap} (recorded : t.getSwap swapId = some swap) (unsettled : swap.isUnsettled = true) :
    swap.l2Amount.val ≤ t.lockedValue swapId := by
  cases before : s.getSwap swapId with
  | none => exact extends_.newCovered source before recorded
  | some old =>
      have isRecorded : (s.getSwap swapId).isSome = true := by rw [before]; rfl
      have others : ∀ f ∈ pre.filledTransactions, f.transaction.createdId ≠ some swapId := fun f mem =>
        source.validated.notCreated isRecorded f.transaction (filledSource source.validated.transactions mem).1
      rcases recordQuiet source.connected.swaps isRecorded others with ⟨unclaimed,same⟩ | ⟨found,isFound,completed⟩
      · have isSwap : old = swap := Option.some.inj (before.symm.trans (same.symm.trans recorded))
        have covered := extends_.escrowed.covered swapId swap (isSwap ▸ before) unsettled
        have stays (o : OutPoint) (locked : s.isOutputLockedToSwap o = some swapId) :=
          extends_.lockStays source locked (fun tx mem claims => by
            obtain ⟨f,inside,rfl⟩ := List.mem_map.mp (filledTransactions source.validated.transactions ▸ mem)
            exact absurd claims (unclaimed f inside))
        exact Nat.le_trans covered (lockedValueMono stays)
      · obtain rfl : swap = found := Option.some.inj (recorded.symm.trans isFound)
        simp [Swap.isUnsettled,Swap.isAwaiting,completed] at unsettled

theorem Extends.after (extends_ : Extends lib txs s body) (ok : connectBlock lib ctxt s header body = .ok t) :
    Escrowed lib (txs ++ body.transactions) t := by
  obtain ⟨pre,source⟩ := connectBlockSource ok
  refine ⟨?_,?_,?_,?_,?_,?_⟩
  · intro tx mem swapId creates
    refine (recordedAfterAll source.connected.swaps).mpr ?_
    rcases List.mem_append.mp mem with before | inside
    · exact .inl (extends_.escrowed.created tx before swapId creates)
    · rw [filledTransactions source.validated.transactions]
      exact .inr (List.mem_filterMap.mpr ⟨tx,inside,creates⟩)
  · intro o swapId locked
    rw [source.locks] at locked
    rcases lockOrigin locked with before | escrows
    · exact escrowsLeft (extends_.escrowed.origin o swapId before)
    · exact escrowsRight escrows
  · intro o swapId locked
    exact extends_.backedAfter source locked
  · intro swapId swap recorded unsettled
    exact extends_.covered source recorded unsettled
  · intro isNone
    rw [source.connected.height] at isNone
    cases isNone
  · intro first swapId
    rw [source.connected.height] at first
    have start : s.height = none := by
      rcases first with isNone | isZero
      · cases isNone
      · unfold State.nextHeight at isZero
        cases height : s.height with
        | none => rfl
        | some below => simp [height] at isZero
    rw [← Option.not_isSome_iff_eq_none,recordedAfterAll source.connected.swaps,not_or,
      filledTransactions source.validated.transactions]
    refine ⟨by simp [extends_.escrowed.genesis (.inl start)],fun made => ?_⟩
    obtain ⟨tx,mem,creates⟩ := List.mem_filterMap.mp made
    obtain ⟨create,kind,_⟩ := createdIdSome.mp creates
    obtain ⟨filled,_,txSource⟩ := relatedLeft source.validated.transactions mem
    obtain ⟨first,isFirst,_⟩ := (txSource.create kind).swapId
    obtain ⟨input,isInput,found⟩ := relatedRight txSource.fill.spent (List.mem_of_mem_head? isFirst)
    rw [extends_.escrowed.early start] at found
    cases found

end Block

section Peg

variable {txs : List Transaction} {made : List PointedOutput} {height : Nat}

/- Peg events work at no escrow's outpoint: bundles are made of withdrawals, and only the genesis block
may see an unknown bundle confirmed. -/
theorem eventOpsAway {utxos : Table OutPoint Output} {w w' : PegTables} {event : BlockEvent} {ops : List PegOp}
    (bundles : BundlesFrom made w) (later : height ≠ 0) (escrows : Escrows lib txs o swapId)
    (alike : ∀ x, ⟨o,x⟩ ∈ made → (x.escrowFor swapId).isSome = true)
    (happened : EventCase lib height utxos w event ops w') : ∀ op ∈ ops, op.utxo.1 ≠ o := by
  have notWithdrawn {bundle : WithdrawalBundle} (source : BundleFrom made bundle) : ∀ u ∈ bundle.spendUtxos, u.1 ≠ o := by
    intro u mem here
    obtain ⟨_,_,isEscrow⟩ := escrowContent (alike u.2 (here ▸ source.created u mem))
    have isWithdrawal := source.withdrawals u mem
    rw [isEscrow] at isWithdrawal
    cases isWithdrawal
  intro op mem
  cases happened with
  | deposited d =>
      obtain ⟨txid,vout,rfl⟩ := escrowRegular escrows
      cases List.mem_singleton.mp mem
      intro same
      cases same
  | submitted pending own next =>
      obtain ⟨u,inside,rfl⟩ := List.mem_map.mp mem
      exact notWithdrawn (bundles.pending _ _ pending) u inside
  | confirmedUnknown recorded unknown genesis live push => exact absurd genesis later
  | failed recorded live push failures =>
      obtain ⟨u,inside,rfl⟩ := List.mem_map.mp mem
      exact notWithdrawn (bundles.known _ _ _ recorded) u inside
  | _ => cases mem

theorem pegEscrowKept {data : TwoWayPegData} {rpc : RpcReplies} (provenance : Provenance made s)
    (later : s.height ≠ some 0) (escrows : Escrows lib txs o swapId)
    (alike : ∀ x, ⟨o,x⟩ ∈ made → (x.escrowFor swapId).isSome = true)
    (ok : connectTwoWayPegData lib s data rpc = .ok t) : t.utxos.tryGet o = s.utxos.tryGet o := by
  obtain ⟨height,progress,source⟩ := pegConnectSource ok
  have notGenesis : height ≠ 0 := fun isZero => later (isZero ▸ source.atHeight)
  have kept : BundlesFrom made progress.toPegTables ∧ progress.toLedger.cell o = s.toLedger.cell o := by
    refine eventsInvariant (P := fun p => BundlesFrom made p.toPegTables ∧ p.toLedger.cell o = s.toLedger.cell o) ?_
      ⟨provenance.bundles,rfl⟩ source.events
    intro p event p' ops _ holds effect
    refine ⟨eventBundlesFrom holds.1 effect.cases,?_⟩
    rw [effect.ledger,opsElsewhere (eventOpsAway holds.1 notGenesis escrows alike effect.cases)]
    exact holds.2
  have same : t.toLedger.cell o = s.toLedger.cell o := by rw [source.ledger,kept.2]
  exact congrArg Cell.unspent same

end Peg

section Run

variable {txs : List Transaction}

theorem Escrowed.quiet (escrowed : Escrowed lib txs s) (height : t.height = s.height)
    (records : ∀ swapId, (t.getSwap swapId).isSome = (s.getSwap swapId).isSome)
    (locks : ∀ o swapId, t.isOutputLockedToSwap o = some swapId → s.isOutputLockedToSwap o = some swapId)
    (utxos : ∀ o swapId, s.isOutputLockedToSwap o = some swapId → t.utxos.tryGet o = s.utxos.tryGet o)
    (early : t.height = none → ∀ o, t.utxos.tryGet o = none)
    (unsettled : ∀ swapId swap, t.getSwap swapId = some swap → swap.isUnsettled = true →
      (∃ old, s.getSwap swapId = some old ∧ old.isUnsettled = true ∧ old.l2Amount = swap.l2Amount) ∧
      ∀ o, s.isOutputLockedToSwap o = some swapId → t.isOutputLockedToSwap o = some swapId) :
    Escrowed lib txs t := by
  refine ⟨?_,?_,?_,?_,early,?_⟩
  · intro tx mem swapId creates
    rw [records]
    exact escrowed.created tx mem swapId creates
  · intro o swapId locked
    exact escrowed.origin o swapId (locks o swapId locked)
  · intro o swapId locked
    have before := locks o swapId locked
    rw [utxos o swapId before]
    exact escrowed.backed o swapId before
  · intro swapId swap recorded isUnsettled
    obtain ⟨⟨old,before,oldUnsettled,amount⟩,stays⟩ := unsettled swapId swap recorded isUnsettled
    rw [← amount]
    refine Nat.le_trans (escrowed.covered swapId old before oldUnsettled) (lockedValueMono ?_)
    intro o locked
    exact ⟨stays o locked,utxos o swapId locked⟩
  · intro first swapId
    rw [height] at first
    have missing := escrowed.genesis first swapId
    rw [← Option.isNone_iff_eq_none,← Option.not_isSome,records,missing]
    rfl

theorem Swap.Observed.covers {before after : Swap} (observed : before.Observed after) (unsettled : after.isUnsettled = true) :
    before.isUnsettled = true ∧ before.l2Amount = after.l2Amount :=
  ⟨observed.unsettled ▸ unsettled,(congrArg SwapTerms.l2Amount observed.terms).symm⟩

theorem relSome {α β : Type} {R : α → β → Prop} {a : Option α} {b : Option β} (related : Option.Rel R a b) :
    b.isSome = a.isSome := by
  cases related <;> rfl

theorem Escrowed.peg {data : TwoWayPegData} {rpc : RpcReplies} {made : List PointedOutput} (escrowed : Escrowed lib txs s)
    (provenance : Provenance made s)
    (alike : ∀ o swapId x, Escrows lib txs o swapId → ⟨o,x⟩ ∈ made → (x.escrowFor swapId).isSome = true)
    (ok : connectTwoWayPegData lib s data rpc = .ok t) : Escrowed lib txs t := by
  have source := connectPegSource ok
  obtain ⟨height,heightIs,effect⟩ := source.effect
  refine escrowed.quiet source.height (fun swapId => relSome (effect.records swapId)) ?_ ?_ ?_ ?_
  · intro o swapId locked
    rcases effect.lock o with ⟨_,_,_,_,_,released⟩ | ⟨_,kept⟩
    · rw [released] at locked
      cases locked
    · exact kept ▸ locked
  · intro o swapId locked
    have escrows := escrowed.origin o swapId locked
    have recorded := escrowed.recorded locked
    refine pegEscrowKept provenance (fun isZero => ?_) escrows (fun x => alike o swapId x escrows) ok
    rw [escrowed.genesis (.inr isZero)] at recorded
    cases recorded
  · intro isNone
    rw [source.height,heightIs] at isNone
    cases isNone
  · intro swapId swap recorded unsettled
    have record := effect.records swapId
    rw [recorded] at record
    cases before : s.getSwap swapId with
    | none =>
        rw [before] at record
        cases record
    | some old =>
        rw [before] at record
        obtain ⟨record⟩ := record
        unfold Swap.PegRecord at record
        split at record
        · subst record
          cases unsettled
        · next lives =>
            obtain ⟨oldUnsettled,amount⟩ := record.covers unsettled
            refine ⟨⟨old,rfl,oldUnsettled,amount⟩,fun o locked => ?_⟩
            rcases effect.lock o with ⟨other,expired,isLocked,isRecorded,expires,_⟩ | ⟨_,kept⟩
            · obtain rfl : other = swapId := Option.some.inj (isLocked.symm.trans locked)
              obtain rfl : expired = old := Option.some.inj (isRecorded.symm.trans before)
              exact absurd expires lives
            · exact kept.trans locked

theorem Escrowed.observe {w : SwapTables} (escrowed : Escrowed lib txs s) (effect : ObservationEffect s.toSwapTables w) :
    Escrowed lib txs { s with toSwapTables := w } := by
  have locks (o : OutPoint) : w.isOutputLockedToSwap o = s.isOutputLockedToSwap o := by
    rw [isOutputLockedToSwap,effect.locks,isOutputLockedToSwap]
  refine escrowed.quiet rfl (fun swapId => relSome (effect.records swapId)) ?_ (fun _ _ _ => rfl) escrowed.early ?_
  · intro o swapId locked
    exact (locks o).symm.trans locked
  · intro swapId swap recorded unsettled
    have record := effect.records swapId
    rw [show w.getSwap swapId = some swap from recorded] at record
    cases before : s.getSwap swapId with
    | none =>
        rw [before] at record
        cases record
    | some old =>
        rw [before] at record
        obtain ⟨observed⟩ := record
        obtain ⟨oldUnsettled,amount⟩ := observed.covers unsettled
        exact ⟨⟨old,rfl,oldUnsettled,amount⟩,fun o locked => (locks o).trans locked⟩

theorem Escrowed.cancel {w : SwapTables} {cancelled : SwapId} {creator : Option Address} (escrowed : Escrowed lib txs s)
    (ok : s.toSwapTables.cancelSwap cancelled creator = .ok w) : Escrowed lib txs { s with toSwapTables := w } := by
  obtain ⟨old,effect⟩ := cancelSwapEffect ok
  simp only [cancelSwap,bindOk,okOrOk,ensureOk,pureOk] at ok
  obtain ⟨_,_,_,_,_,_,same⟩ := ok
  have locks (o : OutPoint) : w.isOutputLockedToSwap o =
      if s.isOutputLockedToSwap o = some cancelled then none else s.isOutputLockedToSwap o := by
    rw [← same]
    exact lockedUnlockAll
  refine escrowed.quiet rfl ?_ ?_ (fun _ _ _ => rfl) escrowed.early ?_
  · intro swapId
    rw [effect.records]
    split
    · next own => rw [own,effect.recorded]; rfl
    · rfl
  · intro o swapId locked
    have after := locks o
    rw [show w.isOutputLockedToSwap o = some swapId from locked] at after
    split at after
    · cases after
    · exact after.symm
  · intro swapId swap recorded unsettled
    have record := effect.records swapId
    rw [show w.getSwap swapId = some swap from recorded] at record
    split at record
    · cases Option.some.inj record
      cases unsettled
    · next other =>
        refine ⟨⟨swap,record.symm,unsettled,rfl⟩,fun o locked => ?_⟩
        have after := locks o
        rw [locked,if_neg (fun own => other (Option.some.inj own))] at after
        exact after

theorem Escrowed.locally {op : LocalOp} (escrowed : Escrowed lib txs s) (ok : Step.apply lib ctxt s (.localOp op) = .ok t) :
    Escrowed lib txs t := by
  simp only [Step.apply,bindOk,pureOk] at ok
  obtain ⟨w,applied,rfl⟩ := ok
  cases op with
  | updateSwapL1Txid => exact escrowed.observe (updateSwapL1TxidEffect applied)
  | updateSwapConfirmations => exact escrowed.observe (updateSwapConfirmationsEffect applied)
  | cancelSwap => exact escrowed.cancel applied
  | cleanupOrphanedLocks =>
      have recorded : LocksRecorded s.toSwapTables := by
        intro o swapId locked missing
        have isRecorded := escrowed.recorded locked
        rw [missing] at isRecorded
        cases isRecorded
      cases applied
      rw [cleanupIdle recorded]
      exact escrowed

theorem newEscrowed : Escrowed lib [] (State.new F) := by
  refine ⟨?_,?_,?_,?_,fun _ _ => Table.tryGetEmpty,fun _ _ => Table.tryGetEmpty⟩
  · intro tx mem
    cases mem
  · intro o swapId locked
    cases Table.tryGetEmpty.symm.trans locked
  · intro o swapId locked
    cases Table.tryGetEmpty.symm.trans locked
  · intro swapId swap recorded
    cases Table.tryGetEmpty.symm.trans recorded

theorem createdIsEscrow (bind : TxidsBind lib (transactionsOf steps)) (short : ∀ tx ∈ transactionsOf steps, tx.Short lib)
    (escrows : Escrows lib (transactionsOf steps) o swapId) {x : Output} (mem : ⟨o,x⟩ ∈ createdBy lib steps) :
    (x.escrowFor swapId).isSome = true := by
  obtain ⟨txid,vout,rfl⟩ := escrowRegular escrows
  obtain ⟨tx,inside,created⟩ := createdByTransaction mem rfl
  exact (createdAtEscrow bind short escrows inside created).2

theorem runEscrowed (forward : ∀ step ∈ steps, step.isForward = true) (bind : TxidsBind lib (transactionsOf steps))
    (ok : run lib ctxt steps (State.new F) = .ok last) : Escrowed lib (transactionsOf steps) last := by
  have short := runShort ok
  refine historyInvariant (P := fun earlier s => Escrowed lib (transactionsOf earlier) s) newEscrowed ?_ ok
  intro earlier s x t later split reached applied escrowed
  have taken : transactionsOf (earlier ++ [x]) ⊆ transactionsOf steps := by
    have upTo : steps = (earlier ++ [x]) ++ later := by rw [split,List.append_assoc,List.singleton_append]
    intro tx mem
    rw [upTo,transactionsOfAppend]
    exact List.mem_append_left _ mem
  have bindNow : TxidsBind lib (transactionsOf (earlier ++ [x])) :=
    fun a memA b memB => bind a (taken memA) b (taken memB)
  have shortNow : ∀ tx ∈ transactionsOf (earlier ++ [x]), tx.Short lib := fun tx mem => short tx (taken mem)
  have provenance := runProvenance (fun step mem => forward step (split ▸ List.mem_append_left _ mem)) reached
  have isForward := forward x (split ▸ List.mem_append_right earlier List.mem_cons_self)
  rw [transactionsOfAppend] at bindNow shortNow ⊢
  cases x with
  | connect header body =>
      have body_ : transactionsOf [Step.connect (F := F) header body] = body.transactions := List.flatMap_singleton _ _
      rw [body_] at bindNow shortNow ⊢
      refine Extends.after ⟨escrowed,?_,bindNow,shortNow⟩ applied
      intro txid vout found isFound
      exact createdByTransaction (provenance.ledger.utxos _ _ isFound) rfl
  | connectPeg data rpc =>
      refine (List.append_nil (transactionsOf earlier)).symm ▸ escrowed.peg provenance ?_ applied
      intro o swapId found escrows isMade
      refine createdIsEscrow ?_ ?_ escrows isMade
      · exact fun a memA b memB => bindNow a (List.mem_append_left _ memA) b (List.mem_append_left _ memB)
      · exact fun tx mem => shortNow tx (List.mem_append_left _ mem)
  | localOp op => exact (List.append_nil (transactionsOf earlier)).symm ▸ escrowed.locally applied
  | _ => cases isForward

/- No two transactions of the run share a txid unless they are the same on the wire. -/
theorem escrowSolvent (forward : ∀ step ∈ steps, step.isForward = true) (bind : TxidsBind lib (transactionsOf steps))
    (ok : run lib ctxt steps (State.new F) = .ok last) : EscrowSolvent last :=
  (runEscrowed forward bind ok).solvent

section Reached
open Reference

theorem createdSolvent : ∃ (steps : List (Step Forest)) (last : State Forest),
    (∀ step ∈ steps, step.isForward = true) ∧ TxidsBind externals (transactionsOf steps) ∧
    run externals context steps (State.new Forest) = .ok last ∧
    last.lockedValue namedId = 900 ∧ EscrowSolvent last := by
  have played : plays (funded ++ [grow [(createNamed,[alice])],
      grow [(transaction [deposited 2 (coin bob 500)] [coin bob 400,coin alice 100] .regular,[bob])]])
      (fun steps s => steps.all Step.isForward && (decide (TxidsBind externals (transactionsOf steps)) &&
        s.lockedValue namedId = 900)) = true := by decide +kernel
  obtain ⟨steps,last,ran,checked⟩ := playsRun played
  obtain ⟨allForward,checked⟩ := Bool.and_eq_true_iff.mp checked
  obtain ⟨binds,value⟩ := Bool.and_eq_true_iff.mp checked
  have forward : ∀ step ∈ steps, step.isForward = true := List.all_eq_true.mp allForward
  have bind : TxidsBind externals (transactionsOf steps) := of_decide_eq_true binds
  exact ⟨steps,last,forward,bind,ran,of_decide_eq_true value,escrowSolvent forward bind ran⟩

end Reached

end Run

end Coinshift
