import Coinshift.StepEffects
import Coinshift.Reference

/-! When disconnecting a block gives every output the lock it had before.
The code keeps no record of the locks a block changed, so each outpoint is followed through the transactions
that may lock it, unlock it, or drop its lock when they are disconnected. -/
namespace Coinshift
open Checked SwapTables

section LockOps

/- What a transaction means to the lock of one outpoint: its creation escrows the outpoint,
it creates a swap and will drop a lock to that swap when disconnected, or its claim spends the outpoint. -/
inductive LockOp
  | escrow (swapId : SwapId)
  | forget (swapId : SwapId)
  | release (swapId : SwapId)
  deriving DecidableEq

variable {lock : Option SwapId} {ops earlier later : List LockOp} {swapId : SwapId}

def LockOp.apply (lock : Option SwapId) : LockOp → Option SwapId
  | .escrow swapId => some swapId
  | .forget _ => lock
  | .release swapId => if lock = some swapId then none else lock

def LockOp.undo (lock : Option SwapId) : LockOp → Option SwapId
  | .escrow swapId => if lock = some swapId then none else lock
  | .forget swapId => if lock = some swapId then none else lock
  | .release swapId => if lock = none then some swapId else lock

def LockOp.escrowed : LockOp → Option SwapId
  | .escrow swapId => some swapId
  | _ => none

def LockOp.released : LockOp → Option SwapId
  | .release swapId => some swapId
  | _ => none

def lastEscrow (ops : List LockOp) : Option SwapId := (ops.filterMap LockOp.escrowed).getLast?

def splitRelease : List LockOp → Option (List LockOp × SwapId × List LockOp)
  | [] => none
  | .release swapId :: later => some ([],swapId,later)
  | op :: ops => (splitRelease ops).map (fun (earlier,swapId,later) => (op :: earlier,swapId,later))

/- A lock set before the release is still there when the release is undone. -/
def outlives (earlier later : List LockOp) : Bool :=
  match lastEscrow earlier with
  | none => false
  | some swapId => later.all (fun op => op.escrowed = none && op ≠ .forget swapId)

def LockOp.Spares (lock : Option SwapId) : LockOp → Prop
  | .escrow _ => lock = none
  | .forget swapId => lock ≠ some swapId
  | .release _ => True

instance (op : LockOp) : Decidable (op.Spares lock) :=
  match op with
  | .escrow _ => inferInstanceAs (Decidable (lock = none))
  | .forget swapId => inferInstanceAs (Decidable (lock ≠ some swapId))
  | .release _ => inferInstanceAs (Decidable True)

/- The locks from which the operations of a block are taken back. -/
def LockRestorable (lock : Option SwapId) (ops : List LockOp) : Prop :=
  match splitRelease ops with
  | some (earlier,swapId,later) => lock = if outlives earlier later then none else some swapId
  | none => ∀ op ∈ ops, op.Spares lock

instance : Decidable (LockRestorable lock ops) :=
  match split : splitRelease ops with
  | some (earlier,swapId,later) =>
      decidable_of_iff (lock = if outlives earlier later then none else some swapId) (by simp [LockRestorable,split])
  | none => decidable_of_iff (∀ op ∈ ops, op.Spares lock) (by simp [LockRestorable,split])

example : LockRestorable (some 1) [.release 1] ∧ ¬ LockRestorable none [.release 1] ∧
    ¬ LockRestorable (some 1) [.escrow 2] := by decide

theorem splitReleaseNone (split : splitRelease ops = none) : ops.filterMap LockOp.released = [] := by
  fun_induction splitRelease ops with
  | case1 => rfl
  | case2 => cases split
  | case3 op ops notRelease ih =>
      rw [List.filterMap_cons,ih (Option.map_eq_none_iff.mp split)]
      cases op with
      | release swapId => exact (notRelease swapId rfl).elim
      | _ => rfl

theorem splitReleaseSome (split : splitRelease ops = some (earlier,swapId,later)) :
    ops = earlier ++ .release swapId :: later ∧ earlier.filterMap LockOp.released = [] := by
  fun_induction splitRelease ops generalizing earlier with
  | case1 => cases split
  | case2 released rest =>
      cases split
      exact ⟨rfl,rfl⟩
  | case3 op ops notRelease ih =>
      obtain ⟨⟨first,found,rest⟩,inTail,same⟩ := Option.map_eq_some_iff.mp split
      cases same
      obtain ⟨rfl,none⟩ := ih inTail
      refine ⟨rfl,?_⟩
      rw [List.filterMap_cons,none]
      cases op with
      | release other => exact (notRelease other rfl).elim
      | _ => rfl

theorem applyCreations (creations : ops.filterMap LockOp.released = []) :
    ops.foldl LockOp.apply lock = (lastEscrow ops).or lock := by
  induction ops using List.reverseRecOn with
  | nil => rfl
  | append_singleton ops op ih =>
      rw [List.filterMap_append,List.append_eq_nil_iff] at creations
      rw [List.foldl_append,List.foldl_cons,List.foldl_nil,ih creations.1,lastEscrow,lastEscrow,List.filterMap_append]
      cases op with
      | escrow swapId => simp [LockOp.apply,LockOp.escrowed]
      | forget swapId => simp [LockOp.apply,LockOp.escrowed]
      | release swapId => cases creations.2

theorem undoCreationsNone (creations : ops.filterMap LockOp.released = []) : ops.foldl LockOp.undo none = none := by
  induction ops with
  | nil => rfl
  | cons op ops ih =>
      cases op with
      | release swapId => cases creations
      | escrow swapId => exact ih creations
      | forget swapId => exact ih creations

theorem undoCreationsSome (creations : ops.filterMap LockOp.released = []) :
    ops.foldl LockOp.undo (some swapId) =
      if .escrow swapId ∈ ops ∨ .forget swapId ∈ ops then none else some swapId := by
  induction ops with
  | nil => rfl
  | cons op ops ih =>
      cases op with
      | release other => cases creations
      | escrow other =>
          by_cases same : swapId = other
          · subst same
            simpa [LockOp.undo] using undoCreationsNone creations
          · simpa [LockOp.undo,same] using ih creations
      | forget other =>
          by_cases same : swapId = other
          · subst same
            simpa [LockOp.undo] using undoCreationsNone creations
          · simpa [LockOp.undo,same] using ih creations

theorem escrowOfLast (last : lastEscrow ops = some swapId) : .escrow swapId ∈ ops := by
  obtain ⟨op,mem,isEscrow⟩ := List.mem_filterMap.mp (List.mem_of_getLast? last)
  cases op with
  | escrow other =>
      cases isEscrow
      exact mem
  | _ => cases isEscrow

theorem lastEscrowNone : lastEscrow ops = none ↔ ∀ op ∈ ops, op.escrowed = none := by
  rw [lastEscrow,List.getLast?_eq_none_iff,List.filterMap_eq_nil_iff]

theorem creationsBack (creations : ops.filterMap LockOp.released = []) :
    ops.reverse.foldl LockOp.undo (ops.foldl LockOp.apply lock) =
      if (lastEscrow ops).isSome then none else lock.filter (fun swapId => .forget swapId ∉ ops) := by
  have reversed : ops.reverse.filterMap LockOp.released = [] := by rw [List.filterMap_reverse,creations]; rfl
  rw [applyCreations creations]
  cases last : lastEscrow ops with
  | some swapId =>
      rw [Option.some_or,undoCreationsSome reversed,if_pos (.inl (List.mem_reverse.mpr (escrowOfLast last)))]
      rfl
  | none =>
      rw [Option.none_or]
      cases lock with
      | none => exact undoCreationsNone reversed
      | some swapId =>
          have unescrowed : .escrow swapId ∉ ops := fun mem => nomatch lastEscrowNone.mp last _ mem
          rw [undoCreationsSome reversed]
          simp [unescrowed,Option.filter]

theorem creationsRestoredIff (creations : ops.filterMap LockOp.released = []) :
    ops.reverse.foldl LockOp.undo (ops.foldl LockOp.apply lock) = lock ↔ ∀ op ∈ ops, op.Spares lock := by
  rw [creationsBack creations]
  cases last : lastEscrow ops with
  | some escrowed =>
      constructor
      · intro isNone op mem
        have unlocked : lock = none := isNone.symm
        subst unlocked
        cases op with
        | escrow => rfl
        | forget swapId => exact (Option.some_ne_none swapId).symm
        | release => trivial
      · intro spares
        have unlocked : lock = none := spares _ (escrowOfLast last)
        exact unlocked.symm
  | none =>
      have unescrowed := lastEscrowNone.mp last
      constructor
      · intro kept op mem
        cases op with
        | escrow swapId => cases unescrowed _ mem
        | release => trivial
        | forget swapId =>
            intro locked
            rw [locked] at kept
            simp [Option.filter,mem] at kept
      · intro spares
        cases lock with
        | none => rfl
        | some swapId =>
            have kept : .forget swapId ∉ ops := fun mem => spares _ mem rfl
            simp [Option.filter,kept]

theorem outlivesSome (last : lastEscrow earlier = some swapId) :
    outlives earlier later = true ↔ lastEscrow later = none ∧ .forget swapId ∉ later := by
  simp only [outlives,last,List.all_eq_true,Bool.and_eq_true,decide_eq_true_eq,forall_and,← lastEscrowNone,ne_eq]
  refine and_congr_right (fun _ => ⟨?_,?_⟩)
  · intro all mem
    exact all _ mem rfl
  · intro absent op mem same
    exact absent (same ▸ mem)

theorem releaseBack (first : earlier.filterMap LockOp.released = []) (rest : later.filterMap LockOp.released = [])
    (own : ∀ locked, lock = some locked → locked = swapId)
    (foreign : .escrow swapId ∉ earlier ∧ .forget swapId ∉ earlier) :
    (earlier ++ .release swapId :: later).reverse.foldl LockOp.undo
      ((earlier ++ .release swapId :: later).foldl LockOp.apply lock) =
        if outlives earlier later then none else some swapId := by
  have reversed : earlier.reverse.filterMap LockOp.released = [] := by rw [List.filterMap_reverse,first]; rfl
  have stays : earlier.reverse.foldl LockOp.undo (some swapId) = some swapId := by
    simp [undoCreationsSome reversed,foreign]
  rw [List.reverse_append,List.reverse_cons,List.append_assoc,List.foldl_append,List.foldl_append,List.foldl_append,
    List.foldl_cons,List.foldl_cons,List.foldl_nil,applyCreations first,creationsBack rest]
  cases last : lastEscrow earlier with
  | none =>
      have nothing : outlives earlier later = false := by rw [outlives,last]
      have unlocked : LockOp.apply lock (.release swapId) = none := by
        cases lock with
        | none => rfl
        | some locked => simp [LockOp.apply,own locked rfl]
      rw [Option.none_or,unlocked,Option.filter_none,ite_self,nothing]
      exact stays
  | some escrowed =>
      have mem := escrowOfLast last
      have other : escrowed ≠ swapId := by
        rintro rfl
        exact foreign.1 mem
      have dropped : earlier.reverse.foldl LockOp.undo (some escrowed) = none := by
        rw [undoCreationsSome reversed,if_pos (.inl (List.mem_reverse.mpr mem))]
      rw [Option.some_or]
      simp only [LockOp.apply,Option.some.injEq,other,if_false,outlivesSome last]
      cases lastEscrow later with
      | some _ => simpa [LockOp.undo] using stays
      | none =>
          by_cases forgotten : .forget escrowed ∈ later
          · simpa [Option.filter,forgotten,LockOp.undo] using stays
          · simpa [Option.filter,forgotten,LockOp.undo] using dropped

theorem lockRestoredIff (once : (ops.filterMap LockOp.released).length ≤ 1)
    (own : ∀ swapId, .release swapId ∈ ops → ∀ locked, lock = some locked → locked = swapId)
    (foreign : ∀ swapId, .release swapId ∈ ops → .escrow swapId ∉ ops ∧ .forget swapId ∉ ops) :
    ops.reverse.foldl LockOp.undo (ops.foldl LockOp.apply lock) = lock ↔ LockRestorable lock ops := by
  unfold LockRestorable
  split
  · next earlier swapId later split =>
      obtain ⟨rfl,first⟩ := splitReleaseSome split
      have released : .release swapId ∈ earlier ++ .release swapId :: later := by simp
      have rest : later.filterMap LockOp.released = [] := by simpa [LockOp.released,first] using once
      obtain ⟨noEscrow,noForget⟩ := foreign swapId released
      rw [List.mem_append,not_or] at noEscrow noForget
      rw [releaseBack first rest (own swapId released) ⟨noEscrow.1,noForget.1⟩]
      exact eq_comm
  · next split => exact creationsRestoredIff (splitReleaseNone split)

end LockOps

section Blocks

variable {F : Type} {lib : Externals F} {ctxt : BatchVerificationContext} {s s' s'' : State F}
  {header : Header} {body : Body} {pre : PrevalidatedBlock} {o : OutPoint} {txs : List Transaction}

/- What a transaction means to the lock of `o`, before the rest of its block. A creation repeated later in the
block finds its record gone when disconnected, and then drops every lock to its swap. -/
def Transaction.lockOp (lib : Externals F) (o : OutPoint) (rest : List Transaction) (tx : Transaction) :
    Option LockOp :=
  match tx.data with
  | .swapCreate create =>
      if o ∈ tx.escrowOutpoints lib create.swapId then some (.escrow create.swapId)
      else if o ∈ tx.pendingOutpoints lib ∨ rest.any (fun later => (later.createOf create.swapId).isSome) then
        some (.forget create.swapId)
      else none
  | .swapClaim swapId _ _ => if o ∈ tx.inputs.map (·.1) then some (.release swapId) else none
  | _ => none

def lockOps (lib : Externals F) (o : OutPoint) : List Transaction → List LockOp
  | [] => []
  | tx :: rest => (tx.lockOp lib o rest).toList ++ lockOps lib o rest

theorem locksAfterAt {tx : Transaction} {rest : List Transaction} {locks : OutPoint → Option SwapId} :
    locksAfter lib tx locks o = (tx.lockOp lib o rest).toList.foldl LockOp.apply (locks o) := by
  unfold locksAfter Transaction.lockOp
  cases tx.data with
  | regular => rfl
  | swapAccept accepted claimer => rfl
  | swapClaim swapId claimer proof => by_cases spent : o ∈ tx.inputs.map (·.1) <;> simp [spent,LockOp.apply]
  | swapCreate create =>
      dsimp only
      split
      · rfl
      · split <;> rfl

theorem locksConnected {locks : OutPoint → Option SwapId} :
    txs.foldl (fun locks tx => locksAfter lib tx locks) locks o = (lockOps lib o txs).foldl LockOp.apply (locks o) := by
  induction txs generalizing locks with
  | nil => rfl
  | cons tx rest ih => rw [List.foldl_cons,ih,lockOps,List.foldl_append,locksAfterAt]

def undoSwap (lib : Externals F) (view : (OutPoint → Option SwapId) × (SwapId → Option Swap)) (tx : Transaction) :
    (OutPoint → Option SwapId) × (SwapId → Option Swap) :=
  (locksUndone lib tx view.2 view.1,recordsUndone tx view.2)

theorem undoSwapRecords {view : (OutPoint → Option SwapId) × (SwapId → Option Swap)} :
    (txs.foldl (undoSwap lib) view).2 = txs.foldl (fun records tx => recordsUndone tx records) view.2 := by
  induction txs generalizing view with
  | nil => rfl
  | cons tx rest ih => exact ih

theorem escrowPending {tx : Transaction} {swapId : SwapId} (escrow : o ∈ tx.escrowOutpoints lib swapId) :
    o ∈ tx.pendingOutpoints lib := by
  obtain ⟨p,mem,rfl⟩ := List.mem_map.mp escrow
  obtain ⟨created,tagged⟩ := List.mem_filter.mp mem
  refine List.mem_map.mpr ⟨p,List.mem_filter.mpr ⟨created,?_⟩,rfl⟩
  unfold Output.escrowFor at tagged
  split at tagged
  · next pending => rw [pending]; rfl
  · cases tagged

theorem locksUndoneAt {tx : Transaction} {rest : List Transaction} {locks : OutPoint → Option SwapId}
    {records : SwapId → Option Swap} (gone : ∀ create, tx.data = .swapCreate create →
      (records create.swapId = none ↔ rest.any (fun later => (later.createOf create.swapId).isSome) = true)) :
    locksUndone lib tx records locks o = (tx.lockOp lib o rest).toList.foldl LockOp.undo (locks o) := by
  unfold locksUndone Transaction.lockOp
  cases kind : tx.data with
  | regular => rfl
  | swapAccept accepted claimer => rfl
  | swapClaim swapId claimer proof => by_cases spent : o ∈ tx.inputs.map (·.1) <;> simp [spent,LockOp.undo]
  | swapCreate create =>
      simp only [gone create kind]
      split
      · next dropped =>
          by_cases escrow : o ∈ tx.escrowOutpoints lib create.swapId
          · simp [escrow,LockOp.undo,dropped.1]
          · simp only [escrow,if_false,if_pos dropped.2]
            simp [LockOp.undo,dropped.1]
      · next kept =>
          by_cases escrow : o ∈ tx.escrowOutpoints lib create.swapId
          · have other : locks o ≠ some create.swapId := fun own => kept ⟨own,.inl (escrowPending escrow)⟩
            simp [escrow,LockOp.undo,other]
          · simp only [escrow,if_false]
            split
            · next forgets =>
                have other : locks o ≠ some create.swapId := fun own => kept ⟨own,forgets⟩
                simp [LockOp.undo,other]
            · rfl

theorem locksDisconnected {locks : OutPoint → Option SwapId} {records : SwapId → Option Swap}
    (recorded : ∀ tx ∈ txs, ∀ create, tx.data = .swapCreate create → records create.swapId ≠ none) :
    (txs.reverse.foldl (undoSwap lib) (locks,records)).1 o = (lockOps lib o txs).reverse.foldl LockOp.undo (locks o) := by
  induction txs with
  | nil => rfl
  | cons tx rest ih =>
      have later := ih (fun other mem => recorded other (List.mem_cons_of_mem tx mem))
      rw [List.reverse_cons,List.foldl_append,List.foldl_cons,List.foldl_nil,lockOps,List.reverse_append,
        List.foldl_append,← later]
      have single : (tx.lockOp lib o rest).toList.reverse = (tx.lockOp lib o rest).toList := by
        cases tx.lockOp lib o rest <;> rfl
      rw [single]
      refine locksUndoneAt (fun create kind => ?_)
      -- the record is there after connection, so only a later creation of the same swap can have deleted it
      have found := recorded tx List.mem_cons_self create kind
      have routes := @routesUndone create.swapId rest.reverse records
      rw [undoSwapRecords,← Option.map_eq_none_iff (f := Swap.route),routes,List.any_reverse]
      split
      · next again => simp [again]
      · next fresh => simp [fresh,found]

theorem memLockOps {op : LockOp} (mem : op ∈ lockOps lib o txs) :
    ∃ tx ∈ txs, ∃ rest, tx.lockOp lib o rest = some op := by
  induction txs with
  | nil => cases mem
  | cons tx rest ih =>
      rcases List.mem_append.mp mem with here | later
      · exact ⟨tx,List.mem_cons_self,rest,Option.mem_toList.mp here⟩
      · obtain ⟨other,inside,found⟩ := ih later
        exact ⟨other,List.mem_cons_of_mem tx inside,found⟩

def LockOp.ComesFrom (o : OutPoint) (tx : Transaction) : LockOp → Prop
  | .escrow swapId => ∃ create, tx.data = .swapCreate create ∧ create.swapId = swapId
  | .forget swapId => ∃ create, tx.data = .swapCreate create ∧ create.swapId = swapId
  | .release swapId => (∃ claimer proof, tx.data = .swapClaim swapId claimer proof) ∧ o ∈ tx.inputs.map (·.1)

theorem lockOpSource {tx : Transaction} {rest : List Transaction} {op : LockOp}
    (found : tx.lockOp lib o rest = some op) : op.ComesFrom o tx := by
  unfold Transaction.lockOp at found
  cases kind : tx.data with
  | regular =>
      rw [kind] at found
      cases found
  | swapAccept accepted claimer =>
      rw [kind] at found
      cases found
  | swapClaim swapId claimer proof =>
      simp only [kind] at found
      split at found
      · next spent =>
          cases found
          exact ⟨⟨claimer,proof,kind⟩,spent⟩
      · cases found
  | swapCreate create =>
      simp only [kind] at found
      split at found
      · cases found
        exact ⟨create,kind,rfl⟩
      · split at found
        · cases found
          exact ⟨create,kind,rfl⟩
        · cases found

theorem releasesAtMost : ((lockOps lib o txs).filterMap LockOp.released).length ≤
    (txs.flatMap (fun tx => tx.inputs.map (·.1))).count o := by
  induction txs with
  | nil => exact Nat.zero_le _
  | cons tx rest ih =>
      rw [lockOps,List.filterMap_append,List.length_append,List.flatMap_cons,List.count_append]
      refine Nat.add_le_add ?_ ih
      cases found : tx.lockOp lib o rest with
      | none => exact Nat.zero_le _
      | some op =>
          cases op with
          | escrow => exact Nat.zero_le _
          | forget => exact Nat.zero_le _
          | release swapId => exact List.one_le_count_iff.mpr (lockOpSource found).2

def LocksRestorable (lib : Externals F) (s : State F) (body : Body) : Prop :=
  ∀ o, LockRestorable (s.isOutputLockedToSwap o) (lockOps lib o body.transactions)

theorem ConnectBlockSource.createdRecorded (source : ConnectBlockSource lib ctxt s header body pre s')
    {tx : Transaction} (mem : tx ∈ body.transactions) {create : SwapCreate} (kind : tx.data = .swapCreate create) :
    s'.getSwap create.swapId ≠ none := by
  have routes := @routesAfterCreates create.swapId pre.filledTransactions pre.nextHeight s.getSwap
  rw [← (connectSwapsEffect source.connected.swaps).2.2.1,filledTransactions source.validated.transactions] at routes
  have created : create.route ∈ createsOf create.swapId body.transactions := by
    refine List.mem_filterMap.mpr ⟨tx,mem,?_⟩
    simp [Transaction.createOf,kind]
  obtain ⟨last,isLast⟩ := Option.isSome_iff_exists.mp (List.getLast?_isSome.mpr (List.ne_nil_of_mem created))
  intro missing
  rw [missing,isLast] at routes
  cases routes

theorem blockLockIff (source : PrevalidateSource lib ctxt s header body pre) :
    (lockOps lib o body.transactions).reverse.foldl LockOp.undo
      ((lockOps lib o body.transactions).foldl LockOp.apply (s.isOutputLockedToSwap o)) = s.isOutputLockedToSwap o ↔
    LockRestorable (s.isOutputLockedToSwap o) (lockOps lib o body.transactions) := by
  have releases {swapId : SwapId} (mem : .release swapId ∈ lockOps lib o body.transactions) :
      ∃ tx, (∃ claimer swap recipient paid, ClaimSource s swapId claimer tx swap recipient paid) ∧
        o ∈ tx.inputs.map (·.1) := by
    obtain ⟨tx,inside,_,found⟩ := memLockOps mem
    obtain ⟨⟨claimer,proof,kind⟩,spent⟩ := lockOpSource found
    exact ⟨tx,⟨claimer,source.claim inside kind⟩,spent⟩
  have unrecorded {op : LockOp} {swapId : SwapId} (mem : op ∈ lockOps lib o body.transactions)
      (creates : op = .escrow swapId ∨ op = .forget swapId) : s.getSwap swapId = none := by
    obtain ⟨tx,inside,_,found⟩ := memLockOps mem
    have origin : ∃ create, tx.data = .swapCreate create ∧ create.swapId = swapId := by
      rcases creates with rfl | rfl
      · exact lockOpSource found
      · exact lockOpSource found
    obtain ⟨create,kind,rfl⟩ := origin
    exact source.unrecorded inside kind
  refine lockRestoredIff (releasesAtMost.trans (List.nodup_iff_count_le_one.mp source.distinct o)) ?_ ?_
  · intro swapId mem locked isLocked
    obtain ⟨tx,⟨_,_,_,_,claim⟩,spent⟩ := releases mem
    obtain ⟨input,isInput,rfl⟩ := List.mem_map.mp spent
    exact claim.inputs input isInput locked isLocked
  · intro swapId mem
    obtain ⟨tx,⟨_,_,_,_,claim⟩,_⟩ := releases mem
    refine ⟨fun created => ?_,fun created => ?_⟩
    · exact nomatch (unrecorded created (.inl rfl)).symm.trans claim.recorded
    · exact nomatch (unrecorded created (.inr rfl)).symm.trans claim.recorded

theorem locksRestoredIff (ok : prevalidate lib s ctxt header body = .ok pre)
    (connected : connectPrevalidated lib s header body pre = .ok s')
    (disconnected : disconnectTip lib s' header body = .ok s'') :
    s''.lockedSwapOutputs = s.lockedSwapOutputs ↔ LocksRestorable lib s body := by
  have validated := prevalidateSource ok
  have source : ConnectBlockSource lib ctxt s header body pre s' := ⟨ok,validated,connectSource validated connected⟩
  have undone := foldView (fun w : SwapTables => (w.isOutputLockedToSwap,w.getSwap)) (g := undoSwap lib)
    (fun _ _ _ step => Prod.ext (disconnectSwapEffect step).1 (disconnectSwapEffect step).2.2)
    (disconnectSource disconnected).swaps
  have locks (o : OutPoint) : s''.isOutputLockedToSwap o = s.isOutputLockedToSwap o ↔
      LockRestorable (s.isOutputLockedToSwap o) (lockOps lib o body.transactions) := by
    have back := @locksDisconnected _ lib o _ s'.isOutputLockedToSwap _ (fun _ mem _ kind => source.createdRecorded mem kind)
    rw [source.locks,locksConnected,← source.locks,← undone] at back
    rw [← blockLockIff validated,← back]
  constructor
  · intro same o
    exact (locks o).mp (congrArg (fun t => t.tryGet o) same)
  · intro restorable
    exact Table.ext (fun o => (locks o).mpr (restorable o))

end Blocks

section Reached

open Reference

/- Bob claims the swap with a coin of his own beside the escrow: disconnected, the coin is locked too. -/
def locksCoin (s back : State Forest) : Bool :=
  (s.isOutputLockedToSwap (deposited 2 (coin bob 500)).1).isNone &&
    (back.isOutputLockedToSwap (deposited 2 (coin bob 500)).1).isSome

theorem feeCoinLocked : ∃ s header body pre s' s'', Reachable externals context s ∧
    prevalidate externals s context header body = .ok pre ∧
    connectPrevalidated externals s header body pre = .ok s' ∧ disconnectTip externals s' header body = .ok s'' ∧
    s''.lockedSwapOutputs ≠ s.lockedSwapOutputs := by
  have played : reaches (funded ++ [grow [(createNamed,[alice])]])
      (roundTrips (Reference.body [(claimWithCoin,[bob,bob])] []) locksCoin) = true := by decide +kernel
  obtain ⟨s,reachable,trip⟩ := reachesReachable played
  obtain ⟨pre,s',s'',ok,connected,disconnected,checked⟩ := roundTripsOk trip
  refine ⟨s,_,_,pre,s',s'',reachable,ok,connected,disconnected,?_⟩
  intro same
  rw [locksCoin,isOutputLockedToSwap,isOutputLockedToSwap,same] at checked
  cases found : s.lockedSwapOutputs.tryGet (deposited 2 (coin bob 500)).1 with
  | none => simp [found] at checked
  | some swapId => simp [found] at checked

def namedClaim : Body := Reference.body [(claimNamed,[bob])] []

def escrowLocked (s _ : State Forest) : Bool :=
  s.isOutputLockedToSwap (outputOf createNamed 0 namedEscrow).1 = some namedId

theorem claimRelocksEscrow : ∃ s header pre s' s'', Reachable externals context s ∧
    prevalidate externals s context header namedClaim = .ok pre ∧
    connectPrevalidated externals s header namedClaim pre = .ok s' ∧
    disconnectTip externals s' header namedClaim = .ok s'' ∧ s''.lockedSwapOutputs = s.lockedSwapOutputs := by
  have played : reaches (funded ++ [grow [(createNamed,[alice])]]) (roundTrips namedClaim escrowLocked) = true := by
    decide +kernel
  obtain ⟨s,reachable,trip⟩ := reachesReachable played
  obtain ⟨pre,s',s'',ok,connected,disconnected,locked⟩ := roundTripsOk trip
  refine ⟨s,_,pre,s',s'',reachable,ok,connected,disconnected,
    (locksRestoredIff ok connected disconnected).mpr ?_⟩
  intro o
  have ops : lockOps externals o namedClaim.transactions =
      if o = (outputOf createNamed 0 namedEscrow).1 then [.release namedId] else [] := by
    have kind : claimNamed.data = .swapClaim namedId none none := rfl
    have inputs : claimNamed.inputs.map (·.1) = [(outputOf createNamed 0 namedEscrow).1] := rfl
    show (claimNamed.lockOp externals o []).toList ++ [] = _
    simp only [Transaction.lockOp,kind,inputs,List.mem_singleton,List.append_nil]
    split <;> rfl
  rw [ops]
  split
  · next here =>
      have isLocked : s.isOutputLockedToSwap o = some namedId := here ▸ of_decide_eq_true locked
      exact isLocked
  · intro op mem
    cases mem

end Reached

end Coinshift
