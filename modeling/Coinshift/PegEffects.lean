import Coinshift.SwapEffects
import Coinshift.TwoWayPegData

/-! What connecting peg data does to the swap tables.
Each recorded swap is looked at once. It expires, which releases its locks, or the parent chain is
watched for it; its terms stay as they were, and no reservation is touched. -/
namespace Coinshift
open Checked SwapTables

namespace Swap

def expiresAt (swap : Swap) (height : Nat) : Bool := swap.isAwaiting && swap.isExpiredAt height

structure Observed (before after : Swap) : Prop where
  terms : after.terms = before.terms
  state : after = before ∨
    before.isAwaiting = true ∧ (after.isAwaiting = true ∨ after.state = .readyToClaim)

def PegRecord (height : Nat) (before after : Swap) : Prop :=
  if before.expiresAt height then after = { before with state := .cancelled } else Observed before after

theorem Observed.refl (swap : Swap) : Observed swap swap := ⟨rfl,.inl rfl⟩

theorem PegRecord.terms {height : Nat} {before after : Swap} (record : PegRecord height before after) :
    after.terms = before.terms := by
  unfold PegRecord at record
  split at record
  · rw [record]
    rfl
  · exact record.terms

theorem confirmationsState {swap : Swap} {confirmations required : UInt32} :
    (swap.withConfirmations confirmations required).isAwaiting = true ∨
      (swap.withConfirmations confirmations required).state = .readyToClaim := by
  unfold withConfirmations isAwaiting
  by_cases enough : required ≤ confirmations <;> simp [enough]

end Swap

section OneSwap

variable {rpc : RpcReplies} {blockHash : BlockHash} {height : Nat} {w : SwapTables}
  {acc : SwapTables × List ExpiredSwapReversal} {swap updated : Swap}

theorem querySource {found : List (Text × TransactionInfo)}
    (result : queryAndUpdateSwap w found swap blockHash height = some updated) :
    updated.id = swap.id ∧ updated.terms = swap.terms ∧
      (updated.isAwaiting = true ∨ updated.state = .readyToClaim) := by
  unfold queryAndUpdateSwap at result
  simp only [bind,Option.bind_eq_some_iff] at result
  obtain ⟨⟨_,info⟩,_,l1Txid,_,result⟩ := result
  split at result
  · have same : (((swap.updateL1Txid l1Txid).setL1TxidValidationBlock blockHash height).withConfirmations
        info.confirmations swap.requiredConfirmations) = updated := by
      split at result
      · simp only [Option.bind_eq_some_iff] at result
        obtain ⟨_,_,same⟩ := result
        exact Option.some.inj same
      · exact Option.some.inj result
    subst same
    exact ⟨rfl,rfl,Swap.confirmationsState⟩
  · simp only [Option.bind_eq_some_iff] at result
    obtain ⟨_,_,same⟩ := result
    cases Option.some.inj same
    exact ⟨rfl,rfl,Swap.confirmationsState⟩

structure ProcessEffect (height : Nat) (swap : Swap) (w w' : SwapTables) : Prop where
  reservations : w'.swapReservations = w.swapReservations
  locks : ∀ o, w'.isOutputLockedToSwap o =
    if swap.expiresAt height = true ∧ w.isOutputLockedToSwap o = some swap.id then none
    else w.isOutputLockedToSwap o
  others : ∀ swapId, swapId ≠ swap.id → w'.getSwap swapId = w.getSwap swapId
  record : ∃ after, w'.getSwap swap.id = some after ∧ swap.PegRecord height after

theorem untouchedEffect (recorded : w.getSwap swap.id = some swap) (remains : swap.expiresAt height = false) :
    ProcessEffect height swap w w := by
  refine ⟨rfl,?_,fun _ _ => rfl,swap,recorded,?_⟩
  · intro o
    simp [remains]
  · simp only [Swap.PegRecord,remains,Bool.false_eq_true,if_false]
    exact .refl swap

theorem scanEffect (recorded : w.getSwap swap.id = some swap) (awaiting : swap.isAwaiting = true)
    (unexpired : swap.isExpiredAt height = false) :
    ProcessEffect height swap w (scanSwap rpc blockHash height w swap) := by
  have remains : swap.expiresAt height = false := by rw [Swap.expiresAt,unexpired,Bool.and_false]
  unfold scanSwap
  split
  · split
    · next found updated result =>
        obtain ⟨sameId,sameTerms,state⟩ := querySource result
        refine ⟨rfl,?_,?_,updated,?_,?_⟩
        · intro o
          simp [remains,isOutputLockedToSwap]
        · intro swapId other
          rw [getSwapSave,sameId,if_neg other]
        · rw [getSwapSave,sameId,if_pos rfl]
        · simp only [Swap.PegRecord,remains,Bool.false_eq_true,if_false]
          exact ⟨sameTerms,.inr ⟨awaiting,state⟩⟩
    · exact untouchedEffect recorded remains
  · exact untouchedEffect recorded remains

theorem expireEffect (expires : swap.expiresAt height = true) :
    ProcessEffect height swap acc.1 (expireSwap acc swap).1 := by
  unfold expireSwap
  refine ⟨?_,?_,?_,{ swap with state := .cancelled },?_,?_⟩
  · simp
  · intro o
    simp only [expires,true_and]
    exact lockedUnlockAll
  · intro swapId other
    rw [getSwapSave,if_neg other]
    simp only [getSwap,unlockAllSwaps]
  · rw [getSwapSave,if_pos rfl]
  · simp only [Swap.PegRecord,expires,if_true]

theorem processEffect (recorded : acc.1.getSwap swap.id = some swap) :
    ProcessEffect height swap acc.1 (processSwap rpc blockHash height acc swap).1 := by
  unfold processSwap
  by_cases awaiting : swap.isAwaiting = false
  · have remains : swap.expiresAt height = false := by rw [Swap.expiresAt,awaiting,Bool.false_and]
    simp only [awaiting,if_true]
    exact untouchedEffect recorded remains
  · rw [if_neg awaiting]
    rw [Bool.not_eq_false] at awaiting
    by_cases expired : swap.isExpiredAt height = true
    · rw [if_pos expired]
      exact expireEffect (by rw [Swap.expiresAt,awaiting,expired]; rfl)
    · rw [if_neg expired]
      exact scanEffect recorded awaiting (Bool.not_eq_true _ ▸ expired)

end OneSwap

section AllSwaps

variable {rpc : RpcReplies} {blockHash : BlockHash} {height : Nat}

structure ProcessAllEffect (height : Nat) (swaps : List Swap) (w w' : SwapTables) : Prop where
  reservations : w'.swapReservations = w.swapReservations
  released : ∀ o, ∀ swap ∈ swaps, swap.expiresAt height = true → w.isOutputLockedToSwap o = some swap.id →
    w'.isOutputLockedToSwap o = none
  kept : ∀ o, (∀ swap ∈ swaps, swap.expiresAt height = true → w.isOutputLockedToSwap o ≠ some swap.id) →
    w'.isOutputLockedToSwap o = w.isOutputLockedToSwap o
  others : ∀ swapId, swapId ∉ swaps.map (·.id) → w'.getSwap swapId = w.getSwap swapId
  records : ∀ swap ∈ swaps, ∃ after, w'.getSwap swap.id = some after ∧ swap.PegRecord height after

theorem ProcessAllEffect.cons {first : Swap} {rest : List Swap} {w middle w' : SwapTables}
    (fresh : first.id ∉ rest.map (·.id)) (head : ProcessEffect height first w middle)
    (tail : ProcessAllEffect height rest middle w') : ProcessAllEffect height (first :: rest) w w' := by
  refine ⟨tail.reservations.trans head.reservations,?_,?_,?_,?_⟩
  · intro o swap mem expires locked
    rcases List.mem_cons.mp mem with rfl | later
    · have gone := head.locks o
      rw [if_pos ⟨expires,locked⟩] at gone
      have kept := tail.kept o (by
        intro other _ _
        rw [gone]
        exact (Option.some_ne_none _).symm)
      exact kept.trans gone
    · have unchanged := head.locks o
      rw [if_neg (by
        intro here
        have same : swap.id = first.id := Option.some.inj (locked.symm.trans here.2)
        exact fresh (same ▸ List.mem_map_of_mem later))] at unchanged
      exact tail.released o swap later expires (unchanged.trans locked)
  · intro o safe
    have unchanged := head.locks o
    rw [if_neg (by
      intro here
      exact safe first List.mem_cons_self here.1 here.2)] at unchanged
    refine (tail.kept o ?_).trans unchanged
    intro swap mem expires
    rw [unchanged]
    exact safe swap (List.mem_cons_of_mem first mem) expires
  · intro swapId absent
    rw [List.map_cons,List.mem_cons,not_or] at absent
    exact (tail.others swapId absent.2).trans (head.others swapId absent.1)
  · intro swap mem
    rcases List.mem_cons.mp mem with rfl | later
    · obtain ⟨after,found,record⟩ := head.record
      exact ⟨after,(tail.others swap.id fresh).trans found,record⟩
    · exact tail.records swap later

theorem processAll {swaps : List Swap} (acc : SwapTables × List ExpiredSwapReversal)
    (distinct : (swaps.map (·.id)).Nodup) (recorded : ∀ swap ∈ swaps, acc.1.getSwap swap.id = some swap) :
    ProcessAllEffect height swaps acc.1 (swaps.foldl (processSwap rpc blockHash height) acc).1 := by
  induction swaps generalizing acc with
  | nil =>
      refine ⟨rfl,?_,fun _ _ => rfl,fun _ _ => rfl,?_⟩
      · intro o swap mem
        cases mem
      · intro swap mem
        cases mem
  | cons first rest ih =>
      rw [List.map_cons,List.nodup_cons] at distinct
      obtain ⟨fresh,distinctRest⟩ := distinct
      have head : ProcessEffect height first acc.1 (processSwap rpc blockHash height acc first).1 :=
        processEffect (recorded first List.mem_cons_self)
      refine .cons fresh head (ih _ distinctRest ?_)
      intro swap mem
      rw [head.others swap.id (fun same => fresh (same ▸ List.mem_map_of_mem mem))]
      exact recorded swap (List.mem_cons_of_mem first mem)

theorem memLoadAllSwaps {w : SwapTables} {swap : Swap} : swap ∈ w.loadAllSwaps ↔ w.getSwap swap.id = some swap := by
  simp only [loadAllSwaps,List.mem_map]
  constructor
  · intro found
    obtain ⟨⟨key,value⟩,entry,rfl⟩ := found
    have recorded := Table.memEntries.mp entry
    have same : value.id = key := w.swaps.keyed recorded
    rw [getSwap,same]
    exact recorded
  · intro recorded
    exact ⟨(swap.id,swap),Table.memEntries.mpr recorded,rfl⟩

theorem loadAllSwapsDistinct {w : SwapTables} : (w.loadAllSwaps.map (·.id)).Nodup := by
  have keys : w.loadAllSwaps.map (·.id) = w.swaps.table.entries.map (·.1) := by
    rw [loadAllSwaps,List.map_map]
    refine List.map_congr_left (fun entry mem => ?_)
    exact w.swaps.keyed (Table.memEntries.mp mem)
  rw [keys]
  exact Table.entriesDistinct

structure PegSwapEffect (height : Nat) (w w' : SwapTables) : Prop where
  reservations : w'.swapReservations = w.swapReservations
  released : ∀ o swapId swap, w.isOutputLockedToSwap o = some swapId → w.getSwap swapId = some swap →
    swap.expiresAt height = true → w'.isOutputLockedToSwap o = none
  kept : ∀ o, (∀ swapId swap, w.isOutputLockedToSwap o = some swapId → w.getSwap swapId = some swap →
    swap.expiresAt height = false) → w'.isOutputLockedToSwap o = w.isOutputLockedToSwap o
  records : ∀ swapId, Option.Rel (Swap.PegRecord height) (w.getSwap swapId) (w'.getSwap swapId)

theorem PegSwapEffect.lock {w w' : SwapTables} (effect : PegSwapEffect height w w') (o : OutPoint) :
    (∃ swapId swap, w.isOutputLockedToSwap o = some swapId ∧ w.getSwap swapId = some swap ∧
      swap.expiresAt height = true ∧ w'.isOutputLockedToSwap o = none) ∨
    ((∀ swapId swap, w.isOutputLockedToSwap o = some swapId → w.getSwap swapId = some swap →
      swap.expiresAt height = false) ∧ w'.isOutputLockedToSwap o = w.isOutputLockedToSwap o) := by
  by_cases safe : ∀ swapId swap, w.isOutputLockedToSwap o = some swapId → w.getSwap swapId = some swap →
      swap.expiresAt height = false
  · exact .inr ⟨safe,effect.kept o safe⟩
  · push Not at safe
    obtain ⟨swapId,swap,locked,recorded,expires⟩ := safe
    rw [ne_eq,Bool.not_eq_false] at expires
    exact .inl ⟨swapId,swap,locked,recorded,expires,effect.released o swapId swap locked recorded expires⟩

theorem pegSwapEffect {w : SwapTables} :
    PegSwapEffect height w (processCoinshiftTransactions w height blockHash rpc) := by
  have all : ProcessAllEffect height w.loadAllSwaps w
      (w.loadAllSwaps.foldl (processSwap rpc blockHash height) (w,[])).1 :=
    processAll (w,[]) loadAllSwapsDistinct (fun swap mem => memLoadAllSwaps.mp mem)
  have effect : PegSwapEffect height w (w.loadAllSwaps.foldl (processSwap rpc blockHash height) (w,[])).1 := by
    refine ⟨all.reservations,?_,?_,?_⟩
    · intro o swapId swap locked recorded expires
      have same : swap.id = swapId := getSwapId recorded
      subst same
      exact all.released o swap (memLoadAllSwaps.mpr recorded) expires locked
    · intro o safe
      refine all.kept o (fun swap mem expires locked => ?_)
      rw [safe swap.id swap locked (memLoadAllSwaps.mp mem)] at expires
      cases expires
    · intro swapId
      cases recorded : w.getSwap swapId with
      | none =>
          have absent : swapId ∉ w.loadAllSwaps.map (·.id) := by
            intro mem
            obtain ⟨swap,inside,rfl⟩ := List.mem_map.mp mem
            rw [memLoadAllSwaps.mp inside] at recorded
            cases recorded
          rw [all.others swapId absent]
          simp only [recorded]
          exact .none
      | some swap =>
          have same : swap.id = swapId := getSwapId recorded
          subst same
          obtain ⟨after,found,record⟩ := all.records swap (memLoadAllSwaps.mpr recorded)
          rw [found]
          exact .some record
  unfold processCoinshiftTransactions
  dsimp only
  split
  · exact effect
  · exact ⟨effect.reservations,effect.released,effect.kept,effect.records⟩

end AllSwaps

section Restore

theorem restoreExpiredKeeps {w : SwapTables} {reversal : ExpiredSwapReversal} :
    (restoreExpired w reversal).swapReservations = w.swapReservations ∧
    ∀ swapId, ((restoreExpired w reversal).getSwap swapId).map Swap.terms = (w.getSwap swapId).map Swap.terms := by
  unfold restoreExpired
  rw [locksEq]
  cases recorded : w.getSwap reversal.1 with
  | none => exact ⟨rfl,fun _ => rfl⟩
  | some swap =>
      refine ⟨rfl,?_⟩
      intro swapId
      have saved : (w.saveSwap { swap with state := reversal.2.1 }).getSwap swapId =
          if swapId = swap.id then some { swap with state := reversal.2.1 } else w.getSwap swapId := getSwapSave
      refine (congrArg (Option.map Swap.terms) saved).trans ?_
      by_cases own : swapId = swap.id
      · rw [if_pos own,own,getSwapId recorded,recorded]
        rfl
      · rw [if_neg own]

theorem restoreExpiredSwapsKeeps {w : SwapTables} {height : Nat} :
    (restoreExpiredSwaps w height).swapReservations = w.swapReservations ∧
    ∀ swapId, ((restoreExpiredSwaps w height).getSwap swapId).map Swap.terms = (w.getSwap swapId).map Swap.terms := by
  have all (reversals : List ExpiredSwapReversal) :
      (reversals.foldl restoreExpired w).swapReservations = w.swapReservations ∧
      ∀ swapId, ((reversals.foldl restoreExpired w).getSwap swapId).map Swap.terms = (w.getSwap swapId).map Swap.terms := by
    induction reversals using List.reverseRecOn with
    | nil => exact ⟨rfl,fun _ => rfl⟩
    | append_singleton reversals last ih =>
        rw [List.foldl_append,List.foldl_cons,List.foldl_nil]
        have step := @restoreExpiredKeeps (reversals.foldl restoreExpired w) last
        exact ⟨step.1.trans ih.1,fun swapId => (step.2 swapId).trans (ih.2 swapId)⟩
  unfold restoreExpiredSwaps
  split
  · next reversals _ => exact all reversals
  · exact ⟨rfl,fun _ => rfl⟩

end Restore

end Coinshift
