import Coinshift.HeaderStore
import Coinshift.Reorg
import Coinshift.PegMarks
import Coinshift.SwapStates

/-! When swaps expire, over whole histories of a node with reorganisations.
A tip comes and goes together with its peg data. Then no swap waits for its payment past its deadline, although
disconnecting a block brings expired swaps back, and the deadline's own block cancels what still waits. -/
namespace Coinshift
open Checked SwapTables

section Deadlines

def Swap.DueFrom (swap : Swap) (height : Nat) : Prop :=
  ∃ expiresAt, swap.expiresAtHeight = some expiresAt ∧ height ≤ expiresAt

theorem Swap.DueFrom.sooner {swap : Swap} {height earlier : Nat} (due : swap.DueFrom height) (sooner : earlier ≤ height) :
    swap.DueFrom earlier := by
  obtain ⟨expiresAt,isExpiry,later⟩ := due
  exact ⟨expiresAt,isExpiry,Nat.le_trans sooner later⟩

theorem Swap.DueFrom.same {swap other : Swap} {height : Nat} (due : swap.DueFrom height)
    (terms : other.terms = swap.terms) : other.DueFrom height := by
  obtain ⟨expiresAt,isExpiry,later⟩ := due
  exact ⟨expiresAt,(congrArg SwapTerms.expiresAtHeight terms).trans isExpiry,later⟩

/- What waits is due from some height on, and what an expiry would bring back is due from its height on. -/
structure Timely (w : SwapTables) (due top : Nat) : Prop where
  awaiting : ∀ swapId swap, w.getSwap swapId = some swap → swap.isAwaiting = true → swap.DueFrom due
  below : ∀ height reversals, w.expiredSwaps.tryGet height = some reversals → height < top
  reversals : ∀ height reversals, w.expiredSwaps.tryGet height = some reversals → ∀ reversal ∈ reversals, ∀ swap,
    w.getSwap reversal.1 = some swap → swap.DueFrom height

variable {w w' : SwapTables} {due top height : Nat}

def ComesFrom (w : SwapTables) (due : Nat) (swapId : SwapId) (swap : Swap) : Prop :=
  (∃ before, w.getSwap swapId = some before ∧ swap.terms = before.terms ∧
    (swap.isAwaiting = true → before.isAwaiting = true)) ∨ swap.DueFrom due

theorem comesFromSame {swapId : SwapId} {swap : Swap} (recorded : w.getSwap swapId = some swap) :
    ComesFrom w due swapId swap :=
  .inl ⟨swap,recorded,rfl,id⟩

theorem Timely.records (timely : Timely w due top) (near : top ≤ due + 1) (table : w'.expiredSwaps = w.expiredSwaps)
    (records : ∀ swapId swap, w'.getSwap swapId = some swap → ComesFrom w due swapId swap) : Timely w' due top := by
  refine ⟨fun swapId swap recorded waits => ?_,fun height reversals found => ?_,
    fun height reversals found reversal mem swap recorded => ?_⟩
  · rcases records swapId swap recorded with ⟨before,isBefore,terms,waited⟩ | late
    · exact (timely.awaiting swapId before isBefore (waited waits)).same terms
    · exact late
  · exact timely.below height reversals (table ▸ found)
  · rw [table] at found
    have inside := timely.below height reversals found
    rcases records reversal.1 swap recorded with ⟨before,isBefore,terms,_⟩ | late
    · exact (timely.reversals height reversals found reversal mem before isBefore).same terms
    · exact late.sooner (by omega)

section Blocks

variable {F : Type} {lib : Externals F} {ctxt : BatchVerificationContext} {s s' : State F}

theorem Timely.connectSwap {filled : FilledTransaction} (timely : Timely w height height)
    (ok : Coinshift.connectSwap lib height w filled = .ok w') : Timely w' height height := by
  obtain ⟨_,_,records,table⟩ := connectSwapEffect ok
  refine timely.records (Nat.le_succ height) table (fun swapId swap recorded => ?_)
  rw [records] at recorded
  unfold recordsAfter at recorded
  split at recorded
  · split at recorded
    · cases recorded
      exact .inr ⟨_,rfl,Nat.le_add_right _ _⟩
    · exact comesFromSame recorded
  · split at recorded
    · obtain ⟨before,isBefore,rfl⟩ := Option.map_eq_some_iff.mp recorded
      exact .inl ⟨before,isBefore,rfl,fun waits => by cases waits⟩
    · exact comesFromSame recorded
  · exact comesFromSame recorded

theorem Timely.disconnectSwap {tx : Transaction} (timely : Timely w due due)
    (ok : Coinshift.disconnectSwap lib w tx = .ok w') : Timely w' due due := by
  obtain ⟨_,_,records⟩ := disconnectSwapEffect ok
  refine timely.records (Nat.le_succ due) (disconnectSwapExpired ok) (fun swapId swap recorded => ?_)
  rw [records] at recorded
  unfold recordsUndone at recorded
  split at recorded
  · split at recorded
    · cases recorded
    · exact comesFromSame recorded
  · split at recorded
    · obtain ⟨before,isBefore,rfl⟩ := Option.map_eq_some_iff.mp recorded
      unfold Swap.revertClaim
      split
      · exact .inl ⟨before,isBefore,rfl,fun waits => by cases waits⟩
      · exact comesFromSame isBefore
    · exact comesFromSame recorded
  · exact comesFromSame recorded

theorem Timely.connect {header : Header} {body : Body} (timely : Timely s.toSwapTables s.nextHeight s.nextHeight)
    (ok : connectBlock lib ctxt s header body = .ok s') :
    s'.height = some s.nextHeight ∧ Timely s'.toSwapTables s.nextHeight s.nextHeight := by
  obtain ⟨pre,source⟩ := connectBlockSource ok
  have swaps := source.connected.swaps
  rw [connectSwaps,source.validated.nextHeight] at swaps
  refine ⟨source.connected.height,?_⟩
  exact foldInvariant (P := fun w => Timely w s.nextHeight s.nextHeight)
    (fun _ _ _ _ before step => before.connectSwap step) timely swaps

theorem Timely.disconnect {header : Header} {body : Body} {n : Nat} (timely : Timely s.toSwapTables n n)
    (ok : Coinshift.disconnectTip lib s header body = .ok s') : Timely s'.toSwapTables n n := by
  have swaps := (disconnectSource ok).swaps
  exact foldInvariant (P := fun w => Timely w n n) (fun _ _ _ _ before step => before.disconnectSwap step) timely swaps

end Blocks

section Pegs

variable {F : Type} {lib : Externals F} {s s' : State F} {data : TwoWayPegData} {rpc : RpcReplies} {blockHash : BlockHash}

structure Expiries (height : Nat) (w : SwapTables) (noted : List ExpiredSwapReversal) : Prop where
  waited : ∀ reversal ∈ noted, ∃ swap, w.getSwap reversal.1 = some swap ∧ swap.isAwaiting = true ∧
    reversal.2.1 = swap.state
  all : ∀ swapId swap, w.getSwap swapId = some swap → swap.expiresAt height = true →
    ∃ reversal ∈ noted, reversal.1 = swapId

theorem notedSwap {acc : SwapTables × List ExpiredSwapReversal} {swap : Swap} :
    (processSwap rpc blockHash height acc swap).2 =
      if swap.expiresAt height then acc.2 ++ [(swap.id,swap.state,acc.1.lockedOutputsOf swap.id)] else acc.2 := by
  unfold processSwap Swap.expiresAt
  cases swap.isAwaiting <;> cases swap.isExpiredAt height <;> rfl

theorem notedOf {swaps : List Swap} {acc : SwapTables × List ExpiredSwapReversal} {reversal : ExpiredSwapReversal}
    (mem : reversal ∈ (swaps.foldl (processSwap rpc blockHash height) acc).2) : reversal ∈ acc.2 ∨
      ∃ swap ∈ swaps, swap.expiresAt height = true ∧ reversal.1 = swap.id ∧ reversal.2.1 = swap.state := by
  induction swaps generalizing acc with
  | nil => exact .inl mem
  | cons swap rest ih =>
      rcases ih mem with noted | ⟨other,inRest,isOther⟩
      · rw [notedSwap] at noted
        split at noted
        · next expires =>
            rcases List.mem_append.mp noted with before | new
            · exact .inl before
            · cases List.mem_singleton.mp new
              exact .inr ⟨swap,List.mem_cons_self,expires,rfl,rfl⟩
        · exact .inl noted
      · exact .inr ⟨other,List.mem_cons_of_mem swap inRest,isOther⟩

theorem notedAll {swaps : List Swap} {acc : SwapTables × List ExpiredSwapReversal} {swapId : SwapId}
    (listed : (∃ reversal ∈ acc.2, reversal.1 = swapId) ∨
      ∃ swap ∈ swaps, swap.expiresAt height = true ∧ swap.id = swapId) :
    ∃ reversal ∈ (swaps.foldl (processSwap rpc blockHash height) acc).2, reversal.1 = swapId := by
  induction swaps generalizing acc with
  | nil =>
      rcases listed with noted | ⟨swap,mem,_⟩
      · exact noted
      · cases mem
  | cons swap rest ih =>
      have keeps {reversal : ExpiredSwapReversal} (mem : reversal ∈ acc.2) :
          reversal ∈ (processSwap rpc blockHash height acc swap).2 := by
        rw [notedSwap]
        split
        · exact List.mem_append_left _ mem
        · exact mem
      refine ih ?_
      rcases listed with ⟨reversal,mem,isId⟩ | ⟨other,mem,expires,isId⟩
      · exact .inl ⟨reversal,keeps mem,isId⟩
      · rcases List.mem_cons.mp mem with rfl | inRest
        · rw [notedSwap,if_pos expires]
          exact .inl ⟨_,List.mem_append_right _ List.mem_cons_self,isId⟩
        · exact .inr ⟨other,inRest,expires,isId⟩

theorem expiryTable : ∃ noted, Expiries height w noted ∧
    (processCoinshiftTransactions w height blockHash rpc).expiredSwaps =
      if noted.isEmpty then w.expiredSwaps else w.expiredSwaps.put height noted := by
  refine ⟨_,⟨fun reversal mem => ?_,fun swapId swap recorded expires => ?_⟩,scanTable rfl⟩
  · rcases notedOf mem with before | ⟨swap,listed,expires,isId,state⟩
    · cases before
    · rw [Swap.expiresAt,Bool.and_eq_true] at expires
      exact ⟨swap,isId ▸ memLoadAllSwaps.mp listed,expires.1,state⟩
  · have own : swap.id = swapId := getSwapId recorded
    exact notedAll (.inr ⟨swap,memLoadAllSwaps.mpr (own ▸ recorded),expires,own⟩)

theorem expiryEntry {k : Nat} {reversals : List ExpiredSwapReversal}
    (found : (processCoinshiftTransactions w height blockHash rpc).expiredSwaps.tryGet k = some reversals) :
    w.expiredSwaps.tryGet k = some reversals ∨ k = height ∧ Expiries height w reversals := by
  obtain ⟨noted,expiries,table⟩ := @expiryTable w height rpc blockHash
  rw [table] at found
  split at found
  · exact .inl found
  · rw [Table.tryGetPut] at found
    split at found
    · next here =>
        cases found
        exact .inr ⟨here,expiries⟩
    · exact .inl found

theorem PegSwapEffect.before {swapId : SwapId} {after : Swap} (effect : PegSwapEffect height w w')
    (recorded : w'.getSwap swapId = some after) :
    ∃ before, w.getSwap swapId = some before ∧ before.PegRecord height after := by
  have record := effect.records swapId
  rw [recorded] at record
  generalize w.getSwap swapId = earlier at record
  cases record with
  | some related => exact ⟨_,rfl,related⟩

theorem PegSwapEffect.after {swapId : SwapId} {before : Swap} (effect : PegSwapEffect height w w')
    (recorded : w.getSwap swapId = some before) :
    ∃ after, w'.getSwap swapId = some after ∧ before.PegRecord height after := by
  have record := effect.records swapId
  rw [recorded] at record
  generalize w'.getSwap swapId = later at record
  cases record with
  | some related => exact ⟨_,rfl,related⟩

theorem pegDue {before after : Swap} (record : before.PegRecord height after) (waits : after.isAwaiting = true)
    (due : before.isAwaiting = true → before.DueFrom height) : after.DueFrom (height + 1) := by
  unfold Swap.PegRecord at record
  split at record
  · rw [record] at waits
    cases waits
  · next remains =>
      have waited : before.isAwaiting = true := by
        rcases record.state with same | ⟨waited,_⟩
        · exact same ▸ waits
        · exact waited
      obtain ⟨expiresAt,isExpiry,from_⟩ := due waited
      have later : ¬ expiresAt ≤ height := by
        intro expired
        apply remains
        rw [Swap.expiresAt,waited,Swap.isExpiredAt,isExpiry]
        simpa using expired
      have longer : before.DueFrom (height + 1) := ⟨expiresAt,isExpiry,by omega⟩
      exact longer.same record.terms

theorem pegsAt (atHeight : s.height = some height) (ok : connectTwoWayPegData lib s data rpc = .ok s') :
    ∃ blockHash, s'.toSwapTables = processCoinshiftTransactions s.toSwapTables height blockHash rpc ∧
      PegSwapEffect height s.toSwapTables s'.toSwapTables := by
  obtain ⟨_,blockHash,isHeight,_,swaps⟩ := (connectPegSource ok).swaps
  cases atHeight.symm.trans isHeight
  exact ⟨blockHash,swaps,swaps ▸ pegSwapEffect⟩

theorem Timely.connectPeg (timely : Timely s.toSwapTables height height) (atHeight : s.height = some height)
    (ok : connectTwoWayPegData lib s data rpc = .ok s') : Timely s'.toSwapTables (height + 1) (height + 1) := by
  obtain ⟨blockHash,swaps,effect⟩ := pegsAt atHeight ok
  have entry {k : Nat} {reversals : List ExpiredSwapReversal} (found : s'.expiredSwaps.tryGet k = some reversals) :
      s.expiredSwaps.tryGet k = some reversals ∨ k = height ∧ Expiries height s.toSwapTables reversals := by
    rw [swaps] at found
    exact expiryEntry found
  refine ⟨fun swapId after recorded waits => ?_,fun k reversals found => ?_,
    fun k reversals found reversal mem after recorded => ?_⟩
  · obtain ⟨before,isBefore,record⟩ := effect.before recorded
    exact pegDue record waits (timely.awaiting swapId before isBefore)
  · rcases entry found with earlier | ⟨here,_⟩
    · exact Nat.lt_succ_of_lt (timely.below k reversals earlier)
    · exact here ▸ Nat.lt_succ_self k
  · obtain ⟨before,isBefore,record⟩ := effect.before recorded
    rcases entry found with earlier | ⟨here,noted⟩
    · exact (timely.reversals k reversals earlier reversal mem before isBefore).same record.terms
    · obtain ⟨swap,isSwap,waits,_⟩ := noted.waited reversal mem
      cases isBefore.symm.trans isSwap
      subst here
      exact (timely.awaiting reversal.1 before isBefore waits).same record.terms

theorem restoredBefore {reversal : ExpiredSwapReversal} {swapId : SwapId} {swap : Swap}
    (recorded : (restoreExpired w reversal).getSwap swapId = some swap) :
    ∃ before, w.getSwap swapId = some before ∧ swap.terms = before.terms := by
  have terms := (@restoreExpiredKeeps w reversal).2 swapId
  rw [recorded] at terms
  obtain ⟨before,isBefore,same⟩ := Option.map_eq_some_iff.mp terms.symm
  exact ⟨before,isBefore,same.symm⟩

theorem restoredRecord {reversal : ExpiredSwapReversal} {swapId : SwapId} :
    (restoreExpired w reversal).getSwap swapId =
      if swapId = reversal.1 then (w.getSwap swapId).map (fun swap => { swap with state := reversal.2.1 })
      else w.getSwap swapId := by
  unfold restoreExpired
  rw [locksEq]
  cases recorded : w.getSwap reversal.1 with
  | none =>
      by_cases own : swapId = reversal.1
      · rw [if_pos own,own,recorded]
        exact recorded
      · rw [if_neg own]
        rfl
  | some swap =>
      have saved : (w.saveSwap { swap with state := reversal.2.1 }).getSwap swapId =
          if swapId = swap.id then some { swap with state := reversal.2.1 } else w.getSwap swapId := getSwapSave
      refine saved.trans ?_
      by_cases own : swapId = reversal.1
      · rw [if_pos own,if_pos (own.trans (getSwapId recorded).symm),own,recorded]
        rfl
      · rw [if_neg own,if_neg (fun here => own (here.trans (getSwapId recorded)))]

theorem Timely.restore {reversal : ExpiredSwapReversal} (timely : Timely w height (height + 1))
    (due : ∀ swap, w.getSwap reversal.1 = some swap → swap.DueFrom height) :
    Timely (restoreExpired w reversal) height (height + 1) := by
  refine timely.records (Nat.le_refl _) restoreExpiredTable (fun swapId swap recorded => ?_)
  rw [restoredRecord] at recorded
  split at recorded
  · next own =>
      obtain ⟨before,isBefore,rfl⟩ := Option.map_eq_some_iff.mp recorded
      rw [own] at isBefore
      exact .inr ((due before isBefore).same rfl)
  · exact comesFromSame recorded

theorem Timely.restoreEach {reversals : List ExpiredSwapReversal} (timely : Timely w height (height + 1))
    (due : ∀ reversal ∈ reversals, ∀ swap, w.getSwap reversal.1 = some swap → swap.DueFrom height) :
    Timely (reversals.foldl restoreExpired w) height (height + 1) := by
  induction reversals generalizing w with
  | nil => exact timely
  | cons reversal rest ih =>
      refine ih (timely.restore (due reversal List.mem_cons_self)) (fun other mem swap recorded => ?_)
      obtain ⟨before,isBefore,terms⟩ := restoredBefore recorded
      exact (due other (List.mem_cons_of_mem reversal mem) before isBefore).same terms

theorem Timely.restoreAll (timely : Timely w (height + 1) (height + 1)) :
    Timely (restoreExpiredSwaps w height) height height := by
  have relaxed : Timely w height (height + 1) :=
    ⟨fun swapId swap recorded waits => (timely.awaiting swapId swap recorded waits).sooner (Nat.le_succ height),
      timely.below,timely.reversals⟩
  unfold restoreExpiredSwaps
  split
  · next reversals found =>
      have each := relaxed.restoreEach (timely.reversals height reversals found)
      have left {k : Nat} {kept : List ExpiredSwapReversal}
          (there : ((reversals.foldl restoreExpired w).expiredSwaps.delete height).tryGet k = some kept) :
          k ≠ height ∧ (reversals.foldl restoreExpired w).expiredSwaps.tryGet k = some kept := by
        rw [Table.tryGetDelete] at there
        split at there
        · cases there
        · next other => exact ⟨other,there⟩
      refine ⟨each.awaiting,fun k kept there => ?_,fun k kept there => each.reversals k kept (left there).2⟩
      have low := each.below k kept (left there).2
      have other := (left there).1
      omega
  · next missing =>
      refine ⟨relaxed.awaiting,fun k kept there => ?_,relaxed.reversals⟩
      have low := relaxed.below k kept there
      have other : k ≠ height := by
        intro here
        rw [here,missing] at there
        cases there
      omega

theorem restoredState {reversals : List ExpiredSwapReversal} {swapId : SwapId} {before : Swap} {state : SwapState}
    (all : ∀ reversal ∈ reversals, reversal.1 = swapId → reversal.2.1 = before.state)
    (recorded : w.getSwap swapId = some { before with state })
    (listed : state = before.state ∨ ∃ reversal ∈ reversals, reversal.1 = swapId) :
    (reversals.foldl restoreExpired w).getSwap swapId = some before := by
  induction reversals generalizing w state with
  | nil =>
      rcases listed with rfl | ⟨_,mem,_⟩
      · exact recorded
      · cases mem
  | cons reversal rest ih =>
      have restored := @restoredRecord w reversal swapId
      rw [recorded] at restored
      have later := fun other mem => all other (List.mem_cons_of_mem reversal mem)
      by_cases own : reversal.1 = swapId
      · rw [if_pos own.symm,Option.map_some,all reversal List.mem_cons_self own] at restored
        exact ih later restored (.inl rfl)
      · rw [if_neg (Ne.symm own)] at restored
        refine ih later restored (listed.imp_right ?_)
        rintro ⟨other,mem,isId⟩
        rcases List.mem_cons.mp mem with rfl | inRest
        · exact absurd isId own
        · exact ⟨other,inRest,isId⟩

theorem Expiries.undone {noted : List ExpiredSwapReversal} {swapId : SwapId} {before : Swap}
    (expiries : Expiries height w noted) (recorded : w.getSwap swapId = some before)
    (expires : before.expiresAt height = true) (table : w'.expiredSwaps.tryGet height = some noted)
    (cancelled : w'.getSwap swapId = some { before with state := .cancelled }) :
    (restoreExpiredSwaps w' height).getSwap swapId = some before := by
  have states : ∀ reversal ∈ noted, reversal.1 = swapId → reversal.2.1 = before.state := by
    intro reversal mem isId
    obtain ⟨swap,isSwap,_,state⟩ := expiries.waited reversal mem
    rw [isId] at isSwap
    cases recorded.symm.trans isSwap
    exact state
  unfold restoreExpiredSwaps
  rw [table]
  exact restoredState states cancelled (.inr (expiries.all swapId before recorded expires))

end Pegs

section Locally

theorem localOpExpired {op : LocalOp} (ok : op.apply w = .ok w') : w'.expiredSwaps = w.expiredSwaps := by
  cases op with
  | updateSwapL1Txid swapId l1Txid confirmations l1Claimer l2Claimer blockHash blockHeight =>
      simp only [LocalOp.apply,updateSwapL1Txid,bindOk,okOrOk,ensureOk,ensureSomeOk,pureOk] at ok
      obtain ⟨_,_,_,_,_,_,_,_,_,_,_,_,rfl⟩ := ok
      rfl
  | updateSwapConfirmations swapId confirmations blockHash blockHeight =>
      simp only [LocalOp.apply,updateSwapConfirmations,bindOk,okOrOk] at ok
      obtain ⟨_,_,ok⟩ := ok
      split at ok
      · split at ok
        · cases pureOk.mp ok
          rfl
        · cases pureOk.mp ok
          rfl
      · cases ok
  | cancelSwap swapId creator =>
      simp only [LocalOp.apply,cancelSwap,bindOk,okOrOk,ensureOk,pureOk] at ok
      obtain ⟨_,_,_,_,_,_,rfl⟩ := ok
      simp only [unlockAllOutputsForSwap,unlocksEq]
      rfl
  | cleanupOrphanedLocks =>
      cases ok
      rw [cleanupEq]

theorem observedFrom {swapId : SwapId} {swap : Swap} (effect : ObservationEffect w w')
    (recorded : w'.getSwap swapId = some swap) : ComesFrom w due swapId swap := by
  have record := effect.records swapId
  rw [recorded] at record
  cases isBefore : w.getSwap swapId with
  | none =>
      rw [isBefore] at record
      cases record
  | some before =>
      rw [isBefore] at record
      cases record with
      | some observed =>
          refine .inl ⟨before,isBefore,observed.terms,fun waits => ?_⟩
          rcases observed.state with same | ⟨waited,_⟩
          · exact same ▸ waits
          · exact waited

theorem Timely.localOp {op : LocalOp} (timely : Timely w due due) (ok : op.apply w = .ok w') : Timely w' due due := by
  have table : w'.expiredSwaps = w.expiredSwaps := localOpExpired ok
  refine timely.records (Nat.le_succ due) table (fun swapId swap recorded => ?_)
  cases op with
  | updateSwapL1Txid => exact observedFrom (updateSwapL1TxidEffect ok) recorded
  | updateSwapConfirmations => exact observedFrom (updateSwapConfirmationsEffect ok) recorded
  | cancelSwap named creator =>
      obtain ⟨before,effect⟩ := cancelSwapEffect ok
      rw [effect.records] at recorded
      split at recorded
      · next here =>
          cases recorded
          exact .inl ⟨before,here ▸ effect.recorded,rfl,fun waits => by cases waits⟩
      · exact comesFromSame recorded
  | cleanupOrphanedLocks =>
      cases ok
      rw [cleanupEq] at recorded
      exact comesFromSame recorded

end Locally

section Tips

variable {F : Type} {lib : Externals F} {ctxt : BatchVerificationContext}
  {prove : F → List Hash → Except Text UtreexoProof} {s s' : State F}

def OnTime (s : State F) : Prop := Timely s.toSwapTables s.nextHeight s.nextHeight

theorem newOnTime : OnTime (State.new F) := by
  have noSwap (swapId : SwapId) : (State.new F).getSwap swapId = none := Table.tryGetEmpty
  have noExpiry (height : Nat) : (State.new F).expiredSwaps.tryGet height = none := Table.tryGetEmpty
  refine ⟨fun swapId swap recorded => ?_,fun height reversals found => ?_,fun height reversals found => ?_⟩
  · cases (noSwap swapId).symm.trans recorded
  · cases (noExpiry height).symm.trans found
  · cases (noExpiry height).symm.trans found

theorem OnTime.locally {op : LocalOp} (onTime : OnTime s) (ok : Step.apply lib ctxt s (.localOp op) = .ok s') :
    OnTime s' := by
  simp only [Step.apply,bindOk,pureOk] at ok
  obtain ⟨swaps,called,rfl⟩ := ok
  exact Timely.localOp onTime called

namespace NetTask

variable {db db' : Db F} {header : Header} {body : Body}

theorem ConnectTipSource.onTime {data : TwoWayPegData} {rpc : RpcReplies}
    (source : ConnectTipSource lib ctxt db header body data rpc db') (onTime : OnTime db.state) : OnTime db'.state := by
  obtain ⟨middle,connected,pegs⟩ := source.state
  obtain ⟨atHeight,timely⟩ := Timely.connect onTime connected
  have next := timely.connectPeg atHeight pegs
  rw [OnTime,State.nextHeight,(connectPegSource pegs).height,atHeight]
  exact next

theorem DisconnectTipSource.onTime (source : DisconnectTipSource lib db header body db') (onTime : OnTime db.state) :
    OnTime db'.state := by
  obtain ⟨_,data,middle,below,accumulator,_,_,pegs,disconnected,_,isState⟩ := source.state
  obtain ⟨height,progress,undone⟩ := pegDisconnectSource pegs
  have next : db.state.nextHeight = height + 1 := by rw [State.nextHeight,undone.atHeight]
  have middleNext : middle.nextHeight = height + 1 := by
    rw [State.nextHeight,(disconnectPegSource pegs).height,undone.atHeight]
  have belowNext : below.nextHeight = height := by
    have one := disconnectNext disconnected
    omega
  rw [OnTime,next] at onTime
  have timely : Timely middle.toSwapTables height height := by
    rw [undone.swaps]
    exact onTime.restoreAll
  rw [isState]
  show Timely below.toSwapTables below.nextHeight below.nextHeight
  rw [belowNext]
  exact timely.disconnect disconnected

theorem Whole.onTime {rpc : BlockHash → RpcReplies} (whole : Whole lib ctxt prove rpc db db') (onTime : OnTime db.state) :
    OnTime db'.state := by
  induction whole with
  | start => exact onTime
  | disconnect _ done before =>
      obtain ⟨_,_,source⟩ := disconnectTipSource done
      exact source.onTime before
  | connect _ done before => exact (connectTipSource done).onTime before

/- A reorganisation stops between whole blocks, wherever it stops. -/
theorem reorgOnTime {newTip : Tip} {rpc : BlockHash → RpcReplies} (onTime : OnTime db.state) :
    OnTime (reorgToTip lib ctxt prove db newTip rpc).1.state := by
  have ends := @reorgAtomic F lib ctxt prove rpc db newTip
  split at ends
  · next committed done =>
      rw [done]
      exact ends.2.onTime onTime
  · next committed done =>
      rw [done,ends]
      exact onTime
  · next committed err done =>
      rw [done]
      rcases ends with ⟨same,_⟩ | ⟨t,better⟩
      · show OnTime committed.state
        rw [same]
        exact onTime
      · obtain ⟨before,_,_,_,after,whole,_,connected,same,_⟩ := better.connected
        show OnTime committed.state
        rw [same]
        exact (connectTipSource connected).onTime (whole.onTime onTime)

/- A tip treats a swap that waits for its payment by the swap's deadline, unless its block claims the swap. -/
structure DeadlineMet (swapId : SwapId) (before : Swap) (s : State F) : Prop where
  cancels : before.expiresAtHeight = s.height →
    s.getSwap swapId = some { before with state := .cancelled } ∧ ∀ o, s.isOutputLockedToSwap o ≠ some swapId
  spares : before.expiresAtHeight ≠ s.height → ∃ after, s.getSwap swapId = some after ∧ after.terms = before.terms ∧
    (after.isAwaiting = true ∨ after.state = .readyToClaim)

theorem blockUnclaimed {pre : PrevalidatedBlock} {swapId : SwapId} {before : Swap}
    (source : ConnectBlockSource lib ctxt s header body pre s') (recorded : s.getSwap swapId = some before)
    (unclaimed : ∀ tx ∈ body.transactions, ¬ tx.Claims swapId) : s'.getSwap swapId = some before := by
  rcases blockRecord source recorded with same | ⟨_,tx,mem,claims⟩
  · exact same
  · exact absurd claims (unclaimed tx mem)

theorem unclaimedUndone {w w' : SwapTables} {swapId : SwapId} {before : Swap}
    (undone : disconnectSwaps lib body w = .ok w') (recorded : w.getSwap swapId = some before)
    (unclaimed : ∀ tx ∈ body.transactions, ¬ tx.Claims swapId)
    (uncreated : ∀ tx ∈ body.transactions, ∀ create, tx.data = .swapCreate create → swapId ≠ create.swapId) :
    w'.getSwap swapId = some before := by
  refine foldInvariant (P := fun w => w.getSwap swapId = some before) (fun w tx w' mem now step => ?_) recorded undone
  rw [(disconnectSwapEffect step).2.2]
  have inBody := List.mem_reverse.mp mem
  unfold recordsUndone
  split
  · next create kind =>
      rw [if_neg (uncreated tx inBody create kind)]
      exact now
  · next claimed claimer proof kind =>
      have other : swapId ≠ claimed := by
        rintro rfl
        exact unclaimed tx inBody ⟨claimer,proof,kind⟩
      rw [if_neg other]
      exact now
  · exact now

theorem ConnectTipSource.deadlineMet {data : TwoWayPegData} {rpc : RpcReplies} {swapId : SwapId} {before : Swap}
    (source : ConnectTipSource lib ctxt db header body data rpc db') (onTime : OnTime db.state)
    (recorded : db.state.getSwap swapId = some before) (waits : before.isAwaiting = true)
    (unclaimed : ∀ tx ∈ body.transactions, ¬ tx.Claims swapId) : DeadlineMet swapId before db'.state := by
  obtain ⟨middle,connected,pegs⟩ := source.state
  have still := (connectBlockSource connected).elim (fun _ block => blockUnclaimed block recorded unclaimed)
  obtain ⟨atHeight,_⟩ := Timely.connect onTime connected
  have last : db'.state.height = some db.state.nextHeight := (connectPegSource pegs).height.trans atHeight
  obtain ⟨_,_,effect⟩ := pegsAt atHeight pegs
  obtain ⟨expiresAt,isExpiry,later⟩ := onTime.awaiting swapId before recorded waits
  have expires : before.expiresAt db.state.nextHeight = decide (expiresAt ≤ db.state.nextHeight) := by
    rw [Swap.expiresAt,waits,Swap.isExpiredAt,isExpiry,Bool.true_and]
  obtain ⟨after,isAfter,record⟩ := effect.after still
  rw [Swap.PegRecord,expires] at record
  refine ⟨fun due => ?_,fun other => ?_⟩
  · rw [isExpiry,last] at due
    cases due
    rw [if_pos (decide_eq_true (Nat.le_refl _))] at record
    refine ⟨record ▸ isAfter,fun o locked => ?_⟩
    rcases effect.lock o with ⟨_,_,_,_,_,unlocked⟩ | ⟨lives,same⟩
    · cases locked.symm.trans unlocked
    · have lasts := lives swapId before (same.symm.trans locked) still
      rw [expires,decide_eq_false_iff_not] at lasts
      exact lasts (Nat.le_refl _)
  · rw [isExpiry,last] at other
    have early : ¬ expiresAt ≤ db.state.nextHeight := fun early => other (congrArg some (Nat.le_antisymm early later))
    rw [if_neg (by simpa using early)] at record
    refine ⟨after,isAfter,record.terms,?_⟩
    rcases record.state with same | ⟨_,state⟩
    · exact .inl (same ▸ waits)
    · exact state

theorem ConnectTipSource.undone {last : Db F} {data : TwoWayPegData} {rpc : RpcReplies} {swapId : SwapId} {before : Swap}
    {header' : Header} {body' : Body} (source : ConnectTipSource lib ctxt db header body data rpc db')
    (back : DisconnectTipSource lib db' header' body' last) (onTime : OnTime db.state)
    (recorded : db.state.getSwap swapId = some before) (waits : before.isAwaiting = true)
    (unclaimed : ∀ tx ∈ body.transactions, ¬ tx.Claims swapId) (due : before.expiresAtHeight = db'.state.height) :
    last.state.getSwap swapId = some before := by
  obtain ⟨cancelled,_⟩ := (source.deadlineMet onTime recorded waits unclaimed).cancels due
  obtain rfl : body = body' := by
    obtain ⟨tip,isTip,_,isBody⟩ := back.stored
    cases source.tip.symm.trans isTip
    rw [source.bodies,Table.tryGetPut,if_pos rfl] at isBody
    exact Option.some.inj isBody
  obtain ⟨middle,connected,pegs⟩ := source.state
  obtain ⟨pre,block⟩ := connectBlockSource connected
  obtain ⟨atHeight,_⟩ := Timely.connect onTime connected
  have top : db'.state.height = some db.state.nextHeight := (connectPegSource pegs).height.trans atHeight
  have expires : before.expiresAt db.state.nextHeight = true := by
    rw [Swap.expiresAt,waits,Swap.isExpiredAt,due,top]
    simp
  obtain ⟨blockHash,swaps,_⟩ := pegsAt atHeight pegs
  obtain ⟨noted,expiries,table⟩ := @expiryTable middle.toSwapTables db.state.nextHeight rpc blockHash
  have still := blockUnclaimed block recorded unclaimed
  have nonempty : ¬ noted.isEmpty = true := by
    obtain ⟨reversal,mem,_⟩ := expiries.all swapId before still expires
    exact fun none => List.ne_nil_of_mem mem (List.isEmpty_iff.mp none)
  have found : db'.state.expiredSwaps.tryGet db.state.nextHeight = some noted := by
    rw [swaps,table,if_neg nonempty,Table.tryGetPut,if_pos rfl]
  obtain ⟨_,data',restored,below,accumulator,_,_,pegsBack,disconnected,_,isState⟩ := back.state
  obtain ⟨height,progress,undone⟩ := pegDisconnectSource pegsBack
  cases top.symm.trans undone.atHeight
  have awaits : restored.getSwap swapId = some before := by
    show restored.toSwapTables.getSwap swapId = _
    rw [undone.swaps]
    exact expiries.undone still expires found cancelled
  rw [isState]
  refine unclaimedUndone (disconnectSource disconnected).swaps awaits unclaimed (fun tx mem create kind here => ?_)
  rw [← filledTransactions block.validated.transactions] at mem
  obtain ⟨f,inFilled,rfl⟩ := List.mem_map.mp mem
  have fresh := block.fresh inFilled kind
  rw [← here] at fresh
  cases fresh.symm.trans recorded

inductive TipMove (F : Type) where
  | connectTip_ (header : Header) (body : Body) (twoWayPegData : TwoWayPegData) (rpc : RpcReplies)
  | disconnectTip_
  | reorgToTip (newTip : Tip) (rpc : BlockHash → RpcReplies)
  | localOp (op : LocalOp)
  | learn (archive : Archive F)

variable (lib ctxt prove)

def TipMove.apply (db : Db F) : TipMove F → Db F
  | .connectTip_ header body twoWayPegData rpc =>
      (NetTask.connectTip_ lib ctxt prove db header body twoWayPegData rpc).toOption.getD db
  | .disconnectTip_ => (NetTask.disconnectTip_ lib prove db).toOption.getD db
  | .reorgToTip newTip rpc => (NetTask.reorgToTip lib ctxt prove db newTip rpc).1
  | .localOp op =>
      match Step.apply lib ctxt db.state (.localOp op) with
      | .ok state => { db with state }
      | .error _ => db
  | .learn archive => { db with archive }

def runMoves (moves : List (TipMove F)) (db : Db F) : Db F := moves.foldl (TipMove.apply lib ctxt prove) db

structure DeadlinesKept (db : Db F) : Prop where
  waits : ∀ swapId swap, db.state.getSwap swapId = some swap → swap.isAwaiting = true →
    ∃ expiresAt, swap.expiresAtHeight = some expiresAt ∧ db.state.nextHeight ≤ expiresAt
  expires : ∀ header body data rpc db', NetTask.connectTip_ lib ctxt prove db header body data rpc = .ok db' →
    ∀ swapId before, db.state.getSwap swapId = some before → before.isAwaiting = true →
    (∀ tx ∈ body.transactions, ¬ tx.Claims swapId) → DeadlineMet swapId before db'.state ∧
    ∀ last, NetTask.disconnectTip_ lib prove db' = .ok last → before.expiresAtHeight = db'.state.height →
      last.state.getSwap swapId = some before

variable {lib ctxt prove}

theorem moveOnTime {move : TipMove F} (onTime : OnTime db.state) : OnTime (move.apply lib ctxt prove db).state := by
  cases move with
  | connectTip_ header body data rpc =>
      unfold TipMove.apply
      dsimp only
      cases done : NetTask.connectTip_ lib ctxt prove db header body data rpc with
      | error err => exact onTime
      | ok after => exact (connectTipSource done).onTime onTime
  | disconnectTip_ =>
      unfold TipMove.apply
      dsimp only
      cases done : NetTask.disconnectTip_ lib prove db with
      | error err => exact onTime
      | ok after =>
          obtain ⟨_,_,source⟩ := disconnectTipSource done
          exact source.onTime onTime
  | reorgToTip newTip rpc => exact reorgOnTime onTime
  | localOp op =>
      unfold TipMove.apply
      dsimp only
      split
      · next state done => exact onTime.locally done
      · exact onTime
  | learn archive => exact onTime

theorem runOnTime {moves : List (TipMove F)} (onTime : OnTime db.state) :
    OnTime (runMoves lib ctxt prove moves db).state := by
  induction moves generalizing db with
  | nil => exact onTime
  | cons move rest ih => exact ih (moveOnTime onTime)

theorem deadlinesKept (moves : List (TipMove F)) :
    DeadlinesKept lib ctxt prove (runMoves lib ctxt prove moves (Db.new F)) := by
  have onTime : OnTime (runMoves lib ctxt prove moves (Db.new F)).state := runOnTime newOnTime
  refine ⟨onTime.awaiting,fun header body data rpc db' done swapId before recorded waits unclaimed => ?_⟩
  have source := connectTipSource done
  refine ⟨source.deadlineMet onTime recorded waits unclaimed,fun last undone due => ?_⟩
  obtain ⟨_,_,back⟩ := disconnectTipSource undone
  exact source.undone back onTime recorded waits unclaimed due

end NetTask

end Tips

end Deadlines

section Lapsed

open Reference NetTask

def waitingBlocks : List (Body × TwoWayPegData) :=
  [(body [] [],pegData [deposit 1 (coin alice 1000)]),(body [(createNamed,[alice])] [],⟨[]⟩)] ++
    List.replicate 49 (body [] [],⟨[]⟩)

def minedOn (db : Db Forest) (block : Body) : Header := { mine db.state block with prevMainHash := 5 }

def minesAll : List (Body × TwoWayPegData) → Db Forest → List (TipMove Forest)
  | [], _ => []
  | (block,data) :: rest, db =>
      let move := TipMove.connectTip_ (minedOn db block) block data noRpc
      move :: minesAll rest (move.apply externals context noProof db)

def learned : TipMove Forest :=
  .learn (((Archive.new Forest).putMainHeaderInfo ⟨5,0,0,1⟩).toOption.getD (Archive.new Forest))

def waitingMoves : List (TipMove Forest) :=
  learned :: minesAll waitingBlocks (learned.apply externals context noProof (Db.new Forest))

def lapsesNext (db : Db Forest) : Bool :=
  (db.state.getSwap namedId).any (fun before => before.isAwaiting &&
    (connectTip_ externals context noProof db (minedOn db (body [] [])) (body [] []) ⟨[]⟩ noRpc).toOption.any (fun db' =>
      before.expiresAtHeight = db'.state.height && (disconnectTip_ externals noProof db').isOk))

theorem swapLapses : ∃ (moves : List (TipMove Forest)) (before : Swap) (db' last : Db Forest),
    (runMoves externals context noProof moves (Db.new Forest)).state.getSwap namedId = some before ∧
    before.isAwaiting = true ∧ db'.state.getSwap namedId = some { before with state := .cancelled } ∧
    disconnectTip_ externals noProof db' = .ok last ∧ last.state.getSwap namedId = some before := by
  have played : lapsesNext (runMoves externals context noProof waitingMoves (Db.new Forest)) = true := by decide +kernel
  obtain ⟨before,recorded,checked⟩ := (Option.any_eq_true _ _).mp played
  obtain ⟨waits,connects⟩ := Bool.and_eq_true_iff.mp checked
  obtain ⟨db',isNext,ends⟩ := (Option.any_eq_true _ _).mp connects
  obtain ⟨due,disconnects⟩ := Bool.and_eq_true_iff.mp ends
  obtain ⟨last,undone⟩ := isOkExists disconnects
  have connected := toOptionOk isNext
  have unclaimed : ∀ tx ∈ (body [] []).transactions, ¬ tx.Claims namedId := fun tx mem => by cases mem
  obtain ⟨met,returns⟩ :=
    (deadlinesKept waitingMoves).expires _ _ _ _ db' connected namedId before recorded waits unclaimed
  have isDue := of_decide_eq_true due
  exact ⟨waitingMoves,before,db',last,recorded,waits,(met.cancels isDue).1,undone,returns last undone isDue⟩

end Lapsed

end Coinshift
