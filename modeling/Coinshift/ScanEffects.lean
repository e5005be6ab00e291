import Coinshift.StepEffects

/-! What one scan of the parent chains does to each record.
The loop meets every swap once, with the record it had before the scan: an awaiting swap expires, is left as it
is, or takes the count of the first acceptable payment in the reply. -/
namespace Coinshift
open Checked SwapTables

variable {rpc : RpcReplies} {blockHash : BlockHash} {height : Nat}

def SwapState.current : SwapState → UInt32
  | .waitingConfirmations current _ => current
  | _ => 0

def firstAcceptable (found : List (Text × TransactionInfo)) (swap : Swap) : Option (Text × TransactionInfo) :=
  (found.filter (fun m => m.2.acceptable swap.parentChain.maxL1TxAgeBlocks)).head?

structure SeesPayment (rpc : RpcReplies) (swap : Swap) (m : Text × TransactionInfo) (after : Swap) : Prop where
  reply : ∃ found, rpc swap.id = some (.ok found) ∧ firstAcceptable found swap = some m
  awaiting : swap.isAwaiting = true
  sameId : after.id = swap.id
  terms : after.terms = swap.terms
  required : after.requiredConfirmations = swap.requiredConfirmations
  state : after.state = (swap.withConfirmations m.2.confirmations swap.requiredConfirmations).state
  txid : swap.l1Txid.isUnset = true ∧ SwapTxId.fromHexRpc m.2.txid = some after.l1Txid ∨
    swap.l1Txid.isUnset = false ∧ after.l1Txid = swap.l1Txid ∧ swap.state.current < m.2.confirmations ∧
      (SwapTxId.fromHexRpc m.2.txid).isSome = true

structure CountsFurther (rpc : RpcReplies) (swap : Swap) (found : List (Text × TransactionInfo))
    (m : Text × TransactionInfo) : Prop where
  awaiting : swap.isAwaiting = true
  isSet : swap.l1Txid.isUnset = false
  reply : rpc swap.id = some (.ok found)
  first : firstAcceptable found swap = some m
  readable : (SwapTxId.fromHexRpc m.2.txid).isSome = true
  further : swap.state.current < m.2.confirmations

theorem firstAcceptableSource {found : List (Text × TransactionInfo)} {swap : Swap} {m : Text × TransactionInfo}
    (first : firstAcceptable found swap = some m) : m ∈ found ∧ m.2.confirmations ≠ 0 := by
  obtain ⟨inside,acceptable⟩ := List.mem_filter.mp (List.mem_of_head? first)
  simp only [TransactionInfo.acceptable,Bool.and_eq_true,decide_eq_true_eq] at acceptable
  exact ⟨inside,acceptable.1.1⟩

section Query

variable {w : SwapTables} {swap updated : Swap} {found : List (Text × TransactionInfo)}

theorem querySees (reply : rpc swap.id = some (.ok found)) (awaiting : swap.isAwaiting = true)
    (result : queryAndUpdateSwap w found swap blockHash height = some updated) : ∃ m, SeesPayment rpc swap m updated ∧
    (swap.l1Txid.isUnset = true → ∀ existing, w.getSwapByL1Txid swap.parentChain updated.l1Txid = some existing →
      existing.id = swap.id) := by
  unfold queryAndUpdateSwap at result
  simp only [bind,Option.bind_eq_some_iff] at result
  obtain ⟨m,first,l1Txid,decoded,result⟩ := result
  split at result
  · next unset =>
      have same : (((swap.updateL1Txid l1Txid).setL1TxidValidationBlock blockHash height).withConfirmations
          m.2.confirmations swap.requiredConfirmations) = updated ∧
          ∀ existing, w.getSwapByL1Txid swap.parentChain l1Txid = some existing → existing.id = swap.id := by
        split at result
        · next existing indexed =>
            simp only [Option.bind_eq_some_iff] at result
            obtain ⟨_,own,same⟩ := result
            refine ⟨Option.some.inj same,fun other isOther => ?_⟩
            cases indexed.symm.trans isOther
            simpa [guard] using own
        · next missing =>
            refine ⟨Option.some.inj result,fun other isOther => ?_⟩
            cases missing.symm.trans isOther
      obtain ⟨rfl,free⟩ := same
      exact ⟨m,⟨⟨found,reply,first⟩,awaiting,rfl,rfl,rfl,rfl,.inl ⟨unset,decoded⟩⟩,fun _ => free⟩
  · next isSet =>
      rw [Bool.not_eq_true] at isSet
      simp only [Option.bind_eq_some_iff] at result
      obtain ⟨_,more,same⟩ := result
      cases Option.some.inj same
      have larger : swap.state.current < m.2.confirmations := by
        have passes {p : Prop} [Decidable p] {u : Unit} (isSome : (guard p : Option Unit) = some u) : p := by
          unfold guard at isSome
          split at isSome
          · next holds => exact holds
          · cases isSome
        unfold SwapState.current
        cases held : swap.state <;> simp only [held] at more ⊢ <;> exact passes more
      refine ⟨m,⟨⟨found,reply,first⟩,awaiting,rfl,rfl,rfl,rfl,.inr ⟨isSet,rfl,larger,?_⟩⟩,fun unset => ?_⟩
      · rw [decoded]
        rfl
      · rw [unset] at isSet
        cases isSet

theorem queryCounts {m : Text × TransactionInfo} (counts : CountsFurther rpc swap found m) :
    (queryAndUpdateSwap w found swap blockHash height).isSome = true := by
  obtain ⟨l1Txid,decoded⟩ := Option.isSome_iff_exists.mp counts.readable
  have first : (found.filter (fun m => m.2.acceptable swap.parentChain.maxL1TxAgeBlocks)).head? = some m := counts.first
  have further := counts.further
  unfold SwapState.current at further
  unfold queryAndUpdateSwap
  simp only [first,decoded,counts.isSet,bind,Option.bind_some,Bool.false_eq_true,if_false]
  cases held : swap.state <;> simp only [held] at further ⊢ <;> simp only [guard,further,if_true] <;> rfl

inductive ScanRecord (rpc : RpcReplies) (height : Nat) (swap : Swap) : Swap → Prop
  | kept (remains : swap.expiresAt height = false) (idle : ∀ found m, ¬ CountsFurther rpc swap found m) :
      ScanRecord rpc height swap swap
  | expired (expires : swap.expiresAt height = true) : ScanRecord rpc height swap { swap with state := .cancelled }
  | seen {m : Text × TransactionInfo} {after : Swap} (remains : swap.expiresAt height = false)
      (sees : SeesPayment rpc swap m after) : ScanRecord rpc height swap after

end Query

section Loop

variable {w : SwapTables} {swap : Swap} {swaps : List Swap} {reversals : List ExpiredSwapReversal}

/- One turn of the loop: the tables it leaves, and why a new transaction may be recorded in them. -/
inductive ScanTurn (rpc : RpcReplies) (height : Nat) (w : SwapTables) (swap : Swap) : SwapTables → Prop
  | kept (remains : swap.expiresAt height = false) (idle : ∀ found m, ¬ CountsFurther rpc swap found m) :
      ScanTurn rpc height w swap w
  | expired (expires : swap.expiresAt height = true) :
      ScanTurn rpc height w swap ((w.unlockAllOutputsForSwap swap.id).saveSwap { swap with state := .cancelled })
  | seen {m : Text × TransactionInfo} {after : Swap} (remains : swap.expiresAt height = false)
      (sees : SeesPayment rpc swap m after)
      (free : swap.l1Txid.isUnset = true → ∀ existing, w.getSwapByL1Txid swap.parentChain after.l1Txid = some existing →
        existing.id = swap.id) : ScanTurn rpc height w swap (w.saveSwap after)

theorem scanTurn : ScanTurn rpc height w swap (processSwap rpc blockHash height (w,reversals) swap).1 := by
  unfold processSwap
  by_cases awaiting : swap.isAwaiting = false
  · rw [if_pos awaiting]
    refine .kept (by rw [Swap.expiresAt,awaiting,Bool.false_and]) (fun found m counts => ?_)
    rw [counts.awaiting] at awaiting
    cases awaiting
  · rw [if_neg awaiting]
    rw [Bool.not_eq_false] at awaiting
    by_cases expired : swap.isExpiredAt height = true
    · rw [if_pos expired]
      exact .expired (by rw [Swap.expiresAt,awaiting,expired]; rfl)
    · rw [if_neg expired]
      have remains : swap.expiresAt height = false := by
        rw [Swap.expiresAt,awaiting,Bool.true_and]
        simpa using expired
      dsimp only
      unfold scanSwap
      split
      · next found reply =>
          split
          · next updated result =>
              obtain ⟨m,sees,free⟩ := querySees reply awaiting result
              exact .seen remains sees free
          · next missing =>
              refine .kept remains (fun found' m counts => ?_)
              cases reply.symm.trans counts.reply
              have isSome := @queryCounts _ blockHash height w swap found m counts
              rw [missing] at isSome
              cases isSome
      · next noReply =>
          refine .kept remains (fun found m counts => ?_)
          exact noReply found counts.reply

theorem ScanTurn.record {w' : SwapTables} (turn : ScanTurn rpc height w swap w') (recorded : w.getSwap swap.id = some swap) :
    (∃ after, w'.getSwap swap.id = some after ∧ ScanRecord rpc height swap after) ∧
      ∀ other, other ≠ swap.id → w'.getSwap other = w.getSwap other := by
  cases turn with
  | kept remains idle => exact ⟨⟨swap,recorded,.kept remains idle⟩,fun _ _ => rfl⟩
  | expired expires =>
      refine ⟨⟨{ swap with state := .cancelled },?_,.expired expires⟩,fun other different => ?_⟩
      · rw [getSwapSave,if_pos rfl]
      · rw [getSwapSave,if_neg different]
        simp only [getSwap,unlockAllSwaps]
  | @seen m after remains sees free =>
      refine ⟨⟨after,?_,.seen remains sees⟩,fun other different => ?_⟩
      · rw [getSwapSave,sees.sameId,if_pos rfl]
      · rw [getSwapSave,sees.sameId,if_neg different]

theorem scanInvariant {P : List Swap → SwapTables → Prop} (start : P [] w)
    (step : ∀ before swap after v v', w.loadAllSwaps = before ++ swap :: after → v.getSwap swap.id = some swap →
      ScanTurn rpc height v swap v' → P before v → P (before ++ [swap]) v') :
    P w.loadAllSwaps (w.loadAllSwaps.foldl (processSwap rpc blockHash height) (w,[])).1 := by
  have untouched (rest before : List Swap) (acc : SwapTables × List ExpiredSwapReversal)
      (split : w.loadAllSwaps = before ++ rest) (recorded : ∀ swap ∈ rest, acc.1.getSwap swap.id = some swap)
      (holds : P before acc.1) : P w.loadAllSwaps (rest.foldl (processSwap rpc blockHash height) acc).1 := by
    induction rest generalizing before acc with
    | nil =>
        rw [split,List.append_nil]
        exact holds
    | cons swap rest ih =>
        have distinct := @loadAllSwapsDistinct w
        rw [split,List.map_append,List.map_cons,List.nodup_append,List.nodup_cons] at distinct
        have own := recorded swap List.mem_cons_self
        have turn : ScanTurn rpc height acc.1 swap (processSwap rpc blockHash height acc swap).1 := scanTurn
        refine ih (before ++ [swap]) _ ?_ ?_ (step before swap rest acc.1 _ split own turn holds)
        · rw [split,List.append_assoc,List.singleton_append]
        · intro later mem
          have other : later.id ≠ swap.id := fun same => distinct.2.1.1 (same ▸ List.mem_map_of_mem mem)
          rw [(turn.record own).2 later.id other]
          exact recorded later (List.mem_cons_of_mem swap mem)
  exact untouched w.loadAllSwaps [] (w,[]) rfl (fun swap mem => memLoadAllSwaps.mp mem) start

theorem scanTables : ∃ expiredSwaps, processCoinshiftTransactions w height blockHash rpc =
    { (w.loadAllSwaps.foldl (processSwap rpc blockHash height) (w,[])).1 with expiredSwaps } := by
  unfold processCoinshiftTransactions
  dsimp only
  split
  · exact ⟨_,rfl⟩
  · exact ⟨_,rfl⟩

theorem scanRecords (swapId : SwapId) : Option.Rel (ScanRecord rpc height) (w.getSwap swapId)
    ((processCoinshiftTransactions w height blockHash rpc).getSwap swapId) := by
  obtain ⟨expiredSwaps,same⟩ := @scanTables rpc blockHash height w
  rw [same]
  have all := @scanInvariant rpc blockHash height w (fun done v => ∀ swapId,
      if swapId ∈ done.map (·.id) then Option.Rel (ScanRecord rpc height) (w.getSwap swapId) (v.getSwap swapId)
      else v.getSwap swapId = w.getSwap swapId) (fun _ => rfl) (by
    intro before swap after v v' split own turn holds swapId
    obtain ⟨⟨updated,found,record⟩,others⟩ := turn.record own
    by_cases here : swapId = swap.id
    · have recorded : w.getSwap swap.id = some swap :=
        memLoadAllSwaps.mp (split ▸ List.mem_append_right before List.mem_cons_self)
      rw [if_pos (by simp [here]),here,recorded,found]
      exact .some record
    · have earlier := holds swapId
      rw [others swapId here]
      simpa [here] using earlier)
  have final := all swapId
  split at final
  · exact final
  · next absent =>
      refine final.symm ▸ ?_
      cases recorded : w.getSwap swapId with
      | none => exact .none
      | some swap =>
          refine absurd (List.mem_map.mpr ⟨swap,memLoadAllSwaps.mpr ?_,getSwapId recorded⟩) absent
          rw [getSwapId recorded]
          exact recorded

end Loop

end Coinshift
