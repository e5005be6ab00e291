import Coinshift.IndexWriters
import Coinshift.PegOps
import Coinshift.Reference

/-! Which swap a parent-chain transaction pays for.
The index from transactions to swaps is right as long as every writer of a record asks it first. A creation
does not: it brings its transaction id with it. -/
namespace Coinshift
open Checked SwapTables

variable {F : Type} {lib : Externals F} {ctxt : BatchVerificationContext} {s t last : State F} {steps : List (Step F)}
  {w w' : SwapTables} {swap old other : Swap} {swapId : SwapId}

def TxidsIndexed (w : SwapTables) : Prop :=
  ∀ swapId swap, w.getSwap swapId = some swap → swap.l1Txid.isUnset = false →
    w.swapsByL1Txid.tryGet swap.l1Pair = some swapId

structure TxidsHeldOnce (w : SwapTables) : Prop where
  once : ∀ a b swap other, w.getSwap a = some swap → w.getSwap b = some other → swap.l1Txid.isUnset = false →
    swap.l1Pair = other.l1Pair → a = b
  indexed : TxidsIndexed w

theorem TxidsIndexed.once {a b : SwapId} (indexed : TxidsIndexed w) (isA : w.getSwap a = some swap)
    (isB : w.getSwap b = some other) (isSet : swap.l1Txid.isUnset = false) (same : swap.l1Pair = other.l1Pair) : a = b := by
  have txid : swap.l1Txid = other.l1Txid := congrArg Prod.snd same
  have first := indexed a swap isA isSet
  have second := indexed b other isB (txid ▸ isSet)
  rw [same] at first
  exact Option.some.inj (first.symm.trans second)

theorem TxidsIndexed.heldOnce (indexed : TxidsIndexed w) : TxidsHeldOnce w :=
  ⟨fun _ _ _ _ isA isB isSet same => indexed.once isA isB isSet same,indexed⟩

section Writers

theorem TxidsIndexed.congr (indexed : TxidsIndexed w) (records : w'.getSwap = w.getSwap)
    (index : w'.swapsByL1Txid = w.swapsByL1Txid) : TxidsIndexed w' := by
  intro swapId swap recorded isSet
  rw [index]
  exact indexed swapId swap (records ▸ recorded) isSet

theorem TxidsIndexed.save (indexed : TxidsIndexed w)
    (free : swap.l1Txid.isUnset = false → ∀ swapId other, swapId ≠ swap.id → w.getSwap swapId = some other →
      other.l1Pair ≠ swap.l1Pair) : TxidsIndexed (w.saveSwap swap) := by
  intro swapId found recorded isSet
  show (w.swapsByL1Txid.put swap.l1Pair swap.id).tryGet found.l1Pair = some swapId
  rw [getSwapSave] at recorded
  split at recorded
  · next here =>
      cases recorded
      rw [here,Table.tryGetPutSelf]
  · next different =>
      rw [Table.tryGetPutOther]
      · exact indexed swapId found recorded isSet
      · intro same
        have txid : found.l1Txid = swap.l1Txid := congrArg Prod.snd same
        exact free (txid ▸ isSet) swapId found different recorded same

theorem TxidsIndexed.resave (indexed : TxidsIndexed w) (swap : Swap) (recorded : w.getSwap swap.id = some old)
    (same : swap.l1Pair = old.l1Pair) : TxidsIndexed (w.saveSwap swap) := by
  refine indexed.save (fun isSet swapId other different isOther holds => different ?_)
  have txid : swap.l1Txid = old.l1Txid := congrArg Prod.snd same
  exact (indexed.once recorded isOther (txid ▸ isSet) (same.symm.trans holds.symm)).symm

theorem TxidsIndexed.delete (indexed : TxidsIndexed w) : TxidsIndexed (w.deleteSwapUnchecked swapId) := by
  intro id found recorded isSet
  rw [getSwapDelete] at recorded
  split at recorded
  · cases recorded
  · next different =>
      unfold deleteSwapUnchecked
      split
      · next swap isSwap =>
          show (w.swapsByL1Txid.delete swap.l1Pair).tryGet found.l1Pair = some id
          rw [Table.tryGetDeleteOther]
          · exact indexed id found recorded isSet
          · intro same
            exact different (indexed.once recorded isSwap isSet same)
      · rw [unlockAllOutputsForSwap,unlocksEq]
        exact indexed id found recorded isSet

theorem keepsTxids : KeptByWriters TxidsIndexed :=
  ⟨fun indexed records index _ => indexed.congr records index,fun swap indexed recorded same _ => indexed.resave swap recorded same,
    TxidsIndexed.delete⟩

end Writers

section Blocks

variable {height : Nat} {f : FilledTransaction} {tx : Transaction}

def FreshTxid (w : SwapTables) (tx : Transaction) : Prop :=
  ∀ create, tx.data = .swapCreate create → (SwapTxId.fromBytes create.l1TxidBytes).isUnset = false →
    ∀ swapId swap, swapId ≠ create.swapId → w.getSwap swapId = some swap →
      swap.l1Pair ≠ (create.parentChain,SwapTxId.fromBytes create.l1TxidBytes)

theorem connectTxids (indexed : TxidsIndexed w) (fresh : FreshTxid w f.transaction)
    (ok : connectSwap lib height w f = .ok w') : TxidsIndexed w' := by
  cases data : f.transaction.data with
  | swapCreate create =>
      simp only [connectSwap,data,bindOk,ensureOk,trySaveOk] at ok
      obtain ⟨_,_,_,rfl⟩ := ok
      rw [locksEq]
      exact (indexed.congr rfl rfl).save (fun isSet swapId other different recorded =>
        fresh create data isSet swapId other different recorded)
  | _ => exact keepsTxids.connect indexed (by simp [data]) ok

end Blocks

section Scans

variable {rpc : RpcReplies} {blockHash : BlockHash} {height : Nat}

theorem turnTxids (indexed : TxidsIndexed w) (recorded : w.getSwap swap.id = some swap)
    (turn : ScanTurn rpc height w swap w') : TxidsIndexed w' := by
  cases turn with
  | kept => exact indexed
  | expired expires => exact keepsTxids.cancelled indexed recorded swap.id
  | @seen m after remains sees free =>
      have chain : after.parentChain = swap.parentChain := congrArg SwapTerms.parentChain sees.terms
      rcases sees.txid with ⟨unset,_⟩ | ⟨_,same,_⟩
      · refine indexed.save (fun isSet id other different isOther holds => different ?_)
        have otherTxid : other.l1Txid = after.l1Txid := congrArg Prod.snd holds
        have found : w.getSwapByL1Txid swap.parentChain after.l1Txid = some other := by
          have inIndex := indexed id other isOther (otherTxid ▸ isSet)
          rw [holds,Swap.l1Pair,chain] at inIndex
          simp [getSwapByL1Txid,inIndex,isOther]
        rw [sees.sameId,← getSwapId isOther]
        exact free unset other found
      · refine indexed.resave after (sees.sameId.symm ▸ recorded) ?_
        rw [Swap.l1Pair,chain,same]
        rfl

theorem scanTxids (indexed : TxidsIndexed w) : TxidsIndexed (processCoinshiftTransactions w height blockHash rpc) := by
  obtain ⟨expiredSwaps,same⟩ := @scanTables rpc blockHash height w
  rw [same]
  have scanned := @scanInvariant rpc blockHash height w (fun _ v => TxidsIndexed v) indexed
    (fun _ _ _ _ _ _ recorded turn holds => turnTxids holds recorded turn)
  exact scanned.congr rfl rfl

end Scans

theorem updateTxids {l1Txid : SwapTxId} {updated : Swap} (indexed : TxidsIndexed w) (recorded : w.getSwap swapId = some swap)
    (unused : ∀ existing, w.getSwapByL1Txid swap.parentChain l1Txid = some existing → existing.id = swapId)
    (sameId : updated.id = swapId) (chain : updated.parentChain = swap.parentChain) (txid : updated.l1Txid = l1Txid) :
    TxidsIndexed ({ w with
      swapsByL1Txid := (w.swapsByL1Txid.delete (updated.parentChain,swap.l1Txid)).put (updated.parentChain,l1Txid) swapId
      }.saveSwap updated) := by
  intro id found isFound isSet
  rw [chain]
  show (Table.put _ updated.l1Pair updated.id).tryGet found.l1Pair = some id
  rw [getSwapSave] at isFound
  split at isFound
  · next here =>
      cases isFound
      rw [here,Table.tryGetPutSelf]
  · next different =>
      have before : w.getSwap id = some found := isFound
      have notNew : found.l1Pair ≠ (swap.parentChain,l1Txid) := by
        intro same
        have inIndex := indexed id found before isSet
        rw [same] at inIndex
        have existing : w.getSwapByL1Txid swap.parentChain l1Txid = some found := by
          simp [getSwapByL1Txid,inIndex,before]
        exact different ((getSwapId before).symm.trans ((unused found existing).trans sameId.symm))
      have notOld : found.l1Pair ≠ (swap.parentChain,swap.l1Txid) := by
        intro same
        exact different ((indexed.once before recorded isSet same).trans sameId.symm)
      have pair : updated.l1Pair = (swap.parentChain,l1Txid) := by rw [Swap.l1Pair,chain,txid]
      rw [pair,Table.tryGetPutOther notNew,Table.tryGetPutOther notNew,Table.tryGetDeleteOther notOld]
      exact indexed id found before isSet

theorem localOpTxids {op : LocalOp} (indexed : TxidsIndexed w) (ok : op.apply w = .ok w') : TxidsIndexed w' := by
  cases op with
  | updateSwapL1Txid id l1Txid confirmations l1Claimer l2Claimer blockHash blockHeight =>
      simp only [LocalOp.apply,updateSwapL1Txid,bindOk,okOrOk,ensureOk,ensureSomeOk,pureOk] at ok
      obtain ⟨swap,recorded,_,_,_,_,_,_,_,unused,_,_,rfl⟩ := ok
      have own : swap.id = id := getSwapId recorded
      refine updateTxids indexed recorded unused ?_ ?_ ?_
      · cases l1Claimer <;> cases l2Claimer <;> exact own
      · cases l1Claimer <;> cases l2Claimer <;> rfl
      · cases l1Claimer <;> cases l2Claimer <;> rfl
  | _ => exact keepsTxids.localOp indexed (by simp) ok

section Keys

variable {rpc : RpcReplies} {blockHash : BlockHash} {height : Nat} {f : FilledTransaction}

/- The transaction id of every record fits into a key: saving the record again cannot fail. -/
def KeysFit (w : SwapTables) : Prop := ∀ swapId swap, w.getSwap swapId = some swap → swap.l1Txid.fitsKey = true

theorem KeysFit.save (fit : KeysFit w) (fits : swap.l1Txid.fitsKey = true) : KeysFit (w.saveSwap swap) := by
  intro swapId found recorded
  rw [getSwapSave] at recorded
  split at recorded
  · cases recorded
    exact fits
  · exact fit swapId found recorded

theorem keepsFit : KeptByWriters KeysFit where
  congr := fun fit records _ _ swapId swap recorded => fit swapId swap (records ▸ recorded)
  resave := by
    intro w old swap fit recorded same _
    have txid : swap.l1Txid = old.l1Txid := congrArg Prod.snd same
    exact fit.save (txid ▸ fit swap.id old recorded)
  delete := by
    intro w swapId fit id found recorded
    rw [getSwapDelete] at recorded
    split at recorded
    · cases recorded
    · exact fit id found recorded

theorem connectFits (fit : KeysFit w) (ok : connectSwap lib height w f = .ok w') : KeysFit w' := by
  cases data : f.transaction.data with
  | swapCreate create =>
      simp only [connectSwap,data,bindOk,ensureOk,trySaveOk] at ok
      obtain ⟨_,_,fits,rfl⟩ := ok
      rw [locksEq]
      exact (keepsFit.congr fit rfl rfl rfl).save fits
  | _ => exact keepsFit.connect fit (by simp [data]) ok

theorem fromHexRpcFits {text : Text} {l1Txid : SwapTxId} (decoded : SwapTxId.fromHexRpc text = some l1Txid) :
    l1Txid.fitsKey = true := by
  simp only [SwapTxId.fromHexRpc,bind,Option.bind_eq_some_iff,Option.some.injEq] at decoded
  obtain ⟨_,_,_,_,_,_,rfl⟩ := decoded
  rfl

theorem scanFits (fit : KeysFit w) : KeysFit (processCoinshiftTransactions w height blockHash rpc) := by
  obtain ⟨expiredSwaps,same⟩ := @scanTables rpc blockHash height w
  rw [same]
  refine keepsFit.congr (@scanInvariant rpc blockHash height w (fun _ v => KeysFit v) fit ?_) rfl rfl rfl
  intro _ swap _ v v' _ recorded turn now
  cases turn with
  | kept => exact now
  | expired => exact keepsFit.cancelled now recorded swap.id
  | @seen _ after _ sees =>
      rcases sees.txid with ⟨_,decoded⟩ | ⟨_,same,_⟩
      · exact now.save (fromHexRpcFits decoded)
      · exact now.save (same ▸ now swap.id swap recorded)

theorem localOpFits {op : LocalOp} (fit : KeysFit w) (ok : op.apply w = .ok w') : KeysFit w' := by
  cases op with
  | updateSwapL1Txid id l1Txid confirmations l1Claimer l2Claimer blockHash blockHeight =>
      simp only [LocalOp.apply,updateSwapL1Txid,bindOk,okOrOk,ensureOk,ensureSomeOk,pureOk] at ok
      obtain ⟨swap,recorded,_,_,_,_,_,_,_,_,_,fits,rfl⟩ := ok
      generalize (w.swapsByL1Txid.delete _).put _ _ = index
      have moved : KeysFit { w with swapsByL1Txid := index } := fit
      cases l1Claimer <;> cases l2Claimer <;> exact moved.save fits
  | _ => exact keepsFit.localOp fit (by simp) ok

theorem runKeysFit (ok : run lib ctxt steps (State.new F) = .ok last) : KeysFit last.toSwapTables := by
  refine runInvariant (P := fun s => KeysFit s.toSwapTables) ?_ ?_ ok
  · intro s step t _ fit applied
    cases step with
    | connect header body =>
        obtain ⟨pre,source⟩ := connectBlockSource applied
        exact foldInvariant (P := KeysFit) (fun _ _ _ _ now connected => connectFits now connected) fit source.connected.swaps
    | disconnect header body =>
        exact foldInvariant (P := KeysFit) (fun _ _ _ _ now disconnected => keepsFit.disconnect now disconnected) fit
          (disconnectSource applied).swaps
    | connectPeg data rpc =>
        obtain ⟨height,blockHash,_,_,swaps⟩ := (connectPegSource applied).swaps
        rw [swaps]
        exact scanFits fit
    | disconnectPeg data =>
        obtain ⟨height,progress,source⟩ := pegDisconnectSource applied
        rw [source.swaps]
        exact keepsFit.restoreAll fit
    | restoreAccumulator accumulator =>
        cases applied
        exact fit
    | localOp op =>
        simp only [Step.apply,bindOk,pureOk] at applied
        obtain ⟨w,called,rfl⟩ := applied
        exact localOpFits fit called
  · intro swapId swap recorded
    cases Table.tryGetEmpty.symm.trans recorded

end Keys

section Run

/- Every creation of the run, when its turn comes, names no transaction that another swap holds. -/
def FreshTxids (lib : Externals F) (ctxt : BatchVerificationContext) (steps : List (Step F)) : Prop :=
  ∀ s header body t later pre front f back w, Takes lib ctxt steps s (.connect header body) t later →
    prevalidate lib s ctxt header body = .ok pre → pre.filledTransactions = front ++ f :: back →
    front.foldlM (connectSwap lib pre.nextHeight) s.toSwapTables = .ok w → FreshTxid w f.transaction

theorem runTxids (fresh : FreshTxids lib ctxt steps) (ok : run lib ctxt steps (State.new F) = .ok last) :
    TxidsIndexed last.toSwapTables := by
  refine takenInvariant (P := fun s => TxidsIndexed s.toSwapTables) ?_ ?_ ok
  · intro swapId swap recorded
    cases Table.tryGetEmpty.symm.trans recorded
  · intro s step t later takes indexed
    have applied := takes.applied
    cases step with
    | connect header body =>
        obtain ⟨pre,source⟩ := connectBlockSource applied
        refine foldHistory (P := fun _ w => TxidsIndexed w) indexed ?_ source.connected.swaps
        intro front f back w w' split reached connected now
        exact connectTxids now (fresh s header body t later pre front f back w takes source.accepted split reached) connected
    | disconnect header body =>
        refine foldInvariant (P := TxidsIndexed) ?_ indexed (disconnectSource applied).swaps
        intro w tx w' _ now disconnected
        exact keepsTxids.disconnect now disconnected
    | connectPeg data rpc =>
        obtain ⟨height,blockHash,_,_,swaps⟩ := (connectPegSource applied).swaps
        rw [swaps]
        exact scanTxids indexed
    | disconnectPeg data =>
        obtain ⟨height,progress,source⟩ := pegDisconnectSource applied
        rw [source.swaps]
        exact keepsTxids.restoreAll indexed
    | restoreAccumulator accumulator =>
        cases applied
        exact indexed
    | localOp op =>
        simp only [Step.apply,bindOk,pureOk] at applied
        obtain ⟨w,called,rfl⟩ := applied
        exact localOpTxids indexed called

theorem txidsHeldOnce (fresh : FreshTxids lib ctxt steps) (ok : run lib ctxt steps (State.new F) = .ok last) :
    TxidsHeldOnce last.toSwapTables := (runTxids fresh ok).heldOnce

end Run

section Payments

variable {rpc : RpcReplies} {blockHash : BlockHash} {height : Nat} {data : TwoWayPegData} {before after : Swap}
  {found : List (Text × TransactionInfo)} {m : Text × TransactionInfo}

def ReportsOwn (rpc : RpcReplies) (swap : Swap) (wanted : UInt32 → Prop) : Prop :=
  ∃ found m, rpc swap.id = some (.ok found) ∧ m ∈ found ∧ SwapTxId.fromHexRpc m.2.txid = some swap.l1Txid ∧
    wanted m.2.confirmations

/- A record that a scan has written rests on a payment of its own. -/
structure Backed (rpc : RpcReplies) (w : SwapTables) (swap : Swap) : Prop where
  waiting : ∀ current required, swap.state = .waitingConfirmations current required → ReportsOwn rpc swap (· = current)
  ready : swap.state = .readyToClaim → ReportsOwn rpc swap (swap.requiredConfirmations ≤ ·)
  alone : swap.l1Txid.isUnset = false → ∀ swapId other, swapId ≠ swap.id → w.getSwap swapId = some other →
    other.l1Pair ≠ swap.l1Pair

def PaymentsBacked (rpc : RpcReplies) (w w' : SwapTables) : Prop :=
  ∀ swapId before after, w.getSwap swapId = some before → w'.getSwap swapId = some after → after ≠ before →
    Backed rpc w' after

/- Where the reply counts further for a recorded transaction, the first acceptable payment in it has a count
that the reply also has for that transaction, or both are enough for a claim. -/
def CountsOwn (rpc : RpcReplies) (height : Nat) (w : SwapTables) : Prop :=
  ∀ swapId swap found m, w.getSwap swapId = some swap → swap.expiresAt height = false → CountsFurther rpc swap found m →
    ∃ own ∈ found, SwapTxId.fromHexRpc own.2.txid = some swap.l1Txid ∧
      (own.2.confirmations = m.2.confirmations ∨
        swap.requiredConfirmations ≤ own.2.confirmations ∧ swap.requiredConfirmations ≤ m.2.confirmations)

theorem waitingCount {current required : UInt32} {n r : UInt32}
    (waits : (before.withConfirmations n r).state = .waitingConfirmations current required) : current = n ∧ ¬ r ≤ n := by
  unfold Swap.withConfirmations at waits
  by_cases enough : r ≤ n
  · simp [enough] at waits
  · simp only [enough,if_false,SwapState.waitingConfirmations.injEq] at waits
    exact ⟨waits.1.symm,enough⟩

theorem readyCount {n r : UInt32} (ready : (before.withConfirmations n r).state = .readyToClaim) : r ≤ n := by
  unfold Swap.withConfirmations at ready
  by_cases enough : r ≤ n
  · exact enough
  · simp [enough] at ready

theorem seenBacked (indexed : TxidsIndexed w) (recorded : w.getSwap after.id = some after) (sees : SeesPayment rpc before m after)
    (own : before.l1Txid.isUnset = false → ∃ found, rpc before.id = some (.ok found) ∧ ∃ x ∈ found,
      SwapTxId.fromHexRpc x.2.txid = some before.l1Txid ∧ (x.2.confirmations = m.2.confirmations ∨
        before.requiredConfirmations ≤ x.2.confirmations ∧ before.requiredConfirmations ≤ m.2.confirmations)) :
    Backed rpc w after := by
  have reports : ∃ found, rpc after.id = some (.ok found) ∧ ∃ x ∈ found,
      SwapTxId.fromHexRpc x.2.txid = some after.l1Txid ∧ (x.2.confirmations = m.2.confirmations ∨
        before.requiredConfirmations ≤ x.2.confirmations ∧ before.requiredConfirmations ≤ m.2.confirmations) := by
    rw [sees.sameId]
    rcases sees.txid with ⟨_,decoded⟩ | ⟨isSet,same,_⟩
    · obtain ⟨found,reply,first⟩ := sees.reply
      exact ⟨found,reply,m,(firstAcceptableSource first).1,decoded,.inl rfl⟩
    · rw [same]
      exact own isSet
  obtain ⟨found,reply,x,mem,decoded,counts⟩ := reports
  refine ⟨?_,?_,?_⟩
  · intro current required waits
    rw [sees.state] at waits
    obtain ⟨isCount,few⟩ := waitingCount waits
    rcases counts with same | ⟨_,enough⟩
    · exact ⟨found,x,reply,mem,decoded,same.trans isCount.symm⟩
    · exact absurd enough few
  · intro ready
    rw [sees.state] at ready
    refine ⟨found,x,reply,mem,decoded,?_⟩
    rw [sees.required]
    rcases counts with same | ⟨enough,_⟩
    · rw [same]
      exact readyCount ready
    · exact enough
  · intro isSet swapId other different isOther same
    exact different (indexed.once recorded isOther isSet same.symm).symm

theorem scanBackedIff (indexed : TxidsIndexed w) :
    PaymentsBacked rpc w (processCoinshiftTransactions w height blockHash rpc) ↔ CountsOwn rpc height w := by
  constructor
  · intro backed swapId swap found m recorded remains counts
    have own : swap.id = swapId := getSwapId recorded
    have record := @scanRecords rpc blockHash height w swapId
    rw [recorded] at record
    generalize isAfter : (processCoinshiftTransactions w height blockHash rpc).getSwap swapId = now at record
    cases record with
    | @some _ after related =>
        cases related with
        | kept _ idle => exact absurd counts (idle found m)
        | expired expires =>
            rw [remains] at expires
            cases expires
        | @seen m' _ _ sees =>
            obtain ⟨found',reply,first⟩ := sees.reply
            cases counts.reply.symm.trans reply
            cases counts.first.symm.trans first
            have larger : after ≠ swap := by
              intro same
              have state := sees.state
              rw [same] at state
              have further := counts.further
              have awaits := counts.awaiting
              unfold Swap.isAwaiting at awaits
              rw [state] at further awaits
              by_cases enough : swap.requiredConfirmations ≤ m.2.confirmations
              · simp [Swap.withConfirmations,enough] at awaits
              · simp [Swap.withConfirmations,enough,SwapState.current] at further
            have rests := backed swapId swap after recorded isAfter larger
            have txid : after.l1Txid = swap.l1Txid := by
              rcases sees.txid with ⟨unset,_⟩ | ⟨_,same,_⟩
              · rw [counts.isSet] at unset
                cases unset
              · exact same
            by_cases enough : swap.requiredConfirmations ≤ m.2.confirmations
            · have ready : after.state = .readyToClaim := by simp [sees.state,Swap.withConfirmations,enough]
              obtain ⟨found'',x,isReply,mem,decoded,wanted⟩ := rests.ready ready
              rw [sees.sameId] at isReply
              cases counts.reply.symm.trans isReply
              rw [sees.required] at wanted
              exact ⟨x,mem,txid ▸ decoded,.inr ⟨wanted,enough⟩⟩
            · have waits : after.state = .waitingConfirmations m.2.confirmations swap.requiredConfirmations := by
                simp [sees.state,Swap.withConfirmations,enough]
              obtain ⟨found'',x,isReply,mem,decoded,wanted⟩ := rests.waiting _ _ waits
              rw [sees.sameId] at isReply
              cases counts.reply.symm.trans isReply
              exact ⟨x,mem,txid ▸ decoded,.inl wanted⟩
  · intro counts swapId before after isBefore isAfter changed
    have record := @scanRecords rpc blockHash height w swapId
    rw [isBefore,isAfter] at record
    cases record with
    | some related =>
        cases related with
        | kept => exact absurd rfl changed
        | expired =>
            refine ⟨fun _ _ isState => ?_,fun isState => ?_,fun isSet id other different isOther same => different ?_⟩
            · cases isState
            · cases isState
            · have own : before.id = swapId := getSwapId isBefore
              exact (own.trans ((scanTxids indexed).once isAfter isOther isSet same.symm)).symm
        | @seen m _ remains sees =>
            have own : after.id = swapId := getSwapId isAfter
            refine seenBacked (scanTxids indexed) (own ▸ isAfter) sees (fun isSet => ?_)
            obtain ⟨found,reply,first⟩ := sees.reply
            rcases sees.txid with ⟨unset,_⟩ | ⟨_,_,further,readable⟩
            · rw [isSet] at unset
              cases unset
            · exact ⟨found,reply,counts swapId before found m isBefore remains
                ⟨sees.awaiting,isSet,reply,first,readable,further⟩⟩

/- Every scan of a run, whatever the replies before it were. -/
theorem paymentsBackedIff (fresh : FreshTxids lib ctxt steps) (ok : run lib ctxt steps (State.new F) = .ok s)
    (atHeight : s.height = some height) (scanned : connectTwoWayPegData lib s data rpc = .ok t) :
    PaymentsBacked rpc s.toSwapTables t.toSwapTables ↔ CountsOwn rpc height s.toSwapTables := by
  obtain ⟨height',blockHash,isHeight,_,swaps⟩ := (connectPegSource scanned).swaps
  cases atHeight.symm.trans isHeight
  rw [swaps]
  exact scanBackedIff (runTxids fresh ok)

end Payments

section Reached
open Reference

def paidBytes : List Byte := List.replicate 32 1

def createPaid : Transaction :=
  transaction [deposited 1 (coin alice 1000)] [namedEscrow,coin alice 100]
    (.swapCreate { namedCreate with l1TxidBytes := paidBytes })

def bobSwapId : SwapId := SwapId.fromL2ToL1 externals ['y'] ⟨7⟩ (addressOf bob) none

def createAlsoPaid : Transaction :=
  transaction [deposited 2 (coin bob 500)] [⟨addressOf bob,.swapPending ⟨400⟩ bobSwapId⟩,coin bob 100]
    (.swapCreate ⟨bobSwapId,.regtest,paidBytes,1,none,400,['y'],7⟩)

def holdsTwice (w : SwapTables) : Bool :=
  (w.getSwap namedId).any (fun swap => (w.getSwap bobSwapId).any (fun other =>
    !swap.l1Txid.isUnset && swap.l1Pair = other.l1Pair && namedId ≠ bobSwapId))

theorem txidHeldTwice : ∃ (steps : List (Step Forest)) (last : State Forest),
    run externals context steps (State.new Forest) = .ok last ∧ ¬ TxidsHeldOnce last.toSwapTables := by
  have played : plays (funded ++ [grow [(createPaid,[alice])],grow [(createAlsoPaid,[bob])]])
      (fun _ s => holdsTwice s.toSwapTables) = true := by decide +kernel
  obtain ⟨steps,last,ran,twice⟩ := playsRun played
  refine ⟨steps,last,ran,fun held => ?_⟩
  obtain ⟨swap,isSwap,twice⟩ := (Option.any_eq_true _ _).mp twice
  obtain ⟨other,isOther,twice⟩ := (Option.any_eq_true _ _).mp twice
  simp only [Bool.and_eq_true,Bool.not_eq_true',decide_eq_true_eq] at twice
  exact twice.2 (held.once namedId bobSwapId swap other isSwap isOther twice.1.1 twice.1.2)

def txidFresh (w : SwapTables) (f : FilledTransaction) : Bool :=
  match f.transaction.data with
  | .swapCreate create => (SwapTxId.fromBytes create.l1TxidBytes).isUnset || w.loadAllSwaps.all (fun swap =>
      swap.id = create.swapId || swap.l1Pair ≠ (create.parentChain,SwapTxId.fromBytes create.l1TxidBytes))
  | _ => true

def createsFresh (s : State Forest) : Step Forest → Bool
  | .connect header body =>
      match prevalidate externals s context header body with
      | .ok pre => every (connectSwap externals pre.nextHeight) txidFresh pre.filledTransactions s.toSwapTables
      | .error _ => true
  | _ => true

theorem freshTxidsChecked {steps : List (Step Forest)} (passes : everyStep createsFresh steps (State.new Forest) = true) :
    FreshTxids externals context steps := by
  intro s header body t later pre front f back w takes accepted split reached create isCreate isSet swapId swap different recorded
  have passed := everyStepTakes passes takes
  simp only [createsFresh,accepted,split] at passed
  have isFresh : txidFresh w f = true := everyTaken passed reached
  simp only [txidFresh,isCreate,isSet,Bool.false_or,List.all_eq_true] at isFresh
  have own : swap.id = swapId := getSwapId recorded
  have notHeld := isFresh swap (memLoadAllSwaps.mpr (own ▸ recorded))
  simpa [own,different] using notHeld

theorem singleTxidHeld : ∃ (steps : List (Step Forest)) (last : State Forest),
    run externals context steps (State.new Forest) = .ok last ∧ (last.getSwap namedId).isSome = true ∧
    TxidsHeldOnce last.toSwapTables := by
  have played : plays (funded ++ [grow [(createPaid,[alice])]]) (fun steps s =>
      everyStep createsFresh steps (State.new Forest) && (s.getSwap namedId).isSome) = true := by decide +kernel
  obtain ⟨steps,last,ran,checked⟩ := playsRun played
  obtain ⟨fresh,recorded⟩ := Bool.and_eq_true_iff.mp checked
  exact ⟨steps,last,ran,recorded,txidsHeldOnce (freshTxidsChecked fresh) ran⟩

def strangerPaid : RpcReplies := fun _ => some (.ok [(['s'],⟨List.replicate 64 '2',1,some 5⟩)])

/- The scan of the last block makes the swap claimable, though its reply does not know the swap's transaction. -/
def readyUnpaid (s : State Forest) : Bool :=
  match connectTwoWayPegData externals s (pegData []) strangerPaid with
  | .ok t => (s.getSwap namedId).any (fun before => (t.getSwap namedId).any (fun after =>
      after ≠ before && after.state = .readyToClaim && SwapTxId.fromHexRpc (List.replicate 64 '2') ≠ some after.l1Txid))
  | .error _ => false

theorem strangerMakesReady : ∃ (steps : List (Step Forest)) (s t : State Forest) (rpc : RpcReplies),
    FreshTxids externals context steps ∧ run externals context steps (State.new Forest) = .ok s ∧
    connectTwoWayPegData externals s (pegData []) rpc = .ok t ∧ ¬ PaymentsBacked rpc s.toSwapTables t.toSwapTables := by
  have played : plays (funded ++ [grow [(createPaid,[alice])]]) (fun steps s =>
      everyStep createsFresh steps (State.new Forest) && readyUnpaid s) = true := by decide +kernel
  obtain ⟨steps,s,ran,checked⟩ := playsRun played
  obtain ⟨fresh,misread⟩ := Bool.and_eq_true_iff.mp checked
  unfold readyUnpaid at misread
  split at misread
  · next t scanned =>
      refine ⟨steps,s,t,strangerPaid,freshTxidsChecked fresh,ran,scanned,fun backed => ?_⟩
      obtain ⟨before,isBefore,misread⟩ := (Option.any_eq_true _ _).mp misread
      obtain ⟨after,isAfter,misread⟩ := (Option.any_eq_true _ _).mp misread
      simp only [Bool.and_eq_true,decide_eq_true_eq,ne_eq] at misread
      obtain ⟨found,m,reply,mem,decoded,_⟩ := (backed namedId before after isBefore isAfter misread.1.1).ready misread.1.2
      cases reply
      cases List.mem_singleton.mp mem
      exact misread.2 decoded
  · cases misread

def ownPaid : RpcReplies := fun _ => some (.ok [(['s'],⟨(List.replicate 32 ['0','1']).flatten,1,some 5⟩)])

def countsOwnCheck (s : State Forest) : Bool :=
  s.loadAllSwaps.all (fun swap => SwapTxId.fromHexRpc (List.replicate 32 ['0','1']).flatten = some swap.l1Txid)

theorem ownMakesReady : ∃ (steps : List (Step Forest)) (s t : State Forest) (rpc : RpcReplies),
    run externals context steps (State.new Forest) = .ok s ∧
    connectTwoWayPegData externals s (pegData []) rpc = .ok t ∧ (t.getSwap namedId).map (·.state) = some .readyToClaim ∧
    PaymentsBacked rpc s.toSwapTables t.toSwapTables := by
  have played : plays (funded ++ [grow [(createPaid,[alice])]]) (fun steps s =>
      (everyStep createsFresh steps (State.new Forest) && countsOwnCheck s && s.height = some 2) &&
        match connectTwoWayPegData externals s (pegData []) ownPaid with
        | .ok t => (t.getSwap namedId).map (·.state) = some .readyToClaim
        | .error _ => false) = true := by decide +kernel
  obtain ⟨steps,s,ran,checked⟩ := playsRun played
  obtain ⟨checked,becomes⟩ := Bool.and_eq_true_iff.mp checked
  simp only [Bool.and_eq_true,decide_eq_true_eq] at checked
  obtain ⟨⟨fresh,counts⟩,atHeight⟩ := checked
  split at becomes
  · next t scanned =>
      refine ⟨steps,s,t,ownPaid,ran,scanned,of_decide_eq_true becomes,?_⟩
      refine (paymentsBackedIff (freshTxidsChecked fresh) ran atHeight scanned).mpr ?_
      intro swapId swap found m recorded remains further
      have own : swap.id = swapId := getSwapId recorded
      have named := List.all_eq_true.mp counts swap (memLoadAllSwaps.mpr (own ▸ recorded))
      cases further.reply
      have mem := (firstAcceptableSource further.first).1
      cases List.mem_singleton.mp mem
      exact ⟨_,mem,of_decide_eq_true named,.inl rfl⟩
  · cases becomes

end Reached

end Coinshift
