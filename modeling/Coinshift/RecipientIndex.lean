import Coinshift.IndexWriters
import Coinshift.PegOps
import Coinshift.Reference

/-! The swaps listed for each recipient.
A list is made longer by every record saved with its recipient and shorter only when a record that has the
recipient is deleted. A second creation of one swap in a block may save it without the recipient. -/
namespace Coinshift
open Checked SwapTables

variable {F : Type} {lib : Externals F} {ctxt : BatchVerificationContext} {s t last : State F} {steps : List (Step F)}
  {w w' : SwapTables} {swap old : Swap} {swapId id : SwapId} {a : Address}

def SwapTables.swapsFor (w : SwapTables) (a : Address) : List SwapId := (w.swapsByRecipient.tryGet a).getD []

def SwapTables.recipientOf (w : SwapTables) (swapId : SwapId) : Option Address := (w.getSwap swapId).bind (·.l2Recipient)

structure RecipientsExact (w : SwapTables) : Prop where
  listed : ∀ a swapId, (w.swapsFor a).count swapId = if w.recipientOf swapId = some a then 1 else 0
  filled : ∀ a, w.swapsByRecipient.tryGet a ≠ some []

structure RecipientsListed (w : SwapTables) : Prop where
  distinct : ∀ a, (w.swapsFor a).Nodup
  filled : ∀ a, w.swapsByRecipient.tryGet a ≠ some []
  covered : ∀ a swapId, w.recipientOf swapId = some a → swapId ∈ w.swapsFor a

theorem exactIff : RecipientsExact w ↔ RecipientsListed w ∧ ∀ a swapId, swapId ∈ w.swapsFor a → w.recipientOf swapId = some a := by
  constructor
  · intro exact
    refine ⟨⟨fun a => ?_,exact.filled,fun a swapId recipient => ?_⟩,fun a swapId mem => ?_⟩
    · refine List.nodup_iff_count_le_one.mpr (fun swapId => ?_)
      rw [exact.listed]
      split <;> decide
    · have once := exact.listed a swapId
      rw [if_pos recipient] at once
      exact List.count_pos_iff.mp (once ▸ Nat.one_pos)
    · have once := exact.listed a swapId
      by_contra other
      rw [if_neg other] at once
      exact List.count_eq_zero.mp once mem
  · intro ⟨isListed,owned⟩
    refine ⟨fun a swapId => ?_,isListed.filled⟩
    split
    · next recipient => exact List.count_eq_one_of_mem (isListed.distinct a) (isListed.covered a swapId recipient)
    · next other => exact List.count_eq_zero.mpr (fun mem => other (owned a swapId mem))

section Writers

theorem recipientSave : (w.saveSwap swap).recipientOf id = if id = swap.id then swap.l2Recipient else w.recipientOf id := by
  unfold recipientOf
  rw [getSwapSave]
  split <;> rfl

theorem tryGetSave : (w.saveSwap swap).swapsByRecipient.tryGet a =
    if swap.l2Recipient = some a ∧ swap.id ∉ w.swapsFor a then some (w.swapsFor a ++ [swap.id])
    else w.swapsByRecipient.tryGet a := by
  show (w.indexRecipient swap).tryGet a = _
  unfold indexRecipient
  cases isFor : swap.l2Recipient with
  | none => simp
  | some recipient =>
      show Table.tryGet (if swap.id ∈ w.swapsFor recipient then _ else _) a = _
      by_cases here : a = recipient
      · subst here
        by_cases listed : swap.id ∈ w.swapsFor a
        · simp [listed]
        · rw [if_neg listed,if_pos ⟨rfl,listed⟩,Table.tryGetPutSelf]
          rfl
      · have other : ¬ (some recipient = some a ∧ swap.id ∉ w.swapsFor a) := fun both => here (Option.some.inj both.1).symm
        rw [if_neg other]
        split
        · rfl
        · exact Table.tryGetPutOther here

theorem memSave : id ∈ (w.saveSwap swap).swapsFor a ↔ id ∈ w.swapsFor a ∨ id = swap.id ∧ swap.l2Recipient = some a := by
  unfold swapsFor
  rw [tryGetSave]
  split
  · next new => simp [swapsFor,new.1]
  · next same =>
      refine ⟨.inl,?_⟩
      rintro (mem | ⟨rfl,isFor⟩)
      · exact mem
      · exact not_not.mp (fun missing => same ⟨isFor,missing⟩)

theorem tryGetUnindex : (w.unindexRecipient swap).tryGet a =
    if swap.l2Recipient = some a then
      (w.swapsByRecipient.tryGet a).bind (fun listed =>
        if (listed.filter (· ≠ swap.id)).isEmpty then none else some (listed.filter (· ≠ swap.id)))
    else w.swapsByRecipient.tryGet a := by
  unfold unindexRecipient
  cases isFor : swap.l2Recipient with
  | none => simp
  | some recipient =>
      dsimp only
      by_cases here : a = recipient
      · subst here
        rw [if_pos rfl]
        cases found : w.swapsByRecipient.tryGet a with
        | none => exact found
        | some listed =>
            rw [Option.bind_some]
            dsimp only
            split
            · exact Table.tryGetDeleteSelf
            · exact Table.tryGetPutSelf
      · rw [if_neg (fun same => here (Option.some.inj same).symm)]
        split
        · rfl
        · split
          · exact Table.tryGetDeleteOther here
          · exact Table.tryGetPutOther here

theorem recipientDelete : (w.deleteSwapUnchecked swapId).recipientOf id = if id = swapId then none else w.recipientOf id := by
  unfold recipientOf
  rw [getSwapDelete]
  split <;> rfl

theorem swapsForDelete : (w.deleteSwapUnchecked swapId).swapsFor a =
    if w.recipientOf swapId = some a then (w.swapsFor a).filter (· ≠ swapId) else w.swapsFor a := by
  unfold deleteSwapUnchecked recipientOf
  cases recorded : w.getSwap swapId with
  | none =>
      rw [unlockAllOutputsForSwap,unlocksEq]
      rfl
  | some swap =>
      have own : swap.id = swapId := getSwapId recorded
      show ((w.unindexRecipient swap).tryGet a).getD [] = _
      rw [tryGetUnindex,own,Option.bind_some]
      split
      · unfold swapsFor
        cases w.swapsByRecipient.tryGet a with
        | none => rfl
        | some listed =>
            rw [Option.bind_some]
            split
            · next gone => exact (List.isEmpty_iff.mp gone).symm
            · rfl
      · rfl

theorem RecipientsListed.congr (isListed : RecipientsListed w) (records : w'.getSwap = w.getSwap)
    (index : w'.swapsByRecipient = w.swapsByRecipient) : RecipientsListed w' := by
  have lists : w'.swapsFor = w.swapsFor := by
    funext a
    rw [swapsFor,index]
    rfl
  have recipients : w'.recipientOf = w.recipientOf := by
    funext swapId
    rw [recipientOf,records]
    rfl
  refine ⟨fun a => lists ▸ isListed.distinct a,fun a => index ▸ isListed.filled a,?_⟩
  rw [lists,recipients]
  exact isListed.covered

theorem RecipientsListed.save (isListed : RecipientsListed w) (swap : Swap) : RecipientsListed (w.saveSwap swap) := by
  refine ⟨fun a => ?_,fun a => ?_,fun a id recipient => ?_⟩
  · unfold swapsFor
    rw [tryGetSave]
    split
    · next new => exact List.nodup_append.mpr ⟨isListed.distinct a,List.nodup_singleton _,fun id mem other single same =>
        new.2 (List.mem_singleton.mp single ▸ same ▸ mem)⟩
    · exact isListed.distinct a
  · rw [tryGetSave]
    split
    · simp
    · exact isListed.filled a
  · rw [memSave]
    rw [recipientSave] at recipient
    split at recipient
    · next here => exact .inr ⟨here,recipient⟩
    · exact .inl (isListed.covered a id recipient)

theorem RecipientsListed.delete (isListed : RecipientsListed w) : RecipientsListed (w.deleteSwapUnchecked swapId) := by
  refine ⟨fun a => ?_,fun a => ?_,fun a id recipient => ?_⟩
  · rw [swapsForDelete]
    split
    · exact (isListed.distinct a).filter _
    · exact isListed.distinct a
  · unfold deleteSwapUnchecked
    split
    · next swap recorded =>
        show (w.unindexRecipient swap).tryGet a ≠ some []
        rw [tryGetUnindex]
        split
        · intro empty
          obtain ⟨listed,_,kept⟩ := Option.bind_eq_some_iff.mp empty
          split at kept
          · cases kept
          · next more =>
              rw [Option.some.inj kept] at more
              exact more rfl
        · exact isListed.filled a
    · rw [unlockAllOutputsForSwap,unlocksEq]
      exact isListed.filled a
  · rw [recipientDelete] at recipient
    split at recipient
    · cases recipient
    · next different =>
        rw [swapsForDelete]
        split
        · exact List.mem_filter.mpr ⟨isListed.covered a id recipient,decide_eq_true different⟩
        · exact isListed.covered a id recipient

theorem memResave (isListed : RecipientsListed w) (recorded : w.getSwap swap.id = some old)
    (same : swap.l2Recipient = old.l2Recipient) : id ∈ (w.saveSwap swap).swapsFor a ↔ id ∈ w.swapsFor a := by
  rw [memSave]
  refine or_iff_left_of_imp ?_
  rintro ⟨rfl,isFor⟩
  refine isListed.covered a swap.id ?_
  rw [recipientOf,recorded,Option.bind_some,← same,isFor]

theorem RecipientsExact.congr (exact : RecipientsExact w) (records : w'.getSwap = w.getSwap)
    (index : w'.swapsByRecipient = w.swapsByRecipient) : RecipientsExact w' := by
  obtain ⟨isListed,owned⟩ := exactIff.mp exact
  refine exactIff.mpr ⟨isListed.congr records index,fun a id mem => ?_⟩
  unfold swapsFor at mem
  rw [index] at mem
  rw [recipientOf,records]
  exact owned a id mem

theorem RecipientsExact.resave (exact : RecipientsExact w) (swap : Swap) (recorded : w.getSwap swap.id = some old)
    (same : swap.l2Recipient = old.l2Recipient) : RecipientsExact (w.saveSwap swap) := by
  obtain ⟨isListed,owned⟩ := exactIff.mp exact
  refine exactIff.mpr ⟨isListed.save swap,fun a id mem => ?_⟩
  have recipient := owned a id ((memResave isListed recorded same).mp mem)
  rw [recipientSave]
  split
  · next here => rwa [recipientOf,here,recorded,Option.bind_some,← same] at recipient
  · exact recipient

theorem RecipientsExact.delete (exact : RecipientsExact w) : RecipientsExact (w.deleteSwapUnchecked swapId) := by
  obtain ⟨isListed,owned⟩ := exactIff.mp exact
  refine exactIff.mpr ⟨isListed.delete,fun a id mem => ?_⟩
  rw [swapsForDelete] at mem
  rw [recipientDelete]
  split at mem
  · obtain ⟨listed,different⟩ := List.mem_filter.mp mem
    rw [if_neg (of_decide_eq_true different)]
    exact owned a id listed
  · next other =>
      have isFor := owned a id mem
      rw [if_neg]
      · exact isFor
      · intro here
        subst here
        exact other isFor

theorem keepsExact : KeptByWriters RecipientsExact :=
  ⟨fun exact records _ index => exact.congr records index,fun swap exact recorded _ same => exact.resave swap recorded same,
    RecipientsExact.delete⟩

end Writers

section Blocks

variable {height : Nat} {f : FilledTransaction} {filled : List FilledTransaction} {tx : Transaction} {txs : List Transaction}

def recipientsOf (swapId : SwapId) (txs : List Transaction) : List (Option Address) := (createsOf swapId txs).map (·.2)

/- The last creation of a swap in a block names every recipient that one of them names. -/
def KeepsRecipients (txs : List Transaction) : Prop :=
  ∀ swapId recipient, some recipient ∈ recipientsOf swapId txs → (recipientsOf swapId txs).getLast? = some (some recipient)

theorem recipientsAppend {before : List Transaction} :
    recipientsOf id (before ++ txs) = recipientsOf id before ++ recipientsOf id txs := by
  rw [recipientsOf,createsOf,List.filterMap_append,List.map_append]
  rfl

theorem recipientsSingle : some a ∈ recipientsOf id [tx] ↔ ∃ create, tx.createOf id = some create ∧ create.l2Recipient = some a := by
  unfold recipientsOf createsOf
  cases made : tx.createOf id with
  | none => simp [made]
  | some create => simp [made,SwapCreate.route,eq_comm]

theorem connectRecipients (isListed : RecipientsListed w) (ok : connectSwap lib height w f = .ok w') : RecipientsListed w' ∧
    ∀ a id, id ∈ w'.swapsFor a ↔ id ∈ w.swapsFor a ∨ some a ∈ recipientsOf id [f.transaction] := by
  simp only [recipientsSingle]
  unfold connectSwap at ok
  unfold Transaction.createOf
  cases data : f.transaction.data with
  | regular =>
      simp only [data,pureOk] at ok
      subst ok
      exact ⟨isListed,by simp⟩
  | swapAccept accepted claimer =>
      simp only [data,pureOk] at ok
      subst ok
      exact ⟨isListed.congr rfl rfl,fun a id => by simp; rfl⟩
  | swapCreate create =>
      simp only [data,bindOk,ensureOk,trySaveOk] at ok
      obtain ⟨_,_,_,rfl⟩ := ok
      rw [locksEq]
      generalize (f.transaction.escrowOutpoints lib create.swapId).foldl _ w.lockedSwapOutputs = locks
      have locked : RecipientsListed { w with lockedSwapOutputs := locks } := isListed.congr rfl rfl
      refine ⟨locked.save _,fun a id => memSave.trans (or_congr Iff.rfl ?_)⟩
      show id = create.swapId ∧ create.l2Recipient = some a ↔ _
      by_cases here : create.swapId = id
      · simp [here]
      · simp [here,Ne.symm here]
  | swapClaim claimed claimer proof =>
      simp only [data,bindOk,okOrOk,ensureOk,pureOk] at ok
      obtain ⟨swap,recorded,_,_,rfl⟩ := ok
      have own : swap.id = claimed := getSwapId recorded
      obtain ⟨locks,unlocked⟩ := @unlockIfEq (w.advanceToReady swap) claimed (f.transaction.inputs.map (·.1))
      have advanced : RecipientsListed (w.advanceToReady swap) ∧
          (∀ a id, id ∈ (w.advanceToReady swap).swapsFor a ↔ id ∈ w.swapsFor a) ∧
          ∃ before, (w.advanceToReady swap).getSwap swap.id = some before ∧ before.l2Recipient = swap.l2Recipient := by
        unfold advanceToReady
        split
        · exact ⟨isListed,fun _ _ => Iff.rfl,swap,own ▸ recorded,rfl⟩
        · refine ⟨isListed.save _,fun a id => ?_,{ swap with state := .readyToClaim },?_,rfl⟩
          · exact memResave isListed (show w.getSwap swap.id = some swap from own ▸ recorded) rfl
          · rw [getSwapSave]
            exact if_pos rfl
      obtain ⟨isAdvanced,lists,before,found,same⟩ := advanced
      rw [unlocked]
      have moved : RecipientsListed { w.advanceToReady swap with lockedSwapOutputs := locks } := isAdvanced.congr rfl rfl
      refine ⟨moved.save _,fun a id => (memResave moved found same.symm).trans ?_⟩
      refine (lists a id).trans ?_
      simp

theorem connectAllRecipients (isListed : RecipientsListed w) (ok : filled.foldlM (connectSwap lib height) w = .ok w') :
    RecipientsListed w' ∧
    ∀ a id, id ∈ w'.swapsFor a ↔ id ∈ w.swapsFor a ∨ some a ∈ recipientsOf id (filled.map (·.transaction)) := by
  refine foldHistory (P := fun front v => RecipientsListed v ∧
    ∀ a id, id ∈ v.swapsFor a ↔ id ∈ w.swapsFor a ∨ some a ∈ recipientsOf id (front.map (·.transaction))) ?_ ?_ ok
  · exact ⟨isListed,fun a id => by simp [recipientsOf,createsOf]⟩
  · intro front f back v v' _ _ connected earlier
    obtain ⟨now,lists⟩ := earlier
    obtain ⟨after,more⟩ := connectRecipients now connected
    refine ⟨after,fun a id => ?_⟩
    rw [more,lists,List.map_append,List.map_singleton,recipientsAppend,List.mem_append,or_assoc]

theorem recipientRoute : w.recipientOf id = ((w.getSwap id).map Swap.route).bind (·.2) := by
  unfold recipientOf
  cases w.getSwap id <;> rfl

theorem blockExactIff {header : Header} {body : Body} {pre : PrevalidatedBlock}
    (source : ConnectBlockSource lib ctxt s header body pre t) (exact : RecipientsExact s.toSwapTables) :
    RecipientsExact t.toSwapTables ↔ KeepsRecipients body.transactions := by
  obtain ⟨isListed,owned⟩ := exactIff.mp exact
  obtain ⟨after,lists⟩ := connectAllRecipients isListed source.connected.swaps
  have records := (connectSwapsEffect source.connected.swaps).2.2.1
  have routes (id : SwapId) : (t.getSwap id).map Swap.route =
      (createsOf id body.transactions).getLast?.or ((s.getSwap id).map Swap.route) := by
    rw [records,routesAfterCreates,filledTransactions source.validated.transactions]
  rw [filledTransactions source.validated.transactions] at lists
  have lastOf {id : SwapId} {recipient : Option Address} (mem : recipient ∈ recipientsOf id body.transactions) :
      (recipientsOf id body.transactions).getLast? = some (t.recipientOf id) := by
    obtain ⟨last,isLast⟩ : ∃ last, (createsOf id body.transactions).getLast? = some last := by
      refine Option.isSome_iff_exists.mp (List.getLast?_isSome.mpr (fun empty => ?_))
      simp [recipientsOf,empty] at mem
    rw [recipientRoute,routes,recipientsOf,List.getLast?_map,isLast]
    rfl
  constructor
  · intro exactAfter id a mem
    rw [lastOf mem]
    exact congrArg some ((exactIff.mp exactAfter).2 a id ((lists a id).mpr (.inr mem)))
  · intro keeps
    refine exactIff.mpr ⟨after,fun a id mem => ?_⟩
    rcases (lists a id).mp mem with before | created
    · have isFor := owned a id before
      obtain ⟨swap,recorded,_⟩ := Option.bind_eq_some_iff.mp isFor
      have none : createsOf id body.transactions = [] := by
        refine List.filterMap_eq_nil_iff.mpr (fun tx mem => ?_)
        rw [← filledTransactions source.validated.transactions] at mem
        obtain ⟨f,inside,rfl⟩ := List.mem_map.mp mem
        cases made : f.transaction.createOf id with
        | none => rfl
        | some create =>
            obtain ⟨data,own⟩ := createOfSome made
            cases (source.fresh inside data).symm.trans (own ▸ recorded)
      rw [recipientRoute,routes,none,← isFor,recipientRoute]
      rfl
    · exact Option.some.inj ((lastOf created).symm.trans (keeps id a created))

end Blocks

section Scans

variable {rpc : RpcReplies} {blockHash : BlockHash} {height : Nat}

theorem scanExact (exact : RecipientsExact w) : RecipientsExact (processCoinshiftTransactions w height blockHash rpc) := by
  obtain ⟨expiredSwaps,same⟩ := @scanTables rpc blockHash height w
  rw [same]
  have scanned := @scanInvariant rpc blockHash height w (fun _ v => RecipientsExact v) exact ?_
  · exact scanned.congr rfl rfl
  intro _ swap _ v v' _ recorded turn now
  cases turn with
  | kept => exact now
  | expired => exact keepsExact.cancelled now recorded swap.id
  | @seen _ after _ sees =>
      exact now.resave after (sees.sameId.symm ▸ recorded) (congrArg SwapTerms.l2Recipient sees.terms)

end Scans

theorem localOpExact {op : LocalOp} (exact : RecipientsExact w) (ok : op.apply w = .ok w') : RecipientsExact w' := by
  cases op with
  | updateSwapL1Txid id l1Txid confirmations l1Claimer l2Claimer blockHash blockHeight =>
      simp only [LocalOp.apply,updateSwapL1Txid,bindOk,okOrOk,ensureOk,ensureSomeOk,pureOk] at ok
      obtain ⟨swap,recorded,_,_,_,_,_,_,_,_,_,_,rfl⟩ := ok
      have own : swap.id = id := getSwapId recorded
      generalize (w.swapsByL1Txid.delete _).put _ _ = index
      have moved : RecipientsExact { w with swapsByL1Txid := index } := exact.congr rfl rfl
      cases l1Claimer <;> cases l2Claimer <;>
        exact moved.resave _ (show w.getSwap swap.id = some swap from own ▸ recorded) rfl
  | _ => exact keepsExact.localOp exact (by simp) ok

section Run

theorem newExact : RecipientsExact (State.new F).toSwapTables :=
  ⟨fun a swapId => by simp [swapsFor,recipientOf,getSwap,State.new,SwapRecords.empty],fun a empty => by cases Table.tryGetEmpty.symm.trans empty⟩

theorem stepExact {step : Step F} (exact : RecipientsExact s.toSwapTables)
    (others : ∀ header body, step ≠ .connect header body) (applied : step.apply lib ctxt s = .ok t) :
    RecipientsExact t.toSwapTables := by
  cases step with
  | connect header body => exact absurd rfl (others header body)
  | disconnect header body =>
      refine foldInvariant (P := RecipientsExact) ?_ exact (disconnectSource applied).swaps
      intro w tx w' _ now disconnected
      exact keepsExact.disconnect now disconnected
  | connectPeg data rpc =>
      obtain ⟨height,blockHash,_,_,swaps⟩ := (connectPegSource applied).swaps
      rw [swaps]
      exact scanExact exact
  | disconnectPeg data =>
      obtain ⟨height,progress,source⟩ := pegDisconnectSource applied
      rw [source.swaps]
      exact keepsExact.restoreAll exact
  | restoreAccumulator accumulator =>
      cases applied
      exact exact
  | localOp op =>
      simp only [Step.apply,bindOk,pureOk] at applied
      obtain ⟨w,called,rfl⟩ := applied
      exact localOpExact exact called

theorem runExact (keeps : ∀ header body, .connect header body ∈ steps → KeepsRecipients body.transactions)
    (ok : run lib ctxt steps (State.new F) = .ok last) : RecipientsExact last.toSwapTables := by
  refine takenInvariant (P := fun s => RecipientsExact s.toSwapTables) newExact ?_ ok
  intro s step t later takes exact
  cases step with
  | connect header body =>
      obtain ⟨pre,source⟩ := connectBlockSource takes.applied
      exact (blockExactIff source exact).mpr (keeps header body takes.mem)
  | _ => exact stepExact exact (by simp) takes.applied

theorem recipientsExactIff (ok : run lib ctxt steps (State.new F) = .ok last) :
    (∀ earlier later s, steps = earlier ++ later → run lib ctxt earlier (State.new F) = .ok s →
      RecipientsExact s.toSwapTables) ↔
    ∀ header body, .connect header body ∈ steps → KeepsRecipients body.transactions := by
  constructor
  · intro exact header body mem
    obtain ⟨s,t,later,⟨earlier,split,reached⟩,applied⟩ := takesOfMem ok mem
    obtain ⟨pre,source⟩ := connectBlockSource applied
    refine (blockExactIff source (exact earlier _ s split reached)).mp (exact (earlier ++ [.connect header body]) later t ?_ ?_)
    · rw [split,List.append_assoc,List.singleton_append]
    · exact foldAppendOk.mpr ⟨s,reached,foldConsOk.mpr ⟨t,applied,foldNilOk.mpr rfl⟩⟩
  · intro keeps earlier later s split reached
    refine runExact (fun header body mem => keeps header body ?_) reached
    exact split ▸ List.mem_append_left later mem

end Run

section Reached
open Reference

def carol : VerifyingKey := 0x86827b7e7c807c7a7e7d8479797b807f88837c83000000000000000000000000

/- Alice's swap for a recipient whose address ends in the marker of open swaps. -/
def markedRecipient : Address := 0x7edcb5a2e595185d5b41cc4f50454e5f53574150

def sharedId : SwapId := SwapId.fromL2ToL1 externals ['x'] ⟨0x6161616161616161⟩ (addressOf alice) (some markedRecipient)

def createMarked : Transaction :=
  transaction [deposited 1 (coin alice 1000)] [⟨addressOf alice,.swapPending ⟨900⟩ sharedId⟩,coin alice 100]
    (.swapCreate ⟨sharedId,.regtest,List.replicate 32 0,1,some markedRecipient,900,['x'],0x6161616161616161⟩)

/- Carol's open swap has the same id: the bytes of Alice's, split elsewhere. -/
def createShared : Transaction :=
  transaction [deposited 2 (coin carol 500)] [⟨addressOf carol,.swapPending ⟨400⟩ sharedId⟩,coin carol 100]
    (.swapCreate ⟨sharedId,.regtest,List.replicate 32 0,1,none,400,['x','a','a','a','a','a','a','a','a','K','<','f'],
      0x05a7911b40eb4307⟩)

def createdTogether : List Move :=
  [.grow (body [] []) [deposit 1 (coin alice 1000),deposit 2 (coin carol 500)] noRpc,grow [],
    grow [(createMarked,[alice]),(createShared,[carol])]]

theorem listedWithoutRecipient : ∃ (steps : List (Step Forest)) (last : State Forest),
    run externals context steps (State.new Forest) = .ok last ∧ ¬ RecipientsExact last.toSwapTables := by
  have played : plays createdTogether (fun _ s => (s.swapsFor markedRecipient).count sharedId = 1 &&
      s.recipientOf sharedId ≠ some markedRecipient) = true := by decide +kernel
  obtain ⟨steps,last,ran,checked⟩ := playsRun played
  simp only [Bool.and_eq_true,decide_eq_true_eq,ne_eq] at checked
  refine ⟨steps,last,ran,fun exact => ?_⟩
  have once := exact.listed markedRecipient sharedId
  rw [if_neg checked.2,checked.1] at once
  cases once

theorem oneKeepsRecipients {txs : List Transaction} (few : txs.length ≤ 1) : KeepsRecipients txs := by
  intro id recipient mem
  match txs,few with
  | [],_ => cases mem
  | [tx],_ =>
      obtain ⟨create,made,isFor⟩ := recipientsSingle.mp mem
      simp [recipientsOf,createsOf,made,SwapCreate.route,isFor]

def fewTransactions : Step Forest → Bool
  | .connect _ body => body.transactions.length ≤ 1
  | _ => true

theorem namedSwapListed : ∃ (steps : List (Step Forest)) (last : State Forest),
    run externals context steps (State.new Forest) = .ok last ∧ last.swapsFor (addressOf bob) = [namedId] ∧
    ∀ earlier later s, steps = earlier ++ later → run externals context earlier (State.new Forest) = .ok s →
      RecipientsExact s.toSwapTables := by
  have played : plays (funded ++ [grow [(createNamed,[alice])],grow [(claimNamed,[bob])],.shrink]) (fun steps s =>
      steps.all fewTransactions && s.swapsFor (addressOf bob) = [namedId]) = true := by decide +kernel
  obtain ⟨steps,last,ran,checked⟩ := playsRun played
  obtain ⟨few,listed⟩ := Bool.and_eq_true_iff.mp checked
  refine ⟨steps,last,ran,of_decide_eq_true listed,(recipientsExactIff ran).mpr (fun header body mem => ?_)⟩
  exact oneKeepsRecipients (of_decide_eq_true (List.all_eq_true.mp few _ mem))

end Reached

end Coinshift
