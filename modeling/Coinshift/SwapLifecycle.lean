import Coinshift.Reference
import Coinshift.StepEffects

/-! How often a swap is created and claimed.
Validation reads the tables before the block, connection writes them one transaction after the other:
what a block repeats inside itself is not refused, and a claim need not take the whole escrow. -/
namespace Coinshift
open Checked SwapTables

variable {F : Type} {lib : Externals F} {ctxt : BatchVerificationContext} {s t last : State F}
  {header : Header} {body : Body} {pre : PrevalidatedBlock} {swapId : SwapId} {steps : List (Step F)}

def Transaction.Claims (swapId : SwapId) (tx : Transaction) : Prop :=
  ∃ declared proof, tx.data = .swapClaim swapId declared proof

section Records

variable {w w' : SwapTables} {filled : List FilledTransaction} {height : Nat}

theorem recordedAfter {f : FilledTransaction} {records : SwapId → Option Swap} :
    (recordsAfter height f records swapId).isSome = true ↔
      (records swapId).isSome = true ∨ f.transaction.createdId = some swapId := by
  unfold recordsAfter Transaction.createdId
  cases f.transaction.data with
  | swapCreate create =>
      by_cases own : swapId = create.swapId
      · simp [own]
      · simp [own,Ne.symm own]
  | swapClaim claimed declared proof => by_cases own : swapId = claimed <;> simp [own]
  | regular => simp
  | swapAccept accepted claimer => simp

theorem recordedAfterAll (ok : filled.foldlM (connectSwap lib height) w = .ok w') :
    (w'.getSwap swapId).isSome = true ↔
      (w.getSwap swapId).isSome = true ∨ swapId ∈ createdIds (filled.map (·.transaction)) := by
  induction filled generalizing w with
  | nil =>
      cases foldNilOk.mp ok
      simp [createdIds]
  | cons f rest ih =>
      obtain ⟨middle,first,more⟩ := foldConsOk.mp ok
      rw [ih more,(connectSwapEffect first).2.2.1,recordedAfter,or_assoc]
      simp [createdIds,List.mem_filterMap]

end Records

section Created

structure CreatesOnce (lib : Externals F) (w : SwapTables) (pre : PrevalidatedBlock) : Prop where
  fresh : ∀ front f back create middle, pre.filledTransactions = front ++ f :: back →
    f.transaction.data = .swapCreate create → front.foldlM (connectSwap lib pre.nextHeight) w = .ok middle →
    middle.getSwap create.swapId = none
  kept : ∀ front back middle after, pre.filledTransactions = front ++ back →
    front.foldlM (connectSwap lib pre.nextHeight) w = .ok middle →
    back.foldlM (connectSwap lib pre.nextHeight) middle = .ok after → KeepsTerms middle.getSwap after.getSwap

structure SwapsCreatedOnce (lib : Externals F) (ctxt : BatchVerificationContext) (steps : List (Step F)) : Prop where
  blocks : ∀ s header body t later pre, Takes lib ctxt steps s (.connect header body) t later →
    prevalidate lib s ctxt header body = .ok pre → CreatesOnce lib s.toSwapTables pre
  terms : ∀ earlier between later s t, steps = earlier ++ (between ++ later) →
    run lib ctxt earlier (State.new F) = .ok s → run lib ctxt between s = .ok t → KeepsTerms s.getSwap t.getSwap

theorem KeepsTerms.trans {a b c : SwapId → Option Swap} (first : KeepsTerms a b) (second : KeepsTerms b c) :
    KeepsTerms a c := by
  intro swapId swap recorded
  obtain ⟨middle,found,same⟩ := first swapId swap recorded
  obtain ⟨after,foundAfter,sameAfter⟩ := second swapId middle found
  exact ⟨after,foundAfter,sameAfter.trans same⟩

theorem forwardKeepsTerms {step : Step F} (forward : step.isForward = true) (ok : step.apply lib ctxt s = .ok t) :
    KeepsTerms s.getSwap t.getSwap := by
  cases step with
  | connect header body =>
      obtain ⟨pre,source⟩ := connectBlockSource ok
      exact source.keepsTerms
  | connectPeg data rpc =>
      obtain ⟨height,_,effect⟩ := (connectPegSource ok).effect
      exact effect.sameTerms.keeps
  | localOp op =>
      simp only [Step.apply,bindOk,pureOk] at ok
      obtain ⟨w,applied,rfl⟩ := ok
      exact (localOpKeeps applied).2.keeps
  | _ => cases forward

theorem runKeepsTerms (forward : ∀ step ∈ steps, step.isForward = true) (ok : run lib ctxt steps s = .ok t) :
    KeepsTerms s.getSwap t.getSwap := by
  refine runInvariant (P := fun u => KeepsTerms s.getSwap u.getSwap) ?_ (fun _ swap recorded => ⟨swap,recorded,rfl⟩) ok
  intro u step v mem keeps applied
  exact keeps.trans (forwardKeepsTerms (forward step mem) applied)

theorem createsOnce (source : PrevalidateSource lib ctxt s header body pre)
    (distinct : (createdIds body.transactions).Nodup) : CreatesOnce lib s.toSwapTables pre := by
  have transactions := filledTransactions source.transactions
  have new (front : List FilledTransaction) (f : FilledTransaction) (back : List FilledTransaction) (create : SwapCreate)
      (middle : SwapTables) (split : pre.filledTransactions = front ++ f :: back)
      (kind : f.transaction.data = .swapCreate create)
      (reached : front.foldlM (connectSwap lib pre.nextHeight) s.toSwapTables = .ok middle) :
      middle.getSwap create.swapId = none := by
    have created : f.transaction.createdId = some create.swapId := createdIdSome.mpr ⟨create,kind,rfl⟩
    have mem : f ∈ pre.filledTransactions := split ▸ List.mem_append_right front List.mem_cons_self
    obtain ⟨inside,_⟩ := filledSource source.transactions mem
    have unrecorded := source.unrecorded inside kind
    have notBefore : create.swapId ∉ createdIds (front.map (·.transaction)) := by
      refine filterMapNodup.mp distinct _ f.transaction (back.map (·.transaction)) _ ?_ created
      rw [← transactions,split,List.map_append,List.map_cons]
    rw [← Option.not_isSome_iff_eq_none,recordedAfterAll reached,unrecorded]
    simpa using notBefore
  refine ⟨new,?_⟩
  intro front back middle after split reached rest
  refine freshKeepsTerms rest (fun f mem create kind => ?_)
  obtain ⟨before,others,rfl⟩ := List.append_of_mem mem
  have splitHere : pre.filledTransactions = (front ++ before) ++ f :: others := by rw [split,List.append_assoc]
  obtain ⟨there,first,_⟩ := foldAppendOk.mp rest
  have absent := new (front ++ before) f others create there splitHere kind
    (foldAppendOk.mpr ⟨middle,reached,first⟩)
  rw [← Option.not_isSome_iff_eq_none,recordedAfterAll first,not_or,Option.not_isSome_iff_eq_none] at absent
  exact absent.1

theorem createsDistinct (source : PrevalidateSource lib ctxt s header body pre)
    (connected : ConnectSource lib s header body pre t) (once : CreatesOnce lib s.toSwapTables pre) :
    (createdIds body.transactions).Nodup := by
  rw [← filledTransactions source.transactions,createdIds,List.filterMap_map,filterMapNodup]
  intro front f back swapId split created mem
  obtain ⟨create,kind,rfl⟩ := createdIdSome.mp created
  have swaps := connected.swaps
  rw [connectSwaps,split] at swaps
  obtain ⟨middle,reached,_⟩ := foldAppendOk.mp swaps
  have absent := once.fresh front f back create middle split kind reached
  have present : (middle.getSwap create.swapId).isSome = true := by
    refine (recordedAfterAll reached).mpr (.inr ?_)
    rwa [createdIds,List.filterMap_map]
  rw [absent] at present
  cases present

theorem takenDistinct {later : List (Step F)} (once : SwapsCreatedOnce lib ctxt steps)
    (takes : Takes lib ctxt steps s (.connect header body) t later) : (createdIds body.transactions).Nodup := by
  have connected : connectBlock lib ctxt s header body = .ok t := takes.applied
  simp only [connectBlock,bindOk] at connected
  obtain ⟨pre,accepted,connects⟩ := connected
  have source := prevalidateSource accepted
  exact createsDistinct source (connectSource source connects) (once.blocks s header body t later pre takes accepted)

theorem createdOnceIff (forward : ∀ step ∈ steps, step.isForward = true)
    (ok : run lib ctxt steps (State.new F) = .ok last) :
    SwapsCreatedOnce lib ctxt steps ↔
      ∀ header body, Step.connect header body ∈ steps → (createdIds body.transactions).Nodup := by
  constructor
  · intro once header body mem
    obtain ⟨s,t,later,takes⟩ := takesOfMem ok mem
    exact takenDistinct once takes
  · intro distinct
    refine ⟨?_,?_⟩
    · intro s header body t later pre takes accepted
      exact createsOnce (prevalidateSource accepted) (distinct header body takes.mem)
    · intro earlier between later s t split _ ran
      refine runKeepsTerms (fun step mem => forward step ?_) ran
      rw [split]
      exact List.mem_append_right earlier (List.mem_append_left later mem)

section Reached

open Reference

def aliceCoins : List Move :=
  [.grow (Reference.body [] []) [deposit 1 (coin alice 1000),deposit 2 (coin alice 500)] noRpc]

/- Alice's swap once more, in the same words but for 100 instead of 900: the id is the same. -/
def createSmaller : Transaction :=
  transaction [deposited 2 (coin alice 500)] [⟨addressOf alice,.swapPending ⟨100⟩ namedId⟩,coin alice 400]
    (.swapCreate { namedCreate with l2Amount := 100 })

def twoCreates : Body := Reference.body [(createNamed,[alice]),(createSmaller,[alice])] []

def secondCreateStays (s : State Forest) : Bool :=
  match connectBlock externals context s (mine s twoCreates) twoCreates with
  | .ok t => (t.getSwap namedId).map (·.l2Amount) = some ⟨100⟩
  | .error _ => false

theorem recordReplaced : ∃ (steps : List (Step Forest)) (last : State Forest),
    (∀ step ∈ steps, step.isForward = true) ∧ run externals context steps (State.new Forest) = .ok last ∧
    (last.getSwap namedId).map (·.l2Amount) = some ⟨100⟩ ∧ ¬ SwapsCreatedOnce externals context steps := by
  have played : plays aliceCoins (fun steps s => steps.all Step.isForward && secondCreateStays s) = true := by
    decide +kernel
  obtain ⟨steps,s,ran,checked⟩ := playsRun played
  obtain ⟨forward,stays⟩ := Bool.and_eq_true_iff.mp checked
  unfold secondCreateStays at stays
  split at stays
  · next t connected =>
      have takes : Takes externals context (steps ++ [.connect (mine s twoCreates) twoCreates]) s
          (.connect (mine s twoCreates) twoCreates) t [] := ⟨⟨steps,rfl,ran⟩,connected⟩
      refine ⟨steps ++ [.connect (mine s twoCreates) twoCreates],t,?_,?_,of_decide_eq_true stays,?_⟩
      · intro step mem
        rcases List.mem_append.mp mem with before | isLast
        · exact List.all_eq_true.mp forward step before
        · rw [List.mem_singleton.mp isLast]
          rfl
      · exact foldAppendOk.mpr ⟨s,ran,foldConsOk.mpr ⟨t,connected,rfl⟩⟩
      · intro once
        have distinct := takenDistinct once takes
        have repeated : ¬ (createdIds twoCreates.transactions).Nodup := by decide +kernel
        exact repeated distinct
  · cases stays

def createsDistinctly (_ : State Forest) : Step Forest → Bool
  | .connect _ body => (createdIds body.transactions).Nodup
  | step => step.isForward

theorem singleCreateKept : ∃ (steps : List (Step Forest)) (last : State Forest),
    (∀ step ∈ steps, step.isForward = true) ∧ run externals context steps (State.new Forest) = .ok last ∧
    (last.getSwap namedId).isSome = true ∧ SwapsCreatedOnce externals context steps := by
  have played : playsEvery (funded ++ [grow [(createNamed,[alice])]]) createsDistinctly
      (fun s => (s.getSwap namedId).isSome) = true := by decide +kernel
  obtain ⟨steps,last,ran,every,recorded⟩ := playsEveryRun played
  have forward : ∀ step ∈ steps, step.isForward = true := by
    intro step mem
    obtain ⟨s,t,later,takes⟩ := takesOfMem ran mem
    have passed := every s step t later takes
    cases step with
    | connect => rfl
    | _ => exact passed
  refine ⟨steps,last,forward,ran,recorded,(createdOnceIff forward ran).mpr ?_⟩
  intro header body mem
  obtain ⟨s,t,later,takes⟩ := takesOfMem ran mem
  exact of_decide_eq_true (every s _ t later takes)

end Reached

end Created

section Claimed

/- A claim leaves nothing locked to its swap, and no claim of that swap follows, in the block or on top of it. -/
def SwapsClaimedOnce (lib : Externals F) (ctxt : BatchVerificationContext) (steps : List (Step F)) : Prop :=
  ∀ s header body t later front tx back swapId, Takes lib ctxt steps s (.connect header body) t later →
    body.transactions = front ++ tx :: back → tx.Claims swapId →
    (∀ o, t.isOutputLockedToSwap o ≠ some swapId) ∧ (∀ next ∈ back, ¬ next.Claims swapId) ∧
    ∀ header' body', Step.connect header' body' ∈ later → ∀ next ∈ body'.transactions, ¬ next.Claims swapId

/- Every claim of a block spends all that is locked to its swap before the block. -/
def ClaimsSpendAll (s : State F) (body : Body) : Prop :=
  ∀ tx ∈ body.transactions, ∀ swapId, tx.Claims swapId → ∀ o, s.isOutputLockedToSwap o = some swapId →
    o ∈ tx.inputs.map (·.1)

structure Settled (swapId : SwapId) (w : SwapTables) : Prop where
  recorded : (w.getSwap swapId).isSome = true
  unlocked : ∀ o, w.isOutputLockedToSwap o ≠ some swapId

theorem lockedToAfter {tx : Transaction} {locks : OutPoint → Option SwapId} {o : OutPoint}
    (others : tx.createdId ≠ some swapId) (locked : locksAfter lib tx locks o = some swapId) : locks o = some swapId := by
  unfold locksAfter at locked
  cases kind : tx.data with
  | swapCreate create =>
      simp only [kind] at locked
      split at locked
      · exact absurd (createdIdSome.mpr ⟨create,kind,Option.some.inj locked⟩) others
      · exact locked
  | swapClaim claimed declared proof =>
      simp only [kind] at locked
      split at locked
      · cases locked
      · exact locked
  | regular => simpa only [kind] using locked
  | swapAccept accepted claimer => simpa only [kind] using locked

theorem lockedToAfterAll {txs : List Transaction} {locks : OutPoint → Option SwapId} {o : OutPoint}
    (others : ∀ tx ∈ txs, tx.createdId ≠ some swapId)
    (locked : txs.foldl (fun locks tx => locksAfter lib tx locks) locks o = some swapId) : locks o = some swapId := by
  induction txs generalizing locks with
  | nil => exact locked
  | cons tx txs ih =>
      have middle := ih (fun tx mem => others tx (List.mem_cons_of_mem _ mem)) locked
      exact lockedToAfter (others tx List.mem_cons_self) middle

theorem localOpLocks {op : LocalOp} {w w' : SwapTables} (ok : op.apply w = .ok w') (o : OutPoint) :
    w'.isOutputLockedToSwap o = none ∨ w'.isOutputLockedToSwap o = w.isOutputLockedToSwap o := by
  cases op with
  | updateSwapL1Txid => exact .inr (by rw [isOutputLockedToSwap,(updateSwapL1TxidEffect ok).locks,isOutputLockedToSwap])
  | updateSwapConfirmations =>
      exact .inr (by rw [isOutputLockedToSwap,(updateSwapConfirmationsEffect ok).locks,isOutputLockedToSwap])
  | cancelSwap swapId creator =>
      simp only [LocalOp.apply,cancelSwap,bindOk,okOrOk,ensureOk,pureOk] at ok
      obtain ⟨swap,_,_,_,_,_,rfl⟩ := ok
      have released := @lockedUnlockAll w swapId o
      by_cases own : w.isOutputLockedToSwap o = some swapId
      · exact .inl (released.trans (if_pos own))
      · exact .inr (released.trans (if_neg own))
  | cleanupOrphanedLocks =>
      cases ok
      rw [cleanupEq]
      simp only [isOutputLockedToSwap,Table.tryGetDeletes]
      by_cases orphaned : o ∈ w.orphanedLocks <;> simp [orphaned]

theorem recordedKept {before now : SwapId → Option Swap} (keeps : KeepsTerms before now)
    (recorded : (before swapId).isSome = true) : (now swapId).isSome = true := by
  obtain ⟨swap,found⟩ := Option.isSome_iff_exists.mp recorded
  obtain ⟨later,foundLater,_⟩ := keeps swapId swap found
  rw [foundLater]
  rfl

theorem PrevalidateSource.notCreated (source : PrevalidateSource lib ctxt s header body pre)
    (recorded : (s.getSwap swapId).isSome = true) : ∀ tx ∈ body.transactions, tx.createdId ≠ some swapId := by
  intro tx mem created
  obtain ⟨create,kind,rfl⟩ := createdIdSome.mp created
  rw [source.unrecorded mem kind] at recorded
  cases recorded

theorem forwardSettled {step : Step F} (forward : step.isForward = true) (ok : step.apply lib ctxt s = .ok t)
    (settled : Settled swapId s.toSwapTables) : Settled swapId t.toSwapTables := by
  refine ⟨recordedKept (forwardKeepsTerms forward ok) settled.recorded,?_⟩
  intro o locked
  cases step with
  | connect header body =>
      obtain ⟨pre,source⟩ := connectBlockSource ok
      rw [source.locks] at locked
      exact settled.unlocked o (lockedToAfterAll (source.validated.notCreated settled.recorded) locked)
  | connectPeg data rpc =>
      obtain ⟨height,_,effect⟩ := (connectPegSource ok).effect
      rcases effect.lock o with ⟨_,_,_,_,_,gone⟩ | ⟨_,same⟩
      · rw [gone] at locked
        cases locked
      · exact settled.unlocked o (same.symm.trans locked)
  | localOp op =>
      simp only [Step.apply,bindOk,pureOk] at ok
      obtain ⟨w,applied,rfl⟩ := ok
      rcases localOpLocks applied o with gone | same
      · rw [gone] at locked
        cases locked
      · exact settled.unlocked o (same.symm.trans locked)
  | _ => cases forward

theorem settledNotClaimed (source : PrevalidateSource lib ctxt s header body pre)
    (settled : Settled swapId s.toSwapTables) : ∀ tx ∈ body.transactions, ¬ tx.Claims swapId := by
  intro tx mem claims
  obtain ⟨declared,proof,kind⟩ := claims
  obtain ⟨_,_,_,rules⟩ := source.claim mem kind
  obtain ⟨input,_,locked⟩ := rules.escrow
  exact settled.unlocked input.1 locked

theorem settledForever (forward : ∀ step ∈ steps, step.isForward = true) (ok : run lib ctxt steps s = .ok last)
    (settled : Settled swapId s.toSwapTables) :
    ∀ header body, Step.connect header body ∈ steps → ∀ tx ∈ body.transactions, ¬ tx.Claims swapId := by
  induction steps generalizing s with
  | nil =>
      intro header body mem
      cases mem
  | cons step rest ih =>
      obtain ⟨middle,first,more⟩ := foldConsOk.mp ok
      intro header body mem
      rcases List.mem_cons.mp mem with rfl | inside
      · obtain ⟨pre,source⟩ := connectBlockSource first
        exact settledNotClaimed source.validated settled
      · exact ih (fun step mem => forward step (List.mem_cons_of_mem _ mem)) more
          (forwardSettled (forward step List.mem_cons_self) first settled) header body inside

theorem spentBefore {txs front back : List Transaction} {tx next : Transaction} {o : OutPoint}
    (distinct : (txs.flatMap (fun tx => tx.inputs.map (·.1))).Nodup) (split : txs = front ++ tx :: back)
    (mem : next ∈ back) (spent : o ∈ tx.inputs.map (·.1)) : o ∉ next.inputs.map (·.1) := by
  rw [split,List.flatMap_append,List.flatMap_cons,List.nodup_append] at distinct
  have parts := (List.nodup_append.mp distinct.2.1).2.2
  intro again
  exact parts o spent o (List.mem_flatMap.mpr ⟨next,mem,again⟩) rfl

theorem claimSettles {front back : List Transaction} {tx : Transaction}
    (source : ConnectBlockSource lib ctxt s header body pre t) (split : body.transactions = front ++ tx :: back)
    (claims : tx.Claims swapId) (spendsAll : ∀ o, s.isOutputLockedToSwap o = some swapId → o ∈ tx.inputs.map (·.1)) :
    Settled swapId t.toSwapTables ∧ ∀ next ∈ back, ¬ next.Claims swapId := by
  have mem : tx ∈ body.transactions := split ▸ List.mem_append_right front List.mem_cons_self
  obtain ⟨declared,proof,kind⟩ := claims
  obtain ⟨swap,_,_,rules⟩ := source.validated.claim mem kind
  have recorded : (s.getSwap swapId).isSome = true := by rw [rules.recorded]; rfl
  have others := source.validated.notCreated recorded
  refine ⟨⟨recordedKept source.keepsTerms recorded,?_⟩,?_⟩
  · intro o locked
    rw [source.locks,split,List.foldl_append,List.foldl_cons] at locked
    rw [split] at others
    have afterClaim := lockedToAfterAll (fun next inside => others next
      (List.mem_append_right front (List.mem_cons_of_mem tx inside))) locked
    simp only [locksAfter,kind] at afterClaim
    split at afterClaim
    · cases afterClaim
    · next notSpent =>
        have lockedBefore := lockedToAfterAll (fun next inside => others next (List.mem_append_left _ inside)) afterClaim
        exact notSpent ⟨spendsAll o lockedBefore,afterClaim⟩
  · intro next inside claimsNext
    obtain ⟨declaredNext,proofNext,kindNext⟩ := claimsNext
    have memNext : next ∈ body.transactions := split ▸ List.mem_append_right front (List.mem_cons_of_mem tx inside)
    obtain ⟨_,_,_,rulesNext⟩ := source.validated.claim memNext kindNext
    obtain ⟨input,isInput,locked⟩ := rulesNext.escrow
    exact spentBefore source.validated.distinct split inside (spendsAll input.1 locked) (List.mem_map_of_mem isInput)

theorem claimedOnceWhole (forward : ∀ step ∈ steps, step.isForward = true)
    (ok : run lib ctxt steps (State.new F) = .ok last)
    (whole : ∀ s header body t later, Takes lib ctxt steps s (.connect header body) t later → ClaimsSpendAll s body) :
    SwapsClaimedOnce lib ctxt steps := by
  intro s header body t later front tx back swapId takes split claims
  obtain ⟨pre,source⟩ := connectBlockSource takes.applied
  have mem : tx ∈ body.transactions := split ▸ List.mem_append_right front List.mem_cons_self
  obtain ⟨settled,alone⟩ := claimSettles source split claims (whole s header body t later takes tx mem swapId claims)
  refine ⟨settled.unlocked,alone,settledForever (fun step inside => forward step ?_) (takes.rest ok) settled⟩
  obtain ⟨earlier,steps,_⟩ := takes.split
  rw [steps]
  exact List.mem_append_right earlier (List.mem_cons_of_mem _ inside)

section Reached

open Reference

def halfEscrow : Output := ⟨addressOf alice,.swapPending ⟨450⟩ namedId⟩

def createHalves : Transaction :=
  transaction [deposited 1 (coin alice 1000)] [halfEscrow,halfEscrow,coin alice 100] (.swapCreate namedCreate)

def claimHalf : Transaction :=
  transaction [outputOf createHalves 0 halfEscrow,deposited 2 (coin bob 500)] [coin bob 950] (.swapClaim namedId none none)

def claimRest : Transaction :=
  transaction [outputOf createHalves 1 halfEscrow,outputOf claimHalf 0 (coin bob 950)] [coin bob 1400]
    (.swapClaim namedId none none)

def halfBlock : Body := Reference.body [(claimHalf,[bob,bob])] []

def restBlock : Body := Reference.body [(claimRest,[bob,bob])] []

def claimsAgain (s : State Forest) : Bool :=
  match connectBlock externals context s (mine s halfBlock) halfBlock with
  | .ok t =>
      t.isOutputLockedToSwap (outputOf createHalves 1 halfEscrow).1 = some namedId &&
        (connectBlock externals context t (mine t restBlock) restBlock).isOk
  | .error _ => false

theorem halfClaimedAgain : ∃ (steps : List (Step Forest)) (last : State Forest),
    (∀ step ∈ steps, step.isForward = true) ∧ run externals context steps (State.new Forest) = .ok last ∧
    ¬ SwapsClaimedOnce externals context steps := by
  have played : plays (funded ++ [grow [(createHalves,[alice])]])
      (fun steps s => steps.all Step.isForward && claimsAgain s) = true := by decide +kernel
  obtain ⟨steps,s,ran,checked⟩ := playsRun played
  obtain ⟨forward,again⟩ := Bool.and_eq_true_iff.mp checked
  unfold claimsAgain at again
  split at again
  · next t connected =>
      obtain ⟨locked,second⟩ := Bool.and_eq_true_iff.mp again
      obtain ⟨last,connectedAgain⟩ := isOkExists second
      have takes : Takes externals context
          (steps ++ [.connect (mine s halfBlock) halfBlock,.connect (mine t restBlock) restBlock]) s
          (.connect (mine s halfBlock) halfBlock) t [.connect (mine t restBlock) restBlock] :=
        ⟨⟨steps,rfl,ran⟩,connected⟩
      refine ⟨steps ++ [.connect (mine s halfBlock) halfBlock,.connect (mine t restBlock) restBlock],last,?_,?_,?_⟩
      · intro step mem
        rcases List.mem_append.mp mem with before | new
        · exact List.all_eq_true.mp forward step before
        · rcases List.mem_cons.mp new with rfl | later
          · rfl
          · rw [List.mem_singleton.mp later]
            rfl
      · exact foldAppendOk.mpr ⟨s,ran,foldConsOk.mpr ⟨t,connected,foldConsOk.mpr ⟨last,connectedAgain,rfl⟩⟩⟩
      · intro once
        obtain ⟨unlocked,_,_⟩ := once s _ halfBlock t _ [] claimHalf [] namedId takes rfl ⟨none,none,rfl⟩
        exact unlocked _ (of_decide_eq_true locked)
  · cases again

def claimsWholeEscrow (s : State Forest) : Step Forest → Bool
  | .connect _ body => body.transactions.all (fun tx =>
      match tx.data with
      | .swapClaim swapId _ _ => (s.lockedOutputsOf swapId).all (fun o => o ∈ tx.inputs.map (·.1))
      | _ => true)
  | step => step.isForward

theorem wholeClaimOnce : ∃ (steps : List (Step Forest)) (last : State Forest),
    (∀ step ∈ steps, step.isForward = true) ∧ run externals context steps (State.new Forest) = .ok last ∧
    (last.getSwap namedId).map (·.state) = some .completed ∧ SwapsClaimedOnce externals context steps := by
  have played : playsEvery (funded ++ [grow [(createNamed,[alice])],grow [(claimNamed,[bob])]]) claimsWholeEscrow
      (fun s => (s.getSwap namedId).map (·.state) = some .completed) = true := by decide +kernel
  obtain ⟨steps,last,ran,every,completed⟩ := playsEveryRun played
  have forward : ∀ step ∈ steps, step.isForward = true := by
    intro step mem
    obtain ⟨s,t,later,takes⟩ := takesOfMem ran mem
    have passed := every s step t later takes
    cases step with
    | connect => rfl
    | _ => exact passed
  refine ⟨steps,last,forward,ran,of_decide_eq_true completed,claimedOnceWhole forward ran ?_⟩
  intro s header body t later takes tx mem swapId claims o locked
  obtain ⟨declared,proof,kind⟩ := claims
  have passed := List.all_eq_true.mp (every s _ t later takes) tx mem
  simp only [kind] at passed
  exact of_decide_eq_true (List.all_eq_true.mp passed o (memLockedOutputsOf.mpr locked))

end Reached

end Claimed

end Coinshift
