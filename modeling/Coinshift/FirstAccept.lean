import Coinshift.Reference
import Coinshift.StepEffects

/-! Which accept of an open swap holds its reservation.
Across blocks the first accept wins until its window ends; inside a block the last one does. -/
namespace Coinshift
open Checked SwapTables

variable {F : Type} {lib : Externals F} {ctxt : BatchVerificationContext} {s t : State F}
  {header : Header} {body : Body} {swapId : SwapId} {claimer : Address}

def Transaction.acceptOf (swapId : SwapId) (tx : Transaction) : Option Address :=
  match tx.data with
  | .swapAccept accepted claimer => if accepted = swapId then some claimer else none
  | _ => none

def acceptsOf (swapId : SwapId) (txs : List Transaction) : List Address :=
  txs.filterMap (Transaction.acceptOf swapId)

/- In every state that a node without reorganisations gets to, as long as no block at or past the end
of the window is on top, the swap is reserved for `claimer` at every height before that end. -/
def ReservedFor (lib : Externals F) (ctxt : BatchVerificationContext) (swapId : SwapId) (claimer : Address)
    (acceptedAt : Nat) (start : State F) : Prop :=
  ∀ steps t, (∀ step ∈ steps, step.isForward = true) → run lib ctxt steps start = .ok t →
    ∃ swap tip, t.getSwap swapId = some swap ∧ t.height = some tip ∧
      (tip = acceptedAt ∨ tip < SwapReservation.expiresAt ⟨claimer,acceptedAt⟩ swap.parentChain →
        ∀ h < SwapReservation.expiresAt ⟨claimer,acceptedAt⟩ swap.parentChain,
          t.entitledClaimerAt swap h = some claimer)

section Blocks

theorem acceptOfSome {tx : Transaction} : tx.acceptOf swapId = some claimer ↔ tx.data = .swapAccept swapId claimer := by
  unfold Transaction.acceptOf
  cases tx.data with
  | swapAccept accepted named =>
      by_cases same : accepted = swapId <;> simp [same]
  | _ => simp

theorem reservationsAfterAccepts {txs : List Transaction} {height : Nat}
    {reservations : SwapId → Option SwapReservation} :
    txs.foldl (fun r tx => reservationsAfter height tx r) reservations swapId =
      ((acceptsOf swapId txs).getLast?.map (fun named => ⟨named,height⟩)).or (reservations swapId) := by
  have step (r : SwapId → Option SwapReservation) (tx : Transaction) :
      reservationsAfter height tx r swapId = ((tx.acceptOf swapId).map (fun named => ⟨named,height⟩)).or (r swapId) := by
    unfold reservationsAfter Transaction.acceptOf
    cases tx.data with
    | swapAccept accepted named => by_cases own : swapId = accepted <;> simp [own,eq_comm]
    | _ => rfl
  rw [acceptsOf,← List.getLast?_map,List.map_filterMap]
  exact foldlLast (fun r : SwapId → Option SwapReservation => r swapId) step

variable {pre : PrevalidatedBlock}

theorem acceptInBlock (source : PrevalidateSource lib ctxt s header body pre)
    (mem : claimer ∈ acceptsOf swapId body.transactions) :
    ∃ tx filled swap, AcceptSource s swapId claimer tx filled swap := by
  obtain ⟨tx,inside,accept⟩ := List.mem_filterMap.mp mem
  obtain ⟨filled,_,txSource⟩ := relatedLeft source.transactions inside
  obtain ⟨swap,accepted⟩ := txSource.accept (acceptOfSome.mp accept)
  exact ⟨tx,filled,swap,accepted⟩

end Blocks

section Runs

structure Held (swapId : SwapId) (claimer : Address) (acceptedAt : Nat) (chain : ParentChainType) (t : State F)
    (tip : Nat) : Prop where
  height : t.height = some tip
  after : acceptedAt ≤ tip
  record : ∃ swap, t.getSwap swapId = some swap ∧ swap.l2Recipient = none ∧ swap.parentChain = chain
  reserved : tip = acceptedAt ∨ tip < SwapReservation.expiresAt ⟨claimer,acceptedAt⟩ chain →
    t.getSwapReservation swapId = some ⟨claimer,acceptedAt⟩

variable {acceptedAt : Nat} {chain : ParentChainType}

theorem recordKept {before now : SwapId → Option Swap} (keeps : KeepsTerms before now)
    (record : ∃ swap, before swapId = some swap ∧ swap.l2Recipient = none ∧ swap.parentChain = chain) :
    ∃ swap, now swapId = some swap ∧ swap.l2Recipient = none ∧ swap.parentChain = chain := by
  obtain ⟨swap,recorded,isOpen,isChain⟩ := record
  obtain ⟨later,found,terms⟩ := keeps swapId swap recorded
  have recipient : later.l2Recipient = swap.l2Recipient := congrArg SwapTerms.l2Recipient terms
  have parent : later.parentChain = swap.parentChain := congrArg SwapTerms.parentChain terms
  exact ⟨later,found,recipient.trans isOpen,parent.trans isChain⟩

theorem connectKeepsHeld {tip : Nat} (held : Held swapId claimer acceptedAt chain s tip)
    (ok : connectBlock lib ctxt s header body = .ok t) : Held swapId claimer acceptedAt chain t (tip + 1) := by
  obtain ⟨pre,source⟩ := connectBlockSource ok
  have next : s.nextHeight = tip + 1 := by rw [State.nextHeight,held.height]
  refine ⟨?_,Nat.le_succ_of_le held.after,recordKept source.keepsTerms held.record,?_⟩
  · rw [source.connected.height,next]
  · intro inside
    have before : tip + 1 < SwapReservation.expiresAt ⟨claimer,acceptedAt⟩ chain := by
      have later := held.after
      rcases inside with same | before
      · omega
      · exact before
    have reserved := held.reserved (.inr (by omega))
    have untouched : acceptsOf swapId body.transactions = [] := by
      rw [List.eq_nil_iff_forall_not_mem]
      intro named mem
      obtain ⟨_,_,swap,accepted⟩ := acceptInBlock source.validated mem
      obtain ⟨found,recorded,_,isChain⟩ := held.record
      obtain rfl : found = swap := Option.some.inj (recorded.symm.trans accepted.recorded)
      refine accepted.unreserved _ reserved ?_
      rw [isChain,next,SwapReservation.isLiveAt]
      exact decide_eq_true before
    have effect := congrFun source.reservations swapId
    rw [reservationsAfterAccepts,untouched] at effect
    exact effect.trans reserved

theorem forwardKeepsHeld {step : Step F} {tip : Nat} (forward : step.isForward = true)
    (held : Held swapId claimer acceptedAt chain s tip) (ok : step.apply lib ctxt s = .ok t) :
    ∃ tip', Held swapId claimer acceptedAt chain t tip' := by
  cases step with
  | connect header body => exact ⟨tip + 1,connectKeepsHeld held ok⟩
  | connectPeg data rpc =>
      have source := connectPegSource ok
      obtain ⟨height,_,effect⟩ := source.effect
      refine ⟨tip,source.height.trans held.height,held.after,recordKept effect.sameTerms.keeps held.record,?_⟩
      intro inside
      rw [getSwapReservation,effect.reservations]
      exact held.reserved inside
  | localOp op =>
      simp only [Step.apply,bindOk,pureOk] at ok
      obtain ⟨w,applied,rfl⟩ := ok
      obtain ⟨reservations,terms⟩ := localOpKeeps applied
      refine ⟨tip,held.height,held.after,recordKept terms.keeps held.record,?_⟩
      intro inside
      simp only [getSwapReservation,reservations]
      exact held.reserved inside
  | _ => cases forward

theorem runKeepsHeld {steps : List (Step F)} {tip : Nat} (forward : ∀ step ∈ steps, step.isForward = true)
    (held : Held swapId claimer acceptedAt chain s tip) (ok : run lib ctxt steps s = .ok t) :
    ∃ tip', Held swapId claimer acceptedAt chain t tip' := by
  refine runInvariant (P := fun u => ∃ tip, Held swapId claimer acceptedAt chain u tip) ?_ ⟨tip,held⟩ ok
  intro u step v mem isHeld applied
  obtain ⟨_,heldNow⟩ := isHeld
  exact forwardKeepsHeld (forward step mem) heldNow applied

theorem Held.entitled {tip : Nat} (held : Held swapId claimer acceptedAt chain t tip)
    (inside : tip = acceptedAt ∨ tip < SwapReservation.expiresAt ⟨claimer,acceptedAt⟩ chain) {swap : Swap}
    (recorded : t.getSwap swapId = some swap) {h : Nat}
    (before : h < SwapReservation.expiresAt ⟨claimer,acceptedAt⟩ chain) : t.entitledClaimerAt swap h = some claimer := by
  obtain ⟨found,foundIs,isOpen,isChain⟩ := held.record
  obtain rfl : found = swap := Option.some.inj (foundIs.symm.trans recorded)
  have live : SwapReservation.isLiveAt ⟨claimer,acceptedAt⟩ found.parentChain h = true := by
    rw [isChain,SwapReservation.isLiveAt]
    exact decide_eq_true before
  simp only [entitledClaimerAt,isOpen,getSwapId recorded,held.reserved inside,live,if_true]

end Runs

theorem acceptBlockHeld (ok : connectBlock lib ctxt s header body = .ok t) {last : Address}
    (isLast : (acceptsOf swapId body.transactions).getLast? = some last) :
    ∃ chain, Held swapId last s.nextHeight chain t s.nextHeight := by
  obtain ⟨pre,source⟩ := connectBlockSource ok
  obtain ⟨_,_,swap,accepted⟩ := acceptInBlock source.validated (List.mem_of_getLast? isLast)
  refine ⟨swap.parentChain,source.connected.height,Nat.le_refl _,?_,?_⟩
  · exact recordKept source.keepsTerms ⟨swap,accepted.recorded,accepted.isOpen,rfl⟩
  · intro _
    have effect := congrFun source.reservations swapId
    rwa [reservationsAfterAccepts,isLast] at effect

theorem windowNonempty {r : SwapReservation} {chain : ParentChainType} : 0 < r.expiresAt chain := by
  have window : 0 < chain.acceptExpirationBlocks := by cases chain <;> decide
  simp only [SwapReservation.expiresAt]
  omega

theorem reservedForIffLast (ok : connectBlock lib ctxt s header body = .ok t)
    (accepted : claimer ∈ acceptsOf swapId body.transactions) :
    ReservedFor lib ctxt swapId claimer s.nextHeight t ↔
      (acceptsOf swapId body.transactions).getLast? = some claimer := by
  constructor
  · intro reserved
    have nonempty := List.getLast?_isSome.mpr (List.ne_nil_of_mem accepted)
    obtain ⟨last,isLast⟩ := Option.isSome_iff_exists.mp nonempty
    obtain ⟨chain,held⟩ := acceptBlockHeld ok isLast
    obtain ⟨swap,tip,recorded,heightIs,promise⟩ := reserved [] t (by simp) rfl
    obtain rfl : s.nextHeight = tip := Option.some.inj (held.height.symm.trans heightIs)
    have mine := promise (.inl rfl) 0 windowNonempty
    have theirs := held.entitled (.inl rfl) recorded (h := 0) windowNonempty
    rw [isLast]
    exact theirs.symm.trans mine
  · intro isLast steps u forward ran
    obtain ⟨chain,held⟩ := acceptBlockHeld ok isLast
    obtain ⟨tip,heldNow⟩ := runKeepsHeld forward held ran
    obtain ⟨swap,recorded,_,isChain⟩ := heldNow.record
    refine ⟨swap,tip,recorded,heldNow.height,?_⟩
    rw [isChain]
    intro inside h before
    exact heldNow.entitled inside recorded before

section Reached

open Reference

def acceptByAlice : Transaction :=
  transaction [outputOf createOpen 1 (coin alice 100)] [coin alice 100] (.swapAccept openId (addressOf alice))

def twoAccepts : Body := Reference.body [(acceptOpen,[bob]),(acceptByAlice,[alice])] []

def oneAccept : Body := Reference.body [(acceptOpen,[bob])] []

def created : List Move := funded ++ [grow [(createOpen,[alice])]]

def secondAcceptHolds (s : State Forest) : Bool :=
  match connectBlock externals context s (mine s twoAccepts) twoAccepts with
  | .ok t =>
      match t.getSwap openId with
      | some swap => t.entitledClaimerAt swap 0 = some (addressOf alice)
      | none => false
  | .error _ => false

theorem laterAcceptWins : ∃ s header body t, Reachable externals context s ∧
    connectBlock externals context s header body = .ok t ∧
    (acceptsOf openId body.transactions).head? = some (addressOf bob) ∧
    ¬ ReservedFor externals context openId (addressOf bob) s.nextHeight t := by
  have played : reaches created secondAcceptHolds = true := by decide +kernel
  obtain ⟨s,reachable,checked⟩ := reachesReachable played
  unfold secondAcceptHolds at checked
  split at checked
  · next t connected =>
      have first : (acceptsOf openId twoAccepts.transactions).head? = some (addressOf bob) := by decide +kernel
      refine ⟨s,_,twoAccepts,t,reachable,connected,first,?_⟩
      intro reserved
      obtain ⟨_,source⟩ := connectBlockSource connected
      obtain ⟨swap,tip,recorded,heightIs,promise⟩ := reserved [] t (by simp) rfl
      have tipIs : tip = s.nextHeight := Option.some.inj (heightIs.symm.trans source.connected.height)
      have forBob := promise (.inl tipIs) 0 windowNonempty
      rw [recorded] at checked
      have forAlice := of_decide_eq_true checked
      have different : addressOf bob ≠ addressOf alice := by decide +kernel
      exact different (Option.some.inj (forBob.symm.trans forAlice))
  · cases checked

theorem singleAcceptHolds : ∃ s header t, Reachable externals context s ∧
    connectBlock externals context s header oneAccept = .ok t ∧
    ReservedFor externals context openId (addressOf bob) s.nextHeight t := by
  have played : reaches created (fun s => (connectBlock externals context s (mine s oneAccept) oneAccept).isOk) = true := by
    decide +kernel
  obtain ⟨s,reachable,isOk⟩ := reachesReachable played
  obtain ⟨t,connected⟩ := isOkExists isOk
  have only : acceptsOf openId oneAccept.transactions = [addressOf bob] := by decide +kernel
  refine ⟨s,_,t,reachable,connected,(reservedForIffLast connected ?_).mpr ?_⟩
  · rw [only]
    exact List.mem_singleton_self _
  · rw [only]
    rfl

end Reached

end Coinshift
