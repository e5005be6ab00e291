import Coinshift.StepEffects

/-! What block validation reads of a state.
Two states that agree on the ledger, the locks, the reservations and the terms of the swaps, whatever
they know of the parent chain, give one verdict on every block. -/
namespace Coinshift
open Checked SwapTables

variable {F : Type} {lib : Externals F} {ctxt : BatchVerificationContext}

def Swap.isUnsettled (swap : Swap) : Bool := swap.isAwaiting || swap.state = .readyToClaim

structure Swap.Alike (a b : Swap) : Prop where
  terms : a.terms = b.terms
  unsettled : a.isUnsettled = b.isUnsettled

theorem Swap.Alike.refl (swap : Swap) : swap.Alike swap := ⟨rfl,rfl⟩

structure SwapsAlike (w v : SwapTables) : Prop where
  locks : w.isOutputLockedToSwap = v.isOutputLockedToSwap
  reservations : w.getSwapReservation = v.getSwapReservation
  records : ∀ swapId, Option.Rel Swap.Alike (w.getSwap swapId) (v.getSwap swapId)

structure Alike (s t : State F) : Prop where
  ledger : s.toLedger = t.toLedger
  pegs : s.toPegTables = t.toPegTables
  tip : s.tip = t.tip
  height : s.height = t.height
  accumulator : s.utreexoAccumulator = t.utreexoAccumulator
  swaps : SwapsAlike s.toSwapTables t.toSwapTables

theorem SwapsAlike.cases {w v : SwapTables} (alike : SwapsAlike w v) (swapId : SwapId) :
    (w.getSwap swapId = none ∧ v.getSwap swapId = none) ∨
    ∃ a b, w.getSwap swapId = some a ∧ v.getSwap swapId = some b ∧ a.Alike b := by
  have related := alike.records swapId
  cases left : w.getSwap swapId with
  | none =>
      cases right : v.getSwap swapId with
      | none => exact .inl ⟨rfl,rfl⟩
      | some b =>
          rw [left,right] at related
          cases related
  | some a =>
      cases right : v.getSwap swapId with
      | none =>
          rw [left,right] at related
          cases related
      | some b =>
          rw [left,right] at related
          cases related with
          | some both => exact .inr ⟨a,b,rfl,rfl,both⟩

section Verdict

variable {s t : State F}

theorem ensureCongr {ε : Type} {p q : Prop} [Decidable p] [Decidable q] {e : ε} (same : p ↔ q) :
    ensure p e = ensure q e := by
  unfold ensure
  by_cases holds : p
  · rw [if_pos holds,if_pos (same.mp holds)]
  · rw [if_neg holds,if_neg (fun other => holds (same.mpr other))]

theorem Alike.nextHeight (alike : Alike s t) : s.nextHeight = t.nextHeight := by
  rw [State.nextHeight,State.nextHeight,alike.height]

theorem Alike.utxos (alike : Alike s t) : s.utxos = t.utxos := congrArg Ledger.utxos alike.ledger

theorem Alike.recordMissing (alike : Alike s t) (swapId : SwapId) : s.getSwap swapId = none ↔ t.getSwap swapId = none := by
  rcases alike.swaps.cases swapId with ⟨left,right⟩ | ⟨a,b,left,right,_⟩
  · simp [left,right]
  · simp [left,right]

theorem Alike.createInput (alike : Alike s t) (swapId : SwapId) (o : OutPoint) :
    checkCreateInput s swapId o = checkCreateInput t swapId o := by
  unfold checkCreateInput
  rw [alike.swaps.locks]
  cases t.isOutputLockedToSwap o with
  | none => rfl
  | some locked =>
      rcases alike.swaps.cases locked with ⟨left,right⟩ | ⟨a,b,left,right,_⟩
      · simp only [left,right]
      · simp only [left,right]

theorem Alike.create (alike : Alike s t) (tx : Transaction) (filled : FilledTransaction) :
    validateSwapCreate lib s tx filled = validateSwapCreate lib t tx filled := by
  unfold validateSwapCreate
  cases tx.data with
  | swapCreate create =>
      simp only [alike.createInput]
      refine bind_congr (fun first => bind_congr (fun _ => ?_))
      rw [ensureCongr (alike.recordMissing _)]
  | _ => rfl

theorem Alike.noLocked (alike : Alike s t) (tx : Transaction) :
    validateNoLockedOutputs s tx = validateNoLockedOutputs t tx := by
  unfold validateNoLockedOutputs
  rw [alike.swaps.locks]

theorem Alike.withRecord {α : Type} (alike : Alike s t) (swapId : SwapId) {e : Error} {f g : Swap → Except Error α}
    (same : ∀ a b, s.getSwap swapId = some a → t.getSwap swapId = some b → a.terms = b.terms → f a = g b) :
    (okOr (s.getSwap swapId) e >>= f) = (okOr (t.getSwap swapId) e >>= g) := by
  rcases alike.swaps.cases swapId with ⟨left,right⟩ | ⟨a,b,left,right,both⟩
  · rw [left,right]
    rfl
  · have continuation := same a b left right both.terms
    rw [left,right]
    exact continuation

theorem Alike.accept (alike : Alike s t) (tx : Transaction) (filled : FilledTransaction) :
    validateSwapAccept s tx filled = validateSwapAccept t tx filled := by
  unfold validateSwapAccept
  cases tx.data with
  | swapAccept swapId claimer =>
      dsimp only [validatingHeight]
      rw [alike.noLocked,alike.nextHeight,alike.swaps.reservations]
      refine bind_congr (fun _ => alike.withRecord swapId ?_)
      intro a b _ _ terms
      have recipient : a.l2Recipient = b.l2Recipient := congrArg SwapTerms.l2Recipient terms
      have chain : a.parentChain = b.parentChain := congrArg SwapTerms.parentChain terms
      have expiry : a.expiresAtHeight = b.expiresAtHeight := congrArg SwapTerms.expiresAtHeight terms
      rw [recipient,chain,expiry]
  | _ => rfl

theorem Alike.entitled (alike : Alike s t) {swapId : SwapId} {a b : Swap} (left : s.getSwap swapId = some a)
    (right : t.getSwap swapId = some b) (terms : a.terms = b.terms) (height : Nat) :
    s.entitledClaimerAt a height = t.entitledClaimerAt b height := by
  have recipient : a.l2Recipient = b.l2Recipient := congrArg SwapTerms.l2Recipient terms
  have chain : a.parentChain = b.parentChain := congrArg SwapTerms.parentChain terms
  simp only [entitledClaimerAt,recipient,chain,getSwapId left,getSwapId right,alike.swaps.reservations]

theorem Alike.claim (alike : Alike s t) (tx : Transaction) :
    validateSwapClaimConsensus s tx = validateSwapClaimConsensus t tx := by
  unfold validateSwapClaimConsensus
  cases tx.data with
  | swapClaim swapId declared proof =>
      have inputs (o : OutPoint) : checkClaimInput s swapId o = checkClaimInput t swapId o := by
        unfold checkClaimInput
        rw [alike.swaps.locks]
      simp only [inputs,validatingHeight,alike.nextHeight]
      refine bind_congr (fun _ => bind_congr (fun _ => alike.withRecord swapId ?_))
      intro a b left right terms
      have amount : a.l2Amount = b.l2Amount := congrArg SwapTerms.l2Amount terms
      simp only [alike.entitled left right terms,amount]
  | _ => rfl

theorem Alike.transaction (alike : Alike s t) (tx : Transaction) (filled : FilledTransaction) :
    validateBlockTransaction lib s tx filled = validateBlockTransaction lib t tx filled := by
  unfold validateBlockTransaction
  rw [alike.create,alike.claim,alike.accept,alike.noLocked]

theorem Alike.verdict (alike : Alike s t) (header : Header) (body : Body) :
    prevalidate lib s ctxt header body = prevalidate lib t ctxt header body := by
  have fill (tx : Transaction) : fillTransaction s tx = fillTransaction t tx := by
    unfold fillTransaction
    rw [alike.utxos]
  have accumulator : s.accumulator lib = t.accumulator lib := by
    rw [State.accumulator,State.accumulator,alike.accumulator]
  have gather : gatherTransaction lib s (t.accumulator lib) = gatherTransaction lib t (t.accumulator lib) := by
    funext g tx
    unfold gatherTransaction
    simp only [fill,alike.transaction]
  unfold prevalidate
  dsimp only
  rw [accumulator,gather,alike.tip,alike.nextHeight]

end Verdict

section Connect

theorem connectSwapAlike {height : Nat} {w v w' v' : SwapTables} {f : FilledTransaction} (alike : SwapsAlike w v)
    (left : connectSwap lib height w f = .ok w') (right : connectSwap lib height v f = .ok v') : SwapsAlike w' v' := by
  obtain ⟨locksLeft,reservationsLeft,recordsLeft,_⟩ := connectSwapEffect left
  obtain ⟨locksRight,reservationsRight,recordsRight,_⟩ := connectSwapEffect right
  refine ⟨?_,?_,?_⟩
  · rw [locksLeft,locksRight,alike.locks]
  · rw [reservationsLeft,reservationsRight,alike.reservations]
  · intro swapId
    rw [recordsLeft,recordsRight]
    have before := alike.records swapId
    unfold recordsAfter
    cases f.transaction.data with
    | swapCreate create =>
        by_cases own : swapId = create.swapId
        · simp only [own,if_true]
          exact .some (.refl _)
        · simp only [own,if_false]
          exact before
    | swapClaim claimed declared proof =>
        by_cases own : swapId = claimed
        · simp only [own,if_true]
          rcases alike.cases claimed with ⟨isNone,isNone'⟩ | ⟨a,b,found,found',both⟩
          · rw [isNone,isNone']
            exact .none
          · rw [found,found']
            exact .some ⟨both.terms,rfl⟩
        · simp only [own,if_false]
          exact before
    | regular => exact before
    | swapAccept accepted claimer => exact before

theorem connectAlike {s t s' t' : State F} {header : Header} {body : Body} (alike : Alike s t)
    (left : connectBlock lib ctxt s header body = .ok s') (right : connectBlock lib ctxt t header body = .ok t') :
    Alike s' t' := by
  simp only [connectBlock,bindOk] at left right
  obtain ⟨pre,accepted,connected⟩ := left
  obtain ⟨pre',accepted',connected'⟩ := right
  obtain rfl : pre = pre' := Except.ok.inj (accepted.symm.trans ((alike.verdict header body).trans accepted'))
  have source := connectSource (prevalidateSource accepted) connected
  have source' := connectSource (prevalidateSource accepted') connected'
  obtain ⟨applied,apply,isApplied⟩ := source.accumulator
  obtain ⟨applied',apply',isApplied'⟩ := source'.accumulator
  have coins := source'.coins
  rw [← alike.ledger,source.coins] at coins
  rw [State.accumulator,← alike.accumulator] at apply'
  refine ⟨Except.ok.inj coins,?_,?_,?_,?_,?_⟩
  · rw [source.pegs,source'.pegs,alike.pegs]
  · rw [source.tip,source'.tip]
  · rw [source.height,source'.height,alike.nextHeight]
  · rw [isApplied,isApplied',Except.ok.inj (apply.symm.trans apply')]
  · exact foldRelated (R := SwapsAlike) (f := connectSwap lib pre.nextHeight) (g := connectSwap lib pre.nextHeight)
      (fun _ _ _ _ _ _ related left right => connectSwapAlike related left right) alike.swaps source.swaps source'.swaps

end Connect

section Observation

theorem Swap.Observed.unsettled {before after : Swap} (observed : before.Observed after) :
    after.isUnsettled = before.isUnsettled := by
  rcases observed.state with same | ⟨awaiting,later⟩
  · rw [same]
  · have left : before.isUnsettled = true := by rw [Swap.isUnsettled,awaiting,Bool.true_or]
    have right : after.isUnsettled = true := by
      rw [Swap.isUnsettled]
      rcases later with still | ready
      · rw [still,Bool.true_or]
      · simp [ready]
    rw [left,right]

theorem Swap.Alike.observed {a a' b : Swap} (alike : a.Alike b) (observed : a.Observed a') : a'.Alike b :=
  ⟨observed.terms.trans alike.terms,observed.unsettled.trans alike.unsettled⟩

theorem Swap.Alike.symm {a b : Swap} (alike : a.Alike b) : b.Alike a := ⟨alike.terms.symm,alike.unsettled.symm⟩

theorem Alike.symm {s t : State F} (alike : Alike s t) : Alike t s := by
  refine ⟨alike.ledger.symm,alike.pegs.symm,alike.tip.symm,alike.height.symm,alike.accumulator.symm,
    alike.swaps.locks.symm,alike.swaps.reservations.symm,?_⟩
  intro swapId
  rcases alike.swaps.cases swapId with ⟨left,right⟩ | ⟨a,b,left,right,both⟩
  · rw [left,right]
    exact .none
  · rw [left,right]
    exact .some both.symm

theorem observeAlike {s t : State F} {w : SwapTables} (alike : Alike s t) (effect : ObservationEffect s.toSwapTables w) :
    Alike { s with toSwapTables := w } t := by
  refine ⟨alike.ledger,alike.pegs,alike.tip,alike.height,alike.accumulator,?_,?_,?_⟩
  · rw [← alike.swaps.locks]
    funext o
    simp only [isOutputLockedToSwap,effect.locks]
  · rw [← alike.swaps.reservations]
    funext swapId
    simp only [getSwapReservation,effect.reservations]
  · intro swapId
    have record := effect.records swapId
    rcases alike.swaps.cases swapId with ⟨left,right⟩ | ⟨a,b,left,right,both⟩
    · rw [left] at record
      rw [right]
      cases found : w.getSwap swapId with
      | none => exact .none
      | some after =>
          rw [found] at record
          cases record
    · rw [left] at record
      rw [right]
      cases found : w.getSwap swapId with
      | none =>
          rw [found] at record
          cases record
      | some after =>
          rw [found] at record
          cases record with
          | some observed => exact .some (both.observed observed)

theorem callAlike {s t : State F} {op : LocalOp} (observation : op.isObservation = true) (alike : Alike s t) :
    Alike (op.call s) t := by
  unfold LocalOp.call
  split
  · next w applied =>
      cases op with
      | updateSwapL1Txid => exact observeAlike alike (updateSwapL1TxidEffect applied)
      | updateSwapConfirmations => exact observeAlike alike (updateSwapConfirmationsEffect applied)
      | _ => cases observation
  · exact alike

end Observation

end Coinshift
