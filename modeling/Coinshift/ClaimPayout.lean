import Coinshift.Reference
import Mathlib.Algebra.Order.BigOperators.Group.List

/-! What a claim pays the entitled claimer in coins the claimer can spend on the sidechain. -/
namespace Coinshift
open Checked

variable {F : Type} {s : State F} {tx : Transaction}

def Content.isValue : Content → Bool
  | .value _ => true
  | _ => false

def Transaction.valueAt (tx : Transaction) (recipient : Address) (p : Content → Bool) : Nat :=
  ((tx.outputs.filter (fun o => o.address = recipient && p o.content)).map (·.getValue.val)).sum

def Transaction.plainValueAt (tx : Transaction) (recipient : Address) : Nat := tx.valueAt recipient Content.isValue

def PaysClaimer (s : State F) (swapId : SwapId) (tx : Transaction) : Prop :=
  ∃ swap recipient, s.getSwap swapId = some swap ∧ s.entitledClaimerAt swap s.nextHeight = some recipient ∧
    swap.l2Amount.val ≤ tx.plainValueAt recipient

/- No output at the entitled claimer's address is a withdrawal or an escrow. A swap of nothing asks for no output. -/
def NoDiversion (s : State F) (swapId : SwapId) (tx : Transaction) : Prop :=
  ∀ swap recipient, s.getSwap swapId = some swap → s.entitledClaimerAt swap s.nextHeight = some recipient →
    swap.l2Amount.val = 0 ∨ ∀ o ∈ tx.outputs, o.address = recipient → o.content.isValue = true

def Content.setValue (a : Amount) : Content → Content
  | .value _ => .value a
  | .withdrawal _ _ mainAddress => .withdrawal a Amount.zero mainAddress
  | .swapPending _ swapId => .swapPending a swapId

def Output.setValue (a : Amount) (o : Output) : Output := { o with content := o.content.setValue a }

/- The outputs of `tx'` go where those of `tx` go, only their amounts differ, and they hold no more in all. -/
structure Revalued (tx tx' : Transaction) : Prop where
  inputs : tx'.inputs = tx.inputs
  data : tx'.data = tx.data
  outputs : tx'.outputs.map (Output.setValue Amount.zero) = tx.outputs.map (Output.setValue Amount.zero)
  affordable : (tx'.outputs.map (·.getValue.val)).sum ≤ (tx.outputs.map (·.getValue.val)).sum

theorem amountPaidToVal {recipient : Address} {paid : Amount} (ok : amountPaidTo tx recipient = .ok paid) :
    paid.val = tx.valueAt recipient (fun _ => true) := by
  rw [amountPaidTo,okOrOk] at ok
  rw [Amount.checkedSumVal ok,Transaction.valueAt,List.map_map]
  simp only [Bool.and_true]
  rfl

theorem getValueSet {a : Amount} {o : Output} : (o.setValue a).getValue = a := by
  obtain ⟨address,content⟩ := o
  cases content with
  | value amount => rfl
  | swapPending amount swapId => rfl
  | withdrawal value mainFee mainAddress =>
      have fits : a.val + Amount.zero.val < 2 ^ 64 := a.sat.toNat_lt
      obtain ⟨total,added,isTotal⟩ := checkedAddOk fits
      have same : total = a := Amount.valInj isTotal
      show (a.checkedAdd Amount.zero).getD Amount.max = a
      rw [added,same,Option.getD_some]

theorem setValueSet {a b : Amount} {o : Output} : (o.setValue a).setValue b = o.setValue b := by
  obtain ⟨address,content⟩ := o
  cases content <;> rfl

theorem setValueIsValue {a : Amount} {o : Output} : (o.setValue a).content.isValue = o.content.isValue := by
  obtain ⟨address,content⟩ := o
  cases content <;> rfl

def allIn (a : Amount) (pre : List Output) (o : Output) (post : List Output) : List Output :=
  pre.map (Output.setValue Amount.zero) ++ o.setValue a :: post.map (Output.setValue Amount.zero)

theorem emptied {p : Output → Bool} (outputs : List Output) :
    (((outputs.map (Output.setValue Amount.zero)).filter p).map (·.getValue.val)).sum = 0 := by
  refine List.sum_eq_zero ?_
  intro n mem
  obtain ⟨o,inside,rfl⟩ := List.mem_map.mp mem
  obtain ⟨kept,_⟩ := List.mem_filter.mp inside
  obtain ⟨old,_,rfl⟩ := List.mem_map.mp kept
  rw [getValueSet]
  rfl

theorem allInWorth {p : Output → Bool} {a : Amount} {pre post : List Output} {o : Output} :
    (((allIn a pre o post).filter p).map (·.getValue.val)).sum = if p (o.setValue a) then a.val else 0 := by
  rw [allIn,List.filter_append,List.map_append,List.sum_append,emptied,Nat.zero_add]
  by_cases here : p (o.setValue a) = true
  · rw [List.filter_cons_of_pos here,List.map_cons,List.sum_cons,emptied,getValueSet,if_pos here,Nat.add_zero]
  · rw [List.filter_cons_of_neg here,emptied,if_neg here]

theorem worthAtLe {p : Output → Bool} {outputs : List Output} :
    ((outputs.filter p).map (·.getValue.val)).sum ≤ (outputs.map (·.getValue.val)).sum :=
  ((List.filter_sublist (p := p)).map _).sum_le_sum (fun _ _ => Nat.zero_le _)

theorem Revalued.keepsPlain {tx' : Transaction} {swapId : SwapId} (revalued : Revalued tx tx')
    (plain : NoDiversion s swapId tx) : NoDiversion s swapId tx' := by
  intro swap recipient recorded entitled
  refine (plain swap recipient recorded entitled).imp_right ?_
  intro values o mem here
  have shape : o.setValue Amount.zero ∈ tx.outputs.map (Output.setValue Amount.zero) := by
    rw [← revalued.outputs]
    exact List.mem_map_of_mem mem
  obtain ⟨old,inside,same⟩ := List.mem_map.mp shape
  have address : (old.setValue Amount.zero).address = (o.setValue Amount.zero).address := congrArg Output.address same
  rw [← setValueIsValue (a := Amount.zero),← same,setValueIsValue]
  exact values old inside (address.trans here)

theorem paysUndiverted {swapId : SwapId} {declared : Option Address} {proof : Option (List Byte)}
    (kind : tx.data = .swapClaim swapId declared proof) (ok : validateSwapClaimConsensus s tx = .ok ())
    (plain : NoDiversion s swapId tx) : PaysClaimer s swapId tx := by
  obtain ⟨swap,recipient,paid,source⟩ := (claimConsensusOk kind).mp ok
  have checked : swap.l2Amount.val ≤ paid.val := source.enough
  rcases plain swap recipient source.recorded source.entitled with nothing | values
  · exact ⟨swap,recipient,source.recorded,source.entitled,by omega⟩
  · have same : tx.plainValueAt recipient = tx.valueAt recipient (fun _ => true) := by
      unfold Transaction.plainValueAt Transaction.valueAt
      refine congrArg (fun l : List Output => (l.map (·.getValue.val)).sum) (List.filter_congr ?_)
      intro o mem
      by_cases here : o.address = recipient
      · simp [here,values o mem here]
      · simp [here]
    rw [amountPaidToVal source.pays,← same] at checked
    exact ⟨swap,recipient,source.recorded,source.entitled,checked⟩

theorem divertedUnpaid {swapId : SwapId} {declared : Option Address} {proof : Option (List Byte)}
    (kind : tx.data = .swapClaim swapId declared proof) (ok : validateSwapClaimConsensus s tx = .ok ())
    (diverts : ¬ NoDiversion s swapId tx) :
    ∃ tx', Revalued tx tx' ∧ validateSwapClaimConsensus s tx' = .ok () ∧ ¬ PaysClaimer s swapId tx' := by
  obtain ⟨swap,recipient,paid,source⟩ := (claimConsensusOk kind).mp ok
  unfold NoDiversion at diverts
  push Not at diverts
  obtain ⟨other,otherRecipient,recorded,entitled,positive,o,mem,there,diverted⟩ := diverts
  obtain rfl : swap = other := Option.some.inj (source.recorded.symm.trans recorded)
  obtain rfl : recipient = otherRecipient := Option.some.inj (source.entitled.symm.trans entitled)
  obtain ⟨pre,post,outputs⟩ := List.append_of_mem mem
  let tx' : Transaction := { tx with outputs := allIn swap.l2Amount pre o post }
  have kind' : tx'.data = .swapClaim swapId declared proof := kind
  have pays : amountPaidTo tx' recipient = .ok swap.l2Amount := by
    rw [amountPaidTo,okOrOk]
    refine sumIs ?_
    rw [Amount.valZero,Nat.zero_add,List.map_map]
    exact allInWorth.trans (if_pos (decide_eq_true there))
  refine ⟨tx',⟨rfl,rfl,?_,?_⟩,(claimConsensusOk kind').mpr ⟨swap,recipient,swap.l2Amount,source.inputs,source.escrow,
    source.recorded,source.entitled,source.declares,pays,Nat.le_refl _⟩,?_⟩
  · rw [outputs]
    have twice : Output.setValue Amount.zero ∘ Output.setValue Amount.zero = Output.setValue Amount.zero :=
      funext fun _ => setValueSet
    simp only [tx',allIn,List.map_append,List.map_cons,List.map_map,setValueSet,twice]
  · have whole := @allInWorth (fun _ => true) swap.l2Amount pre post o
    rw [List.filter_true,if_pos rfl] at whole
    show ((allIn swap.l2Amount pre o post).map (·.getValue.val)).sum ≤ _
    rw [whole]
    calc swap.l2Amount.val ≤ paid.val := source.enough
      _ = ((tx.outputs.filter (fun o => o.address = recipient && true)).map (·.getValue.val)).sum := amountPaidToVal source.pays
      _ ≤ _ := worthAtLe
  · intro paid'
    obtain ⟨found,foundRecipient,foundIs,foundEntitled,enough⟩ := paid'
    obtain rfl : swap = found := Option.some.inj (source.recorded.symm.trans foundIs)
    obtain rfl : recipient = foundRecipient := Option.some.inj (source.entitled.symm.trans foundEntitled)
    have nothing : tx'.plainValueAt recipient = 0 := by
      refine allInWorth.trans (if_neg ?_)
      rw [setValueIsValue]
      simp [diverted]
    omega

theorem paysClaimerIff {swapId : SwapId} {declared : Option Address} {proof : Option (List Byte)}
    (kind : tx.data = .swapClaim swapId declared proof) (ok : validateSwapClaimConsensus s tx = .ok ()) :
    (NoDiversion s swapId tx → PaysClaimer s swapId tx) ∧
    ((∀ tx', Revalued tx tx' → validateSwapClaimConsensus s tx' = .ok () → PaysClaimer s swapId tx') ↔
      NoDiversion s swapId tx) := by
  refine ⟨paysUndiverted kind ok,?_,?_⟩
  · intro always
    by_contra diverts
    obtain ⟨tx',revalued,ok',unpaid⟩ := divertedUnpaid kind ok diverts
    exact unpaid (always tx' revalued ok')
  · intro plain tx' revalued ok'
    exact paysUndiverted (revalued.data.trans kind) ok' (revalued.keepsPlain plain)

section Reached

open Reference

/- Anybody's claim of the swap for Bob: an output at Bob's address that leaves for another's main-chain address. -/
def claimAway : Transaction :=
  transaction [outputOf createNamed 0 namedEscrow] [⟨addressOf bob,.withdrawal ⟨890⟩ ⟨10⟩ ⟨1⟩⟩]
    (.swapClaim namedId none none)

def paysNothing (s : State Forest) : Bool :=
  (validateSwapClaimConsensus s claimAway).isOk &&
    match s.getSwap namedId with
    | some swap => swap.l2Amount = ⟨900⟩ && s.entitledClaimerAt swap s.nextHeight = some (addressOf bob)
    | none => false

theorem claimDivertsPayout : ∃ s tx declared proof, Reachable externals context s ∧
    tx.data = .swapClaim namedId declared proof ∧ validateSwapClaimConsensus s tx = .ok () ∧
    ¬ PaysClaimer s namedId tx := by
  have played : reaches (funded ++ [grow [(createNamed,[alice])]]) paysNothing = true := by decide +kernel
  obtain ⟨s,reachable,checked⟩ := reachesReachable played
  simp only [paysNothing,Bool.and_eq_true] at checked
  obtain ⟨valid,entitled⟩ := checked
  obtain ⟨_,ok⟩ := isOkExists valid
  refine ⟨s,claimAway,none,none,reachable,rfl,ok,?_⟩
  intro pays
  obtain ⟨swap,recipient,recorded,isEntitled,enough⟩ := pays
  rw [recorded] at entitled
  simp only [Bool.and_eq_true,decide_eq_true_eq] at entitled
  obtain ⟨amount,bobEntitled⟩ := entitled
  obtain rfl : recipient = addressOf bob := Option.some.inj (isEntitled.symm.trans bobEntitled)
  have nothing : claimAway.plainValueAt (addressOf bob) = 0 := by decide +kernel
  rw [nothing,amount] at enough
  exact absurd enough (by decide)

theorem plainClaimPays : ∃ s, Reachable externals context s ∧ validateSwapClaimConsensus s claimNamed = .ok () ∧
    PaysClaimer s namedId claimNamed := by
  have played : reaches (funded ++ [grow [(createNamed,[alice])]])
      (fun s => (validateSwapClaimConsensus s claimNamed).isOk) = true := by decide +kernel
  obtain ⟨s,reachable,valid⟩ := reachesReachable played
  obtain ⟨_,ok⟩ := isOkExists valid
  refine ⟨s,reachable,ok,(paysClaimerIff rfl ok).1 ?_⟩
  intro swap recipient _ _
  right
  simp [claimNamed,transaction,coin,Content.isValue]

end Reached

end Coinshift
