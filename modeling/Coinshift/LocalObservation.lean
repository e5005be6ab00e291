import Coinshift.ConsensusView
import Coinshift.Reference

/-! Two nodes on one chain that see the parent chain differently.
What a node has seen decides one thing about its tables: whether a swap past its expiry height is still
awaiting the payment, and so expires, or is ready to be claimed, and stays locked. -/
namespace Coinshift
open Checked SwapTables

variable {F : Type} {lib : Externals F} {ctxt : BatchVerificationContext} {s t s' t' : State F}

/- Two nodes that connect the same blocks and peg data, each with its own replies from the parent chains
and its own observations in between. `allowed` restricts the pairs of states in which peg data comes in. -/
inductive Together (lib : Externals F) (ctxt : BatchVerificationContext) (allowed : State F → State F → Prop) :
    State F → State F → Prop where
  | start : Together lib ctxt allowed (State.new F) (State.new F)
  | left {s t op} (before : Together lib ctxt allowed s t) (observation : LocalOp.isObservation op = true) :
      Together lib ctxt allowed (op.call s) t
  | right {s t op} (before : Together lib ctxt allowed s t) (observation : LocalOp.isObservation op = true) :
      Together lib ctxt allowed s (op.call t)
  | block {s t s' t' header body} (before : Together lib ctxt allowed s t)
      (left : connectBlock lib ctxt s header body = .ok s') (right : connectBlock lib ctxt t header body = .ok t') :
      Together lib ctxt allowed s' t'
  | peg {s t s' t' data rpc rpc'} (before : Together lib ctxt allowed s t) (isAllowed : allowed s t)
      (left : connectTwoWayPegData lib s data rpc = .ok s') (right : connectTwoWayPegData lib t data rpc' = .ok t') :
      Together lib ctxt allowed s' t'

structure SameConsensus (lib : Externals F) (ctxt : BatchVerificationContext) (s t : State F) : Prop where
  utxos : s.utxos = t.utxos
  stxos : s.stxos = t.stxos
  lockedSwapOutputs : s.lockedSwapOutputs = t.lockedSwapOutputs
  swapReservations : s.swapReservations = t.swapReservations
  verdict : ∀ header body, prevalidate lib s ctxt header body = prevalidate lib t ctxt header body

/- Of the swaps at or past their expiry height, the two nodes hold the same ones ready to be claimed. -/
def AgreeOnExpired (s t : State F) : Prop :=
  ∀ height, s.height = some height → ∀ swapId a b, s.getSwap swapId = some a → t.getSwap swapId = some b →
    a.isExpiredAt height = true → (a.state = .readyToClaim ↔ b.state = .readyToClaim)

theorem Alike.sameConsensus (alike : Alike s t) : SameConsensus lib ctxt s t where
  utxos := alike.utxos
  stxos := congrArg Ledger.stxos alike.ledger
  lockedSwapOutputs := Table.ext (fun o => congrFun alike.swaps.locks o)
  swapReservations := Table.ext (fun swapId => congrFun alike.swaps.reservations swapId)
  verdict := alike.verdict

section Peg

theorem Swap.Alike.expires {a b : Swap} {height : Nat} (alike : a.Alike b)
    (agree : a.isExpiredAt height = true → (a.state = .readyToClaim ↔ b.state = .readyToClaim)) :
    a.expiresAt height = b.expiresAt height := by
  have expiry : a.expiresAtHeight = b.expiresAtHeight := congrArg SwapTerms.expiresAtHeight alike.terms
  have expired : a.isExpiredAt height = b.isExpiredAt height := by rw [Swap.isExpiredAt,Swap.isExpiredAt,expiry]
  have unsettled := alike.unsettled
  unfold Swap.expiresAt
  rw [← expired]
  cases isExpired : a.isExpiredAt height with
  | false => simp
  | true =>
      have ready := agree isExpired
      simp only [Swap.isUnsettled] at unsettled
      by_cases isReady : a.state = .readyToClaim
      · simp [Swap.isAwaiting,isReady,ready.mp isReady]
      · have notReady : b.state ≠ .readyToClaim := fun other => isReady (ready.mpr other)
        simpa [isReady,notReady] using unsettled

theorem pegRecordAlike {a b a' b' : Swap} {height : Nat} (alike : a.Alike b)
    (expires : a.expiresAt height = b.expiresAt height) (left : a.PegRecord height a') (right : b.PegRecord height b') :
    a'.Alike b' := by
  unfold Swap.PegRecord at left right
  rw [← expires] at right
  split at left
  · next isExpired =>
      rw [if_pos isExpired] at right
      subst left right
      exact ⟨alike.terms,rfl⟩
  · next remains =>
      rw [if_neg remains] at right
      exact ((alike.observed left).symm.observed right).symm

theorem pegSwapsAlike {height : Nat} {w v w' v' : SwapTables} (alike : SwapsAlike w v)
    (agree : ∀ swapId a b, w.getSwap swapId = some a → v.getSwap swapId = some b →
      a.expiresAt height = b.expiresAt height)
    (left : PegSwapEffect height w w') (right : PegSwapEffect height v v') : SwapsAlike w' v' := by
  refine ⟨?_,?_,?_⟩
  · funext o
    rcases left.lock o with ⟨swapId,a,locked,recorded,expires,released⟩ | ⟨safe,kept⟩
    · rw [released]
      rcases alike.cases swapId with ⟨missing,_⟩ | ⟨a',b,found,found',_⟩
      · rw [missing] at recorded
        cases recorded
      · obtain rfl : a' = a := Option.some.inj (found.symm.trans recorded)
        rw [agree swapId a' b found found'] at expires
        rw [alike.locks] at locked
        exact (right.released o swapId b locked found' expires).symm
    · rw [kept,alike.locks]
      refine (right.kept o ?_).symm
      intro swapId b locked recorded
      rw [← alike.locks] at locked
      rcases alike.cases swapId with ⟨_,missing⟩ | ⟨a,b',found,found',_⟩
      · rw [missing] at recorded
        cases recorded
      · obtain rfl : b' = b := Option.some.inj (found'.symm.trans recorded)
        rw [← agree swapId a b' found found']
        exact safe swapId a locked found
  · funext swapId
    rw [getSwapReservation,getSwapReservation,left.reservations,right.reservations]
    exact congrFun alike.reservations swapId
  · intro swapId
    have afterLeft := left.records swapId
    have afterRight := right.records swapId
    rcases alike.cases swapId with ⟨missing,missing'⟩ | ⟨a,b,found,found',both⟩
    · rw [missing] at afterLeft
      rw [missing'] at afterRight
      generalize w'.getSwap swapId = recordLeft at *
      generalize v'.getSwap swapId = recordRight at *
      cases afterLeft
      cases afterRight
      exact .none
    · rw [found] at afterLeft
      rw [found'] at afterRight
      generalize w'.getSwap swapId = recordLeft at *
      generalize v'.getSwap swapId = recordRight at *
      cases afterLeft with
      | some recordA =>
          cases afterRight with
          | some recordB => exact .some (pegRecordAlike both (agree swapId a b found found') recordA recordB)

theorem pegAlike {data : TwoWayPegData} {rpc rpc' : RpcReplies} (alike : Alike s t) (agree : AgreeOnExpired s t)
    (left : connectTwoWayPegData lib s data rpc = .ok s') (right : connectTwoWayPegData lib t data rpc' = .ok t') :
    Alike s' t' := by
  have same : t = { s with toSwapTables := t.toSwapTables } := by
    obtain ⟨ledger,pegs,tip,height,accumulator,_⟩ := alike
    cases s
    cases t
    simp_all
  obtain ⟨w,framed⟩ := connectPegFrame left rpc' t.toSwapTables
  rw [← same,right] at framed
  have result := Except.ok.inj framed
  obtain ⟨height,heightIs,effect⟩ := (connectPegSource left).effect
  obtain ⟨height',heightIs',effect'⟩ := (connectPegSource right).effect
  rw [alike.height,heightIs'] at heightIs
  obtain rfl := Option.some.inj heightIs
  refine ⟨?_,?_,?_,?_,?_,pegSwapsAlike alike.swaps ?_ effect effect'⟩
  · rw [result]
  · rw [result]
  · rw [result]
  · rw [result]
  · rw [result]
  · intro swapId a b found found'
    rcases alike.swaps.cases swapId with ⟨missing,_⟩ | ⟨a',b',foundA,foundB,both⟩
    · rw [missing] at found
      cases found
    · obtain rfl : a' = a := Option.some.inj (foundA.symm.trans found)
      obtain rfl : b' = b := Option.some.inj (foundB.symm.trans found')
      exact both.expires (agree height' (alike.height.trans heightIs') swapId a' b' found found')

end Peg

theorem newAlike : Alike (State.new F) (State.new F) := by
  refine ⟨rfl,rfl,rfl,rfl,rfl,rfl,rfl,?_⟩
  intro swapId
  have none : (State.new F).getSwap swapId = none := Table.tryGetEmpty
  rw [none]
  exact .none

theorem togetherAlike (together : Together lib ctxt AgreeOnExpired s t) : Alike s t := by
  induction together with
  | start => exact newAlike
  | left _ observation ih => exact callAlike observation ih
  | right _ observation ih => exact (callAlike observation ih.symm).symm
  | block _ left right ih => exact connectAlike ih left right
  | peg _ agree left right ih => exact pegAlike ih agree left right

theorem observationsIndependent (together : Together lib ctxt AgreeOnExpired s t) : SameConsensus lib ctxt s t :=
  (togetherAlike together).sameConsensus

section Reached

open Reference

inductive JointMove where
  | grow (body : Body) (deposits : List Deposit)
  | left (op : LocalOp)

def jointStep (check : State Forest → State Forest → Bool) (nodes : State Forest × State Forest) :
    JointMove → Except Error (State Forest × State Forest)
  | .grow body deposits => do
      let s ← connectBlock externals context nodes.1 (mine nodes.1 body) body
      let t ← connectBlock externals context nodes.2 (mine nodes.1 body) body
      ensure (check s t = true) .panic
      let s' ← connectTwoWayPegData externals s (pegData deposits) noRpc
      let t' ← connectTwoWayPegData externals t (pegData deposits) noRpc
      pure (s',t')
  | .left op => do
      ensure (op.isObservation = true) .panic
      pure (op.call nodes.1,nodes.2)

def joint (check : State Forest → State Forest → Bool) (moves : List JointMove) :
    Except Error (State Forest × State Forest) :=
  moves.foldlM (jointStep check) (State.new Forest,State.new Forest)

theorem jointTogether {check : State Forest → State Forest → Bool} {allowed : State Forest → State Forest → Prop}
    (sound : ∀ s t, check s t = true → allowed s t) {moves : List JointMove} {nodes : State Forest × State Forest}
    (ok : joint check moves = .ok nodes) : Together externals context allowed nodes.1 nodes.2 := by
  refine foldInvariant (P := fun nodes => Together externals context allowed nodes.1 nodes.2) ?_ .start ok
  intro before move after _ together step
  cases move with
  | grow body deposits =>
      simp only [jointStep,bindOk,ensureOk,pureOk] at step
      obtain ⟨s,left,t,right,_,checked,s',pegLeft,t',pegRight,rfl⟩ := step
      exact .peg (.block together left right) (sound s t checked) pegLeft pegRight
  | left op =>
      simp only [jointStep,bindOk,ensureOk,pureOk] at step
      obtain ⟨_,observation,rfl⟩ := step
      exact .left together observation

def seenByLeft : List JointMove :=
  [.grow (Reference.body [] []) [deposit 1 (coin alice 1000),deposit 2 (coin bob 500)],
    .grow (Reference.body [(createNamed,[alice])] []) [],
    .left (.updateSwapL1Txid namedId (.hash32 5) 1 none none 0 1)]

def escrowOfAlice : OutPoint := (outputOf createNamed 0 namedEscrow).1

def splitAtExpiry : Bool :=
  match joint (fun _ _ => true) (seenByLeft ++ List.replicate 50 (.grow (Reference.body [] []) [])) with
  | .ok nodes => nodes.1.isOutputLockedToSwap escrowOfAlice = some namedId &&
      (nodes.2.isOutputLockedToSwap escrowOfAlice).isNone
  | .error _ => false

theorem observationsSplit : ∃ s t, Together externals context (fun _ _ => True) s t ∧
    ¬ SameConsensus externals context s t := by
  have played : splitAtExpiry = true := by decide +kernel
  unfold splitAtExpiry at played
  split at played
  · next nodes ok =>
      simp only [Bool.and_eq_true,decide_eq_true_eq,Option.isNone_iff_eq_none] at played
      obtain ⟨locked,unlocked⟩ := played
      refine ⟨nodes.1,nodes.2,jointTogether (fun _ _ _ => trivial) ok,?_⟩
      intro same
      rw [isOutputLockedToSwap,same.lockedSwapOutputs] at locked
      rw [isOutputLockedToSwap,locked] at unlocked
      cases unlocked
  · cases played

def noneExpired (s _ : State Forest) : Bool :=
  s.loadAllSwaps.all (fun swap => s.height.all (fun height => ! swap.isExpiredAt height))

theorem noneExpiredAgree (s t : State Forest) (none : noneExpired s t = true) : AgreeOnExpired s t := by
  intro height heightIs swapId a b recorded _ expired
  rw [← getSwapId recorded] at recorded
  have remains := List.all_eq_true.mp none a (memLoadAllSwaps.mpr recorded)
  rw [heightIs] at remains
  simp [expired] at remains

theorem seenBeforeExpiry : ∃ s t, Together externals context AgreeOnExpired s t ∧
    s.getSwap namedId ≠ t.getSwap namedId ∧ SameConsensus externals context s t := by
  have played : (match joint noneExpired seenByLeft with
      | .ok nodes => decide (nodes.1.getSwap namedId ≠ nodes.2.getSwap namedId)
      | .error _ => false) = true := by decide +kernel
  split at played
  · next nodes ok =>
      have together := jointTogether noneExpiredAgree ok
      exact ⟨nodes.1,nodes.2,together,of_decide_eq_true played,observationsIndependent together⟩
  · cases played

end Reached

end Coinshift
