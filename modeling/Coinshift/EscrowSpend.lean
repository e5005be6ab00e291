import Coinshift.Reference

/-! Who may spend an output that is locked to a swap. -/
namespace Coinshift
open Checked

variable {F : Type} {lib : Externals F} {ctxt : BatchVerificationContext} {s : State F}
  {header : Header} {body : Body} {pre : PrevalidatedBlock}

def EscrowSpentByClaim (s : State F) (body : Body) : Prop :=
  ∀ tx ∈ body.transactions, ∀ input ∈ tx.inputs, ∀ swapId, s.isOutputLockedToSwap input.1 = some swapId →
    ∃ declared proof, tx.data = .swapClaim swapId declared proof

/- As above, or through the creation of that very swap while it has no record. -/
def EscrowSpentByOwnSwap (s : State F) (body : Body) : Prop :=
  ∀ tx ∈ body.transactions, ∀ input ∈ tx.inputs, ∀ swapId, s.isOutputLockedToSwap input.1 = some swapId →
    (∃ declared proof, tx.data = .swapClaim swapId declared proof) ∨
    ∃ create, tx.data = .swapCreate create ∧ create.swapId = swapId ∧ s.getSwap swapId = none

def NoMixedEscrow (s : State F) (body : Body) : Prop :=
  ∀ tx ∈ body.transactions, ∀ i ∈ tx.inputs, ∀ j ∈ tx.inputs, ∀ a b,
    s.isOutputLockedToSwap i.1 = some a → s.isOutputLockedToSwap j.1 = some b → a = b

theorem transactionSpendsOwn {tx : Transaction} {filled : FilledTransaction}
    (source : TransactionSource lib s tx filled) {input : OutPoint × Hash} (mem : input ∈ tx.inputs) {swapId : SwapId}
    (locked : s.isOutputLockedToSwap input.1 = some swapId) :
    (∃ declared proof, tx.data = .swapClaim swapId declared proof) ∨
    ∃ create, tx.data = .swapCreate create ∧ create.swapId = swapId ∧ s.getSwap swapId = none := by
  cases kind : tx.data with
  | regular =>
      rw [source.regular kind mem] at locked
      cases locked
  | swapAccept accepted claimer =>
      obtain ⟨swap,accept⟩ := source.accept kind
      rw [accept.inputs input mem] at locked
      cases locked
  | swapCreate create =>
      have rules := source.create kind
      have own := rules.inputs input mem swapId locked
      exact .inr ⟨create,rfl,own.symm,own ▸ rules.unrecorded⟩
  | swapClaim claimed declared proof =>
      obtain ⟨swap,recipient,paid,rules⟩ := source.claim kind
      have own := rules.inputs input mem swapId locked
      exact .inl ⟨declared,proof,own ▸ rfl⟩

theorem escrowSpentByOwnSwap (ok : prevalidate lib s ctxt header body = .ok pre) :
    EscrowSpentByOwnSwap s body ∧ NoMixedEscrow s body := by
  have source := prevalidateSource ok
  refine ⟨?_,?_⟩
  · intro tx mem input inside swapId locked
    obtain ⟨f,_,txSource⟩ := relatedLeft source.transactions mem
    exact transactionSpendsOwn txSource inside locked
  · intro tx mem i insideI j insideJ a b lockedI lockedJ
    obtain ⟨f,_,txSource⟩ := relatedLeft source.transactions mem
    have first := transactionSpendsOwn txSource insideI lockedI
    have second := transactionSpendsOwn txSource insideJ lockedJ
    rcases first with ⟨_,_,claim⟩ | ⟨create,kind,own,_⟩
    · rcases second with ⟨_,_,claim'⟩ | ⟨create',kind',_⟩
      · rw [claim] at claim'
        exact (TxData.swapClaim.inj claim').1
      · rw [claim] at kind'
        cases kind'
    · rcases second with ⟨_,_,claim'⟩ | ⟨create',kind',own',_⟩
      · rw [kind] at claim'
        cases claim'
      · rw [kind] at kind'
        cases kind'
        exact own.symm.trans own'

section Reached

open Reference

/- A rolled back claim leaves Bob's coin locked to a swap that is then rolled back as well. -/
def rolledBack : List Move :=
  funded ++ [grow [(createNamed,[alice])],grow [(claimWithCoin,[bob,bob])],.shrink,.shrink]

def createAgain : Transaction :=
  transaction [deposited 1 (coin alice 1000),deposited 2 (coin bob 500)] [namedEscrow,coin alice 600]
    (.swapCreate namedCreate)

def againBlock : Body := Reference.body [(createAgain,[alice,bob])] []

def coinStillLocked (s : State Forest) : Bool :=
  s.isOutputLockedToSwap (deposited 2 (coin bob 500)).1 = some namedId && accepts againBlock s

theorem ownCreateSpendsEscrow : ∃ s header body pre, Reachable externals context s ∧
    prevalidate externals s context header body = .ok pre ∧ ¬ EscrowSpentByClaim s body := by
  have played : reaches rolledBack coinStillLocked = true := by decide +kernel
  obtain ⟨s,reachable,checked⟩ := reachesReachable played
  simp only [coinStillLocked,Bool.and_eq_true,decide_eq_true_eq] at checked
  obtain ⟨pre,ok⟩ := acceptsOk checked.2
  refine ⟨s,_,againBlock,pre,reachable,ok,?_⟩
  intro byClaim
  have input : spending (deposited 2 (coin bob 500)).1 (coin bob 500) ∈ createAgain.inputs :=
    List.mem_cons_of_mem _ List.mem_cons_self
  obtain ⟨declared,proof,kind⟩ := byClaim createAgain List.mem_cons_self _ input namedId checked.1
  have fields : TxData.swapCreate namedCreate = .swapClaim namedId declared proof := kind
  exact absurd fields (by simp only [reduceCtorEq,not_false_eq_true])

def claimCoinBlock : Body := Reference.body [(claimWithCoin,[bob,bob])] []

theorem claimSpendsOwnEscrow : ∃ s header pre, Reachable externals context s ∧
    prevalidate externals s context header claimCoinBlock = .ok pre ∧
    EscrowSpentByOwnSwap s claimCoinBlock ∧ NoMixedEscrow s claimCoinBlock := by
  have played : reaches (funded ++ [grow [(createNamed,[alice])]]) (accepts claimCoinBlock) = true := by decide +kernel
  obtain ⟨s,reachable,accepted⟩ := reachesReachable played
  obtain ⟨pre,ok⟩ := acceptsOk accepted
  exact ⟨s,_,pre,reachable,ok,escrowSpentByOwnSwap ok⟩

end Reached

end Coinshift
