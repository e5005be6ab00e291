import Coinshift.BlockEffects
import Coinshift.Reference

/-! Who authorizes a spend.
An authorization belongs to one input, in the order of the body. The address check is left out for
a `SwapPending` output that a claim spends; the lock of that output then has to speak for it. -/
namespace Coinshift
open Checked

variable {F : Type} {lib : Externals F} {ctxt : BatchVerificationContext} {s : State F}
  {authorizations : List Authorization} {txs : List Transaction} {filled : List FilledTransaction}

def spends (txs : List Transaction) : List (Transaction × OutPoint) :=
  txs.flatMap (fun tx => tx.inputs.map (fun input => (tx,input.1)))

def SignedByOwner (lib : Externals F) (authorizations : List Authorization) (i : Nat) (tx : Transaction)
    (utxo : Output) : Prop :=
  ∃ a, authorizations[i]? = some a ∧
    lib.verifySignature a.verifyingKey a.signature (encodeTransaction lib tx) = true ∧
    a.getAddress lib = utxo.address

def SpentByOwnClaim (s : State F) (tx : Transaction) (o : OutPoint) : Prop :=
  ∃ swapId declared proof, tx.data = .swapClaim swapId declared proof ∧ s.isOutputLockedToSwap o = some swapId

def SpendsAuthorized (lib : Externals F) (s : State F) (authorizations : List Authorization)
    (txs : List Transaction) : Prop :=
  ∀ (i : Nat) (tx : Transaction) (o : OutPoint), (spends txs)[i]? = some (tx,o) → ∀ utxo, s.utxos.tryGet o = some utxo →
    SignedByOwner lib authorizations i tx utxo ∨ SpentByOwnClaim s tx o

/- Each `SwapPending` output that a claim spends while no lock is on it comes with its owner's key. -/
def UnlockedEscrowOwned (lib : Externals F) (s : State F) (authorizations : List Authorization)
    (txs : List Transaction) : Prop :=
  ∀ (i : Nat) (tx : Transaction) (o : OutPoint), (spends txs)[i]? = some (tx,o) → tx.data.isSwapClaim = true →
    ∀ utxo, s.utxos.tryGet o = some utxo → utxo.content.isSwapPending = true → s.isOutputLockedToSwap o = none →
      ∃ a : Authorization, authorizations[i]? = some a ∧ a.getAddress lib = utxo.address

section Positions

theorem spendsMessages : authorizationMessages lib txs = (spends txs).map (fun spend => encodeTransaction lib spend.1) := by
  rw [authorizationMessages,spends,List.map_flatMap]
  congr 1
  funext tx
  rw [List.map_map]
  exact List.map_const'.symm

theorem spendsExemptions (fills : List.Forall₂ (FillSource s) txs filled) :
    List.Forall₂ (fun spend checked => s.utxos.tryGet spend.2 = some checked.1 ∧
      checked.2 = (spend.1.data.isSwapClaim && checked.1.content.isSwapPending))
      (spends txs) (spentWithExemption filled) := by
  induction fills with
  | nil => exact .nil
  | cons head tail ih =>
      refine List.rel_append ?_ ih
      rw [List.forall₂_map_left_iff,List.forall₂_map_right_iff,head.transaction]
      exact head.spent.imp (fun _ _ found => ⟨found,rfl⟩)

theorem spendsLength : (spends txs).length = (txs.map (fun tx => tx.inputs.length)).sum := by
  simp [spends,List.length_flatMap]

theorem zipAt {α β : Type} {xs : List α} {ys : List β} {i : Nat} {x : α} {y : β} (left : xs[i]? = some x)
    (right : ys[i]? = some y) : (x,y) ∈ xs.zip ys :=
  List.mem_of_getElem? (List.getElem?_zip_eq_some.mpr ⟨left,right⟩)

end Positions

structure InputsChecked (lib : Externals F) (s : State F) (authorizations : List Authorization)
    (txs : List Transaction) (filled : List FilledTransaction) : Prop where
  fills : List.Forall₂ (FillSource s) txs filled
  addresses : checkAddresses lib authorizations filled = .ok ()
  count : authorizations.length = (txs.map (fun tx => tx.inputs.length)).sum
  signatures : ∀ pair ∈ authorizations.zip (authorizationMessages lib txs),
    lib.verifySignature pair.1.verifyingKey pair.1.signature pair.2 = true
  ownLocks : ∀ tx ∈ txs, ∀ swapId declared proof, tx.data = .swapClaim swapId declared proof →
    ∀ input ∈ tx.inputs, ∀ locked, s.isOutputLockedToSwap input.1 = some locked → locked = swapId

theorem InputsChecked.signed (checked : InputsChecked lib s authorizations txs filled) {i : Nat} {tx : Transaction}
    {o : OutPoint} {utxo : Output} (spent : (spends txs)[i]? = some (tx,o)) (found : s.utxos.tryGet o = some utxo) :
    ∃ a, authorizations[i]? = some a ∧
      lib.verifySignature a.verifyingKey a.signature (encodeTransaction lib tx) = true ∧
      ((tx.data.isSwapClaim = true ∧ utxo.content.isSwapPending = true) ∨ a.getAddress lib = utxo.address) := by
  have bound : i < authorizations.length := by
    rw [checked.count,← spendsLength]
    exact (List.getElem?_eq_some_iff.mp spent).1
  refine ⟨_,List.getElem?_eq_getElem bound,?_,?_⟩
  · have message : (authorizationMessages lib txs)[i]? = some (encodeTransaction lib tx) := by
      rw [spendsMessages,List.getElem?_map,spent]
      rfl
    exact checked.signatures _ (zipAt (List.getElem?_eq_getElem bound) message)
  · obtain ⟨checkedOutput,atIndex,same,isExempt⟩ := relatedAt (spendsExemptions checked.fills) spent
    have outputIs : checkedOutput.1 = utxo := Option.some.inj (same.symm.trans found)
    have passed := checkAllOk.mp checked.addresses _ (zipAt (List.getElem?_eq_getElem bound) atIndex)
    rw [ensureOk] at passed
    simpa only [isExempt,outputIs,Bool.and_eq_true] using passed

theorem InputsChecked.spent (checked : InputsChecked lib s authorizations txs filled) :
    SpendsAuthorized lib s authorizations txs ↔ UnlockedEscrowOwned lib s authorizations txs := by
  constructor
  · intro authorized i tx o spent _ utxo found _ unlocked
    rcases authorized i tx o spent utxo found with signed | ⟨swapId,_,_,_,locked⟩
    · obtain ⟨a,atIndex,_,owner⟩ := signed
      exact ⟨a,atIndex,owner⟩
    · rw [unlocked] at locked
      cases locked
  · intro owned i tx o spent utxo found
    obtain ⟨a,atIndex,verified,exempt | owner⟩ := checked.signed spent found
    · cases locked : s.isOutputLockedToSwap o with
      | none =>
          obtain ⟨b,same,owner⟩ := owned i tx o spent exempt.1 utxo found exempt.2 locked
          have keys : b = a := Option.some.inj (same.symm.trans atIndex)
          exact .inl ⟨a,atIndex,verified,keys ▸ owner⟩
      | some lockedTo =>
          obtain ⟨tx',mem,isInput⟩ := List.mem_flatMap.mp (List.mem_of_getElem? spent)
          obtain ⟨input,inside,same⟩ := List.mem_map.mp isInput
          cases same
          cases kind : tx.data with
          | swapClaim swapId declared proof =>
              have own := checked.ownLocks tx mem swapId declared proof kind input inside lockedTo locked
              exact .inr ⟨swapId,declared,proof,kind,own ▸ locked⟩
          | _ => simp [kind,TxData.isSwapClaim] at exempt
    · exact .inl ⟨a,atIndex,verified,owner⟩

theorem blockInputsChecked (sound : BatchSound lib ctxt) {header : Header} {body : Body} {pre : PrevalidatedBlock}
    (ok : prevalidate lib s ctxt header body = .ok pre) :
    InputsChecked lib s body.authorizations body.transactions pre.filledTransactions := by
  have source := prevalidateSource ok
  obtain ⟨count,signatures⟩ := (verifyAuthorizationsOk sound).mp source.authorized
  refine ⟨source.transactions.imp (fun _ _ tx => tx.fill),source.addresses,count,signatures,?_⟩
  intro tx mem swapId declared proof kind
  obtain ⟨_,_,_,rules⟩ := source.claim mem kind
  exact rules.inputs

theorem transactionInputsChecked (sound : BatchSound lib ctxt) {tx : AuthorizedTransaction} {fee : Amount}
    (ok : validateTransaction lib s ctxt tx = .ok fee) :
    ∃ filled, InputsChecked lib s tx.authorizations [tx.transaction] [filled] := by
  simp only [validateTransaction,bindOk,mapErrorOk] at ok
  obtain ⟨filled,fill,_,rules,_,addresses,_,authorized,_⟩ := ok
  obtain ⟨count,signatures⟩ := (verifyAuthorizedTransactionOk sound).mp authorized
  refine ⟨filled,.cons (fillSource fill) .nil,addresses,by simpa using count,?_,?_⟩
  · intro pair mem
    obtain ⟨a,message⟩ := pair
    obtain ⟨inside,isMessage⟩ := List.of_mem_zip mem
    have same : message = encodeTransaction lib tx.transaction := by
      simp only [authorizationMessages,List.flatMap_cons,List.flatMap_nil,List.append_nil] at isMessage
      exact List.eq_of_mem_replicate isMessage
    rw [same]
    exact signatures a inside
  · intro other mem swapId declared proof kind
    obtain rfl : other = tx.transaction := List.mem_singleton.mp mem
    simp only [validateMempoolTransaction,kind,validateSwapClaim,bindOk] at rules
    obtain ⟨_,_,_,_,_,_,consensus⟩ := rules
    obtain ⟨_,_,_,claim⟩ := (claimConsensusOk kind).mp consensus
    exact claim.inputs

theorem spendsAuthorizedIff (sound : BatchSound lib ctxt) :
    (∀ header body pre, prevalidate lib s ctxt header body = .ok pre →
      (SpendsAuthorized lib s body.authorizations body.transactions ↔
        UnlockedEscrowOwned lib s body.authorizations body.transactions)) ∧
    ∀ tx fee, validateTransaction lib s ctxt tx = .ok fee →
      (SpendsAuthorized lib s tx.authorizations [tx.transaction] ↔
        UnlockedEscrowOwned lib s tx.authorizations [tx.transaction]) := by
  refine ⟨?_,?_⟩
  · intro header body pre ok
    exact (blockInputsChecked sound ok).spent
  · intro tx fee ok
    obtain ⟨filled,checked⟩ := transactionInputsChecked sound ok
    exact checked.spent

section Reached

open Reference

def bobId : SwapId := SwapId.fromL2ToL1 externals ['y'] ⟨1⟩ (addressOf bob) (some (addressOf bob))

def bobEscrow : Output := ⟨addressOf bob,.swapPending ⟨10⟩ bobId⟩

def createBob : Transaction :=
  transaction [deposited 2 (coin bob 500)] [bobEscrow,coin bob 490]
    (.swapCreate ⟨bobId,.regtest,List.replicate 32 0,1,some (addressOf bob),10,['y'],1⟩)

def expired : List Move :=
  funded ++ [grow [(createNamed,[alice])]] ++ List.replicate 50 (grow []) ++ [grow [(createBob,[bob])]]

/- A claim of Bob's swap that takes what Alice's expired swap had escrowed. -/
def claimBoth : Transaction :=
  transaction [outputOf createBob 0 bobEscrow,outputOf createNamed 0 namedEscrow] [coin bob 910]
    (.swapClaim bobId none none)

def claimBothBlock : Body := Reference.body [(claimBoth,[bob,bob])] []

def takesUnlocked (s : State Forest) : Bool :=
  accepts claimBothBlock s && (s.isOutputLockedToSwap (outputOf createNamed 0 namedEscrow).1).isNone &&
    s.utxos.tryGet (outputOf createNamed 0 namedEscrow).1 = some namedEscrow

theorem unlockedEscrowTaken : ∃ s header body pre, BatchSound externals context ∧ Reachable externals context s ∧
    prevalidate externals s context header body = .ok pre ∧
    ¬ SpendsAuthorized externals s body.authorizations body.transactions := by
  have played : reaches expired takesUnlocked = true := by decide +kernel
  obtain ⟨s,reachable,checked⟩ := reachesReachable played
  simp only [takesUnlocked,Bool.and_eq_true,decide_eq_true_eq,Option.isNone_iff_eq_none] at checked
  obtain ⟨⟨accepted,unlocked⟩,found⟩ := checked
  obtain ⟨pre,ok⟩ := acceptsOk accepted
  refine ⟨s,_,claimBothBlock,pre,batchSound,reachable,ok,?_⟩
  intro authorized
  have spent : (spends claimBothBlock.transactions)[1]? = some (claimBoth,(outputOf createNamed 0 namedEscrow).1) := rfl
  rcases authorized 1 _ _ spent namedEscrow found with ⟨a,atIndex,_,owner⟩ | ⟨_,_,_,_,locked⟩
  · have isBob : a = sign bob claimBoth := (Option.some.inj atIndex).symm
    have different : addressOf bob ≠ addressOf alice := by decide +kernel
    rw [isBob] at owner
    exact different owner
  · rw [unlocked] at locked
    cases locked

def regularBlock : Body :=
  Reference.body [(transaction [deposited 1 (coin alice 1000)] [coin bob 1000] .regular,[alice])] []

theorem regularSpendAuthorized : ∃ s header pre, Reachable externals context s ∧
    prevalidate externals s context header regularBlock = .ok pre ∧
    SpendsAuthorized externals s regularBlock.authorizations regularBlock.transactions := by
  have played : reaches funded (accepts regularBlock) = true := by decide +kernel
  obtain ⟨s,reachable,accepted⟩ := reachesReachable played
  obtain ⟨pre,ok⟩ := acceptsOk accepted
  refine ⟨s,_,pre,reachable,ok,((spendsAuthorizedIff batchSound).1 _ _ _ ok).mpr ?_⟩
  intro i tx o spent isClaim
  obtain ⟨_,mem,isInput⟩ := List.mem_flatMap.mp (List.mem_of_getElem? spent)
  obtain ⟨_,_,same⟩ := List.mem_map.mp isInput
  cases same
  obtain rfl := List.mem_singleton.mp mem
  cases isClaim

end Reached

end Coinshift
