import Coinshift.LedgerChanges
import Coinshift.Reference

/-! The wallet's tables and how they are brought up to date.
Addresses are derived from the wallet's seed, the address of an index by a function that the model takes as given. -/
namespace Coinshift
open Checked

/- Four bytes, stored big-endian. -/
abbrev AddressIndex := BitVec 32

structure Wallet where
  addressToIndex : Table Address AddressIndex
  indexToAddress : Table AddressIndex Address
  utxos : Table OutPoint Output
  stxos : Table OutPoint SpentOutput

namespace Wallet

def new : Wallet := ⟨∅,∅,∅,∅⟩

def getAddresses (wallet : Wallet) : List Address := wallet.indexToAddress.entries.map (·.2)

def nextIndex (wallet : Wallet) : AddressIndex :=
  match wallet.indexToAddress.entries.getLast? with
  | some (lastIndex,_) => lastIndex + 1
  | none => 0

def getNewAddress (derive : AddressIndex → Address) (wallet : Wallet) : Wallet :=
  let index := wallet.nextIndex
  { wallet with
    indexToAddress := wallet.indexToAddress.put index (derive index)
    addressToIndex := wallet.addressToIndex.put (derive index) index }

def spendUtxo (wallet : Wallet) (spent : OutPoint × InPoint) : Wallet :=
  match wallet.utxos.tryGet spent.1 with
  | none => wallet
  | some output => { wallet with
      utxos := wallet.utxos.delete spent.1
      stxos := wallet.stxos.put spent.1 ⟨output,spent.2⟩ }

def spendUtxos (wallet : Wallet) (spent : List (OutPoint × InPoint)) : Wallet := spent.foldl spendUtxo wallet

def putUtxos (wallet : Wallet) (utxos : List (OutPoint × Output)) : Wallet :=
  utxos.foldl (fun wallet utxo => { wallet with utxos := wallet.utxos.put utxo.1 utxo.2 }) wallet

end Wallet

variable {F : Type}

def getUtxosByAddresses (l : Ledger) (addresses : List Address) : List (OutPoint × Output) :=
  l.utxos.entries.filter (fun utxo => utxo.2.address ∈ addresses)

def getSpentUtxos (l : Ledger) (outpoints : List OutPoint) : List (OutPoint × SpentOutput) :=
  outpoints.filterMap (fun outpoint => (l.stxos.tryGet outpoint).map (fun output => (outpoint,output)))

def updateWallet (node : Ledger) (wallet : Wallet) : Wallet :=
  let utxos := getUtxosByAddresses node wallet.getAddresses
  let outpoints := wallet.utxos.entries.map (·.1)
  let spent := (getSpentUtxos node outpoints).map (fun spent => (spent.1,spent.2.inpoint))
  (wallet.putUtxos utxos).spendUtxos spent

inductive ClaimError where
  | swapNotFound
  | notReadyToClaim
  | noLockedOutputs
  | noLiveReservation
  | reservedForAnother
  deriving DecidableEq, Repr

def lockedOutputs (l : Ledger) (swapId : SwapId) : List (OutPoint × Output) :=
  l.utxos.entries.filter (fun utxo => (utxo.2.escrowFor swapId).isSome)

/- A claim puts the swap's outputs into the wallet to sign for them, and leaves them there. Whether the claim is then
signed and sent depends on the node's pool; the wallet is brought up to date when it is. -/
def claimSwap (node : State F) (wallet : Wallet) (swapId : SwapId) (l2ClaimerAddress : Option Address) (sent : Bool) :
    Except ClaimError Wallet := do
  let swap ← okOr (node.getSwap swapId) .swapNotFound
  ensure (swap.state = .readyToClaim) .notReadyToClaim
  let locked := lockedOutputs node.toLedger swapId
  ensure (!locked.isEmpty) .noLockedOutputs
  let recipient ← okOr (node.entitledClaimerAt swap node.nextHeight) .noLiveReservation
  ensure (l2ClaimerAddress.all (· = recipient)) .reservedForAnother
  let signing := wallet.putUtxos locked
  pure (if sent then updateWallet node.toLedger signing else signing)

structure AppState (F : Type) where
  node : State F
  wallet : Wallet

inductive AppError where
  | node (error : Error)
  | claim (error : ClaimError)

inductive AppStep (F : Type) where
  | node (step : Step F)
  | newAddress
  | claimSwap (swapId : SwapId) (l2ClaimerAddress : Option Address) (sent : Bool)
  | updateWallet

section Runs

variable (lib : Externals F) (ctxt : BatchVerificationContext) (derive : AddressIndex → Address)

def AppStep.apply (app : AppState F) : AppStep F → Except AppError (AppState F)
  | .node step => do
      let node ← (step.apply lib ctxt app.node).mapError .node
      pure { app with node }
  | .newAddress => pure { app with wallet := app.wallet.getNewAddress derive }
  | .claimSwap swapId l2ClaimerAddress sent => do
      let wallet ← (Coinshift.claimSwap app.node app.wallet swapId l2ClaimerAddress sent).mapError .claim
      pure { app with wallet }
  | .updateWallet => pure { app with wallet := Coinshift.updateWallet app.node.toLedger app.wallet }

def runApp (steps : List (AppStep F)) : Except AppError (AppState F) :=
  steps.foldlM (AppStep.apply lib ctxt derive) ⟨State.new F,Wallet.new⟩

end Runs

section Tables

variable {wallet : Wallet} {l : Ledger} {o : OutPoint}

theorem putUtxosAt {utxos : List (OutPoint × Output)} (distinct : (utxos.map (·.1)).Nodup) :
    (wallet.putUtxos utxos).utxos.tryGet o =
      ((utxos.find? (fun utxo => utxo.1 = o)).map (·.2)).or (wallet.utxos.tryGet o) := by
  induction utxos generalizing wallet with
  | nil => rfl
  | cons u us ih =>
      rw [List.map_cons,List.nodup_cons] at distinct
      rw [Wallet.putUtxos,List.foldl_cons]
      refine (ih distinct.2).trans ?_
      rw [List.find?_cons,Table.tryGetPut]
      by_cases here : u.1 = o
      · have later : us.find? (fun utxo => utxo.1 = o) = none := by
          refine List.find?_eq_none.mpr (fun v mem => ?_)
          rw [decide_eq_true_eq]
          rintro rfl
          exact distinct.1 (here ▸ List.mem_map_of_mem mem)
        simp [here,later]
      · simp [here,Ne.symm here]

theorem putSomeAt {check : OutPoint × Output → Bool} :
    (wallet.putUtxos (l.utxos.entries.filter check)).utxos.tryGet o =
      ((l.utxos.tryGet o).filter (fun x => check (o,x))).or (wallet.utxos.tryGet o) := by
  have distinct : ((l.utxos.entries.filter check).map (·.1)).Nodup :=
    Table.entriesDistinct.sublist (List.filter_sublist.map _)
  rw [putUtxosAt distinct]
  congr 1
  cases isFound : (l.utxos.entries.filter check).find? (fun utxo => utxo.1 = o) with
  | none =>
      refine (Option.filter_eq_none_iff.mpr (fun x found passes => ?_)).symm
      have absent := List.find?_eq_none.mp isFound (o,x) (List.mem_filter.mpr ⟨Table.memEntries.mpr found,passes⟩)
      simp at absent
  | some u =>
      obtain ⟨mem,passes⟩ := List.mem_filter.mp (List.mem_of_find?_eq_some isFound)
      have here : u.1 = o := by simpa using List.find?_some isFound
      obtain ⟨o',x⟩ := u
      subst here
      rw [Table.memEntries.mp mem,Option.filter_some,if_pos passes]
      rfl

theorem putUtxosAddresses {utxos : List (OutPoint × Output)} :
    (wallet.putUtxos utxos).indexToAddress = wallet.indexToAddress := by
  induction utxos generalizing wallet with
  | nil => rfl
  | cons u us ih => exact ih

theorem spendUtxoTable {spent : OutPoint × InPoint} : (wallet.spendUtxo spent).utxos = wallet.utxos.delete spent.1 := by
  unfold Wallet.spendUtxo
  split
  · next absent => exact (Table.deleteAbsent absent).symm
  · rfl

theorem spendUtxosAt {spent : List (OutPoint × InPoint)} : (wallet.spendUtxos spent).utxos.tryGet o =
    if o ∈ spent.map (·.1) then none else wallet.utxos.tryGet o := by
  rw [← Table.tryGetDeletes]
  congr 1
  induction spent generalizing wallet with
  | nil => rfl
  | cons first rest ih =>
      rw [Wallet.spendUtxos,List.foldl_cons,List.map_cons,List.foldl_cons,← spendUtxoTable]
      exact ih

theorem spendUtxosAddresses {spent : List (OutPoint × InPoint)} :
    (wallet.spendUtxos spent).indexToAddress = wallet.indexToAddress := by
  induction spent generalizing wallet with
  | nil => rfl
  | cons first rest ih =>
      refine Eq.trans ih ?_
      unfold Wallet.spendUtxo
      split <;> rfl

theorem updateAddresses : (updateWallet l wallet).getAddresses = wallet.getAddresses := by
  simp only [Wallet.getAddresses,updateWallet,spendUtxosAddresses,putUtxosAddresses]

def ownedAt (l : Ledger) (wallet : Wallet) (o : OutPoint) : Option Output :=
  (l.utxos.tryGet o).filter (fun x => x.address ∈ wallet.getAddresses)

theorem updateAt : (updateWallet l wallet).utxos.tryGet o =
    if (wallet.utxos.tryGet o).isSome ∧ (l.stxos.tryGet o).isSome then none
    else (ownedAt l wallet o).or (wallet.utxos.tryGet o) := by
  have spent : o ∈ (getSpentUtxos l (wallet.utxos.entries.map (·.1))).map (fun spent => spent.1) ↔
      (wallet.utxos.tryGet o).isSome = true ∧ (l.stxos.tryGet o).isSome = true := by
    simp only [getSpentUtxos,List.mem_map,List.mem_filterMap,Option.map_eq_some_iff,Prod.exists,Table.memEntries,
      Option.isSome_iff_exists]
    constructor
    · rintro ⟨_,y,⟨_,⟨_,x,held,rfl⟩,_,found,same⟩,rfl⟩
      cases same
      exact ⟨⟨x,held⟩,⟨y,found⟩⟩
    · rintro ⟨⟨x,held⟩,⟨y,found⟩⟩
      exact ⟨o,y,⟨o,⟨o,x,held,rfl⟩,y,found,rfl⟩,rfl⟩
  rw [updateWallet,spendUtxosAt,List.map_map]
  refine (if_congr spent rfl ?_)
  exact putSomeAt

def Mirrors (l : Ledger) (wallet : Wallet) : Prop := ∀ o, wallet.utxos.tryGet o = ownedAt l wallet o

def Reconciled (l : Ledger) (wallet : Wallet) : Prop :=
  ∀ o, (wallet.utxos.tryGet o).isSome = true → ((l.stxos.tryGet o).isSome = true ↔ ownedAt l wallet o = none)

theorem updateMirrors : Mirrors l (updateWallet l wallet) ↔ Reconciled l wallet := by
  have same (o : OutPoint) : ownedAt l (updateWallet l wallet) o = ownedAt l wallet o := by
    rw [ownedAt,updateAddresses,ownedAt]
  refine forall_congr' (fun o => ?_)
  rw [same,updateAt]
  cases held : wallet.utxos.tryGet o with
  | none => simp
  | some x =>
      cases spent : l.stxos.tryGet o with
      | none => cases own : ownedAt l wallet o <;> simp
      | some y => cases own : ownedAt l wallet o <;> simp

end Tables

section Mirror

variable {lib : Externals F} {ctxt : BatchVerificationContext} {derive : AddressIndex → Address}
  {made : List PointedOutput} {gone : OutPoint → Prop} {l l' : Ledger} {wallet : Wallet} {app app' : AppState F}

/- Outputs created at one outpoint pay to one address: ids do not collide, and a deposit is one output. -/
def AddressesBind (made : List PointedOutput) : Prop :=
  ∀ p ∈ made, ∀ q ∈ made, p.outpoint = q.outpoint → p.output.address = q.output.address

instance : Decidable (AddressesBind made) := by
  unfold AddressesBind
  infer_instance

structure Custody (l : Ledger) (wallet : Wallet) : Prop where
  tidy : ∀ o, (l.cell o).unspent = none ∨ (l.cell o).spent = none
  held : ∀ o, (wallet.utxos.tryGet o).isSome = true → ∃ x, x.address ∈ wallet.getAddresses ∧
    (l.cell o = ⟨some x,none⟩ ∨ ∃ y, l.cell o = ⟨none,some y⟩ ∧ y.output = x)

theorem Custody.reconciled (custody : Custody l wallet) : Reconciled l wallet := by
  intro o listed
  obtain ⟨x,own,unspent | ⟨y,spent,_⟩⟩ := custody.held o listed
  · obtain ⟨found,notSpent⟩ := Cell.mk.inj unspent
    have here : ownedAt l wallet o = some x := by
      rw [ownedAt,found]
      exact Option.filter_some_pos (decide_eq_true own)
    simp [here,notSpent]
  · obtain ⟨notThere,found⟩ := Cell.mk.inj spent
    simp [ownedAt,notThere,found]

theorem Custody.change (custody : Custody l wallet) (alike : AddressesBind made) (holds : LedgerFrom made l)
    (kept : ∀ o, gone o → wallet.utxos.tryGet o = none) (change : Change made gone l l') : Custody l' wallet := by
  obtain ⟨o,elsewhere,here⟩ := change.cell
  have own {x : Output} (new : ⟨o,x⟩ ∈ made) (listed : (wallet.utxos.tryGet o).isSome = true) :
      x.address ∈ wallet.getAddresses := by
    obtain ⟨x',own,unspent | ⟨y,spent,rfl⟩⟩ := custody.held o listed
    · rw [alike _ new _ (holds.utxos o x' (Cell.mk.inj unspent).1) rfl]
      exact own
    · rw [alike _ new _ (holds.stxos o y (Cell.mk.inj spent).2) rfl]
      exact own
  constructor
  · intro o'
    by_cases same : o' = o
    · subst same
      rcases here with ⟨x,_,after⟩ | ⟨y,_,after⟩ | ⟨_,after⟩ <;> simp [after]
    · rw [elsewhere o' same]
      exact custody.tidy o'
  · intro o' listed
    by_cases same : o' = o
    · subst same
      rcases here with ⟨x,new,after⟩ | ⟨y,new,after⟩ | ⟨isGone,_⟩
      · exact ⟨x,own new listed,.inl after⟩
      · exact ⟨y.output,own new listed,.inr ⟨y,after,rfl⟩⟩
      · rw [kept o' isGone] at listed
        cases listed
    · rw [elsewhere o' same]
      exact custody.held o' listed

theorem Custody.changes (custody : Custody l wallet) (alike : AddressesBind made) (holds : LedgerFrom made l)
    (kept : ∀ o, gone o → wallet.utxos.tryGet o = none) (changes : Changes made gone l l') : Custody l' wallet := by
  induction changes with
  | refl => exact custody
  | tail before change ih => exact ih.change alike (holds.changes before) kept change

theorem Custody.relist (custody : Custody l wallet) {wallet' : Wallet} (addresses : wallet.getAddresses ⊆ wallet'.getAddresses)
    (listed : ∀ o, (wallet'.utxos.tryGet o).isSome = true → (wallet.utxos.tryGet o).isSome = true ∨
      ∃ x, l.utxos.tryGet o = some x ∧ x.address ∈ wallet'.getAddresses) : Custody l wallet' := by
  refine ⟨custody.tidy,fun o isListed => ?_⟩
  rcases listed o isListed with before | ⟨x,found,own⟩
  · obtain ⟨x,own,known⟩ := custody.held o before
    exact ⟨x,addresses own,known⟩
  · refine ⟨x,own,.inl ?_⟩
    have notSpent : (l.cell o).spent = none := (custody.tidy o).resolve_left (by simp [Ledger.cell,found])
    exact congrArg₂ Cell.mk found notSpent

theorem Custody.update (custody : Custody l wallet) : Custody l (updateWallet l wallet) := by
  refine custody.relist (by rw [updateAddresses]; exact List.Subset.refl _) (fun o listed => ?_)
  rw [updateMirrors.mpr custody.reconciled o,ownedAt] at listed
  obtain ⟨x,isOwned⟩ := Option.isSome_iff_exists.mp listed
  obtain ⟨found,own⟩ := Option.filter_eq_some_iff.mp isOwned
  exact .inr ⟨x,found,decide_eq_true_eq.mp own⟩

theorem Custody.claim (custody : Custody l wallet) {swapId : SwapId}
    (own : ∀ utxo ∈ lockedOutputs l swapId, utxo.2.address ∈ wallet.getAddresses) :
    Custody l (wallet.putUtxos (lockedOutputs l swapId)) := by
  have addresses : (wallet.putUtxos (lockedOutputs l swapId)).getAddresses = wallet.getAddresses := by
    rw [Wallet.getAddresses,putUtxosAddresses,Wallet.getAddresses]
  refine custody.relist (by rw [addresses]; exact List.Subset.refl _) (fun o listed => ?_)
  rw [lockedOutputs,putSomeAt] at listed
  rw [addresses]
  cases found : (l.utxos.tryGet o).filter (fun x => (x.escrowFor swapId).isSome) with
  | none =>
      rw [found] at listed
      exact .inl listed
  | some x =>
      obtain ⟨unspent,locked⟩ := Option.filter_eq_some_iff.mp found
      exact .inr ⟨x,unspent,own (o,x) (List.mem_filter.mpr ⟨Table.memEntries.mpr unspent,locked⟩)⟩

def Derived (derive : AddressIndex → Address) (wallet : Wallet) : Prop :=
  ∀ index address, wallet.indexToAddress.tryGet index = some address → address = derive index

theorem memAddresses {address : Address} :
    address ∈ wallet.getAddresses ↔ ∃ index, wallet.indexToAddress.tryGet index = some address := by
  simp only [Wallet.getAddresses,List.mem_map,Prod.exists,exists_eq_right,Table.memEntries]

theorem Derived.newAddress (derived : Derived derive wallet) : Derived derive (wallet.getNewAddress derive) ∧
    wallet.getAddresses ⊆ (wallet.getNewAddress derive).getAddresses := by
  have grows {index : AddressIndex} : wallet.indexToAddress.Grows (wallet.indexToAddress.put index (derive index)) :=
    Table.putGrows (derived index)
  refine ⟨fun index address found => ?_,fun address mem => ?_⟩
  · rw [Wallet.getNewAddress,Table.tryGetPut] at found
    split at found
    · next here =>
        rw [here]
        exact (Option.some.inj found).symm
    · exact derived index address found
  · obtain ⟨index,found⟩ := memAddresses.mp mem
    exact memAddresses.mpr ⟨index,grows _ _ found⟩

/- What a step may do for the wallet to stay right: it creates nothing where a spend is on record, it takes back nothing
that the wallet lists, and a claim is for outputs that pay to the wallet. -/
def AppStep.Allowed (lib : Externals F) (app : AppState F) : AppStep F → Prop
  | .node step => step.Fresh lib app.node ∧ ∀ p ∈ step.removes lib, app.wallet.utxos.tryGet p.outpoint = none
  | .claimSwap swapId _ _ => ∀ utxo ∈ lockedOutputs app.node.toLedger swapId, utxo.2.address ∈ app.wallet.getAddresses
  | _ => True

def nodeSteps (steps : List (AppStep F)) : List (Step F) :=
  steps.filterMap (fun step => match step with | .node step => some step | _ => none)

def AppStep.updates : AppStep F → Bool
  | .updateWallet | .claimSwap _ _ true => true
  | _ => false

structure InStep (derive : AddressIndex → Address) (made : List PointedOutput) (app : AppState F) : Prop where
  traced : Traced made app.node
  custody : Custody app.node.toLedger app.wallet
  derived : Derived derive app.wallet

theorem claimSwapSource {node : State F} {wallet' : Wallet} {swapId : SwapId} {claimer : Option Address} {sent : Bool}
    (ok : claimSwap node wallet swapId claimer sent = .ok wallet') :
    wallet' = if sent then updateWallet node.toLedger (wallet.putUtxos (lockedOutputs node.toLedger swapId))
      else wallet.putUtxos (lockedOutputs node.toLedger swapId) := by
  simp only [claimSwap,bindOk,okOrOk,ensureOk,pureOk] at ok
  obtain ⟨_,_,_,_,_,_,_,_,_,_,rfl⟩ := ok
  rfl

theorem InStep.step (inStep : InStep derive made app) (alike : AddressesBind made) {step : AppStep F}
    (isMade : createdBy lib (nodeSteps [step]) ⊆ made) (allowed : step.Allowed lib app)
    (ok : step.apply lib ctxt derive app = .ok app') :
    InStep derive made app' ∧ (step.updates = true → Mirrors app'.node.toLedger app'.wallet) := by
  have updated {wallet : Wallet} (custody : Custody app.node.toLedger wallet) :
      Mirrors app.node.toLedger (updateWallet app.node.toLedger wallet) := updateMirrors.mpr custody.reconciled
  cases step with
  | node x =>
      simp only [AppStep.apply,bindOk,pureOk] at ok
      obtain ⟨node,applied,rfl⟩ := ok
      have creates : x.creates lib ⊆ made := by simpa [createdBy,nodeSteps] using isMade
      have gone : ∀ p ∈ x.removes lib, app.wallet.utxos.tryGet p.outpoint = none := allowed.2
      obtain ⟨changes,traced⟩ := @stepChanges _ _ _ _ _ _ (fun o => app.wallet.utxos.tryGet o = none) _ inStep.traced creates
        allowed.1 gone (mapErrorOk.mp applied)
      exact ⟨⟨traced,inStep.custody.changes alike inStep.traced.ledger (fun _ absent => absent) changes,inStep.derived⟩,nofun⟩
  | newAddress =>
      cases ok
      obtain ⟨derived,grows⟩ := inStep.derived.newAddress
      exact ⟨⟨inStep.traced,inStep.custody.relist grows (fun _ listed => .inl listed),derived⟩,nofun⟩
  | claimSwap swapId claimer sent =>
      simp only [AppStep.apply,bindOk,pureOk] at ok
      obtain ⟨wallet,claimed,rfl⟩ := ok
      have source := claimSwapSource (mapErrorOk.mp claimed)
      have custody := inStep.custody.claim allowed
      have derived : Derived derive (app.wallet.putUtxos (lockedOutputs app.node.toLedger swapId)) := by
        rw [Derived,putUtxosAddresses]
        exact inStep.derived
      cases sent with
      | true =>
          subst source
          refine ⟨⟨inStep.traced,custody.update,?_⟩,fun _ => updated custody⟩
          show Derived derive (updateWallet _ _)
          rw [Derived,updateWallet,spendUtxosAddresses,putUtxosAddresses]
          exact derived
      | false =>
          subst source
          exact ⟨⟨inStep.traced,custody,derived⟩,nofun⟩
  | updateWallet =>
      cases ok
      refine ⟨⟨inStep.traced,inStep.custody.update,?_⟩,fun _ => updated inStep.custody⟩
      rw [Derived,updateWallet,spendUtxosAddresses,putUtxosAddresses]
      exact inStep.derived

def AllAllowed (lib : Externals F) (ctxt : BatchVerificationContext) (derive : AddressIndex → Address)
    (steps : List (AppStep F)) : Prop :=
  ∀ before step after app, steps = before ++ step :: after → runApp lib ctxt derive before = .ok app → step.Allowed lib app

theorem newInStep : InStep derive made ⟨State.new F,Wallet.new⟩ := by
  refine ⟨newTraced,⟨fun o => ?_,fun o listed => ?_⟩,fun index address found => ?_⟩
  · exact .inl (by simp [Ledger.cell,State.new])
  · simp [Wallet.new] at listed
  · simp [Wallet.new] at found

theorem runInStep {steps : List (AppStep F)} (alike : AddressesBind made) (isMade : createdBy lib (nodeSteps steps) ⊆ made)
    (allowed : AllAllowed lib ctxt derive steps) (ran : runApp lib ctxt derive steps = .ok app) : InStep derive made app := by
  refine foldHistory (P := fun _ app => InStep derive made app) newInStep ?_ ran
  intro before step after now next split reached applied inStep
  refine (inStep.step alike (fun p mem => isMade ?_) (allowed before step after now split reached) applied).1
  rw [split,List.append_cons,nodeSteps,List.filterMap_append,List.filterMap_append,createdByAppend,createdByAppend]
  exact List.mem_append_left _ (List.mem_append_right _ mem)

/- Right after an update the wallet mirrors the node, in every run whose steps meet the condition. -/
theorem walletMirrors {steps : List (AppStep F)} {last : AppStep F}
    (alike : AddressesBind (createdBy lib (nodeSteps (steps ++ [last]))))
    (allowed : AllAllowed lib ctxt derive (steps ++ [last])) (updates : last.updates = true)
    (ran : runApp lib ctxt derive (steps ++ [last]) = .ok app) : Mirrors app.node.toLedger app.wallet := by
  obtain ⟨before,reached,rest⟩ := foldAppendOk.mp ran
  obtain ⟨after,applied,done⟩ := foldConsOk.mp rest
  cases foldNilOk.mp done
  have created : createdBy lib (nodeSteps (steps ++ [last])) =
      createdBy lib (nodeSteps steps) ++ createdBy lib (nodeSteps [last]) := by
    rw [nodeSteps,List.filterMap_append,createdByAppend,nodeSteps,nodeSteps]
  have earlier : AllAllowed lib ctxt derive steps := by
    intro start step after now split reached
    exact allowed start step (after ++ [last]) now (by rw [split,List.append_assoc,List.cons_append]) reached
  have inStep := runInStep alike (created ▸ List.subset_append_left _ _) earlier reached
  exact (inStep.step alike (created ▸ List.subset_append_right _ _) (allowed steps last [] before rfl reached) applied).2
    updates

end Mirror

namespace Reference

def walletAddress (index : AddressIndex) : Address := if index = 0 then addressOf alice else index.zeroExtend 160

def isDeposit (event : Hash × BlockEvent) : Bool := event.2.created.isSome

theorem depositsFresh {s : State Forest} {data : TwoWayPegData} (only : data.events.all isDeposit = true)
    (fresh : ∀ p ∈ data.deposits, s.stxos.tryGet p.outpoint = none) : FreshDeposits externals s data := by
  intro height before event after progress p _ split reached isCreated
  have still : progress.stxos = s.stxos := by
    refine foldInvariant (P := fun now => now.stxos = s.stxos) ?_ rfl reached
    rintro now ⟨blockHash,earlier⟩ next mem same connected
    have inside : (blockHash,earlier) ∈ data.events := split ▸ List.mem_append_left _ mem
    have deposited := List.all_eq_true.mp only _ inside
    cases earlier with
    | deposit d =>
        cases connected
        exact same
    | withdrawalBundle report => cases deposited
  rw [still]
  refine fresh p (List.mem_filterMap.mpr ⟨event,?_,isCreated⟩)
  exact split ▸ List.mem_append_right before List.mem_cons_self

def allowedCheck (app : AppState Forest) : AppStep Forest → Bool
  | .node (.connect header body) => (blockCreates externals header body).all (fun p =>
      (app.node.stxos.tryGet p.outpoint).isNone && p.outpoint ∉ body.inputKeys)
  | .node (.connectPeg data _) => data.events.all isDeposit &&
      data.deposits.all (fun p => (app.node.stxos.tryGet p.outpoint).isNone)
  | .node step => (step.removes externals).all (fun p => (app.wallet.utxos.tryGet p.outpoint).isNone)
  | .claimSwap swapId _ _ =>
      (lockedOutputs app.node.toLedger swapId).all (fun utxo => utxo.2.address ∈ app.wallet.getAddresses)
  | _ => true

theorem allowedChecked {app : AppState Forest} {step : AppStep Forest} (checked : allowedCheck app step = true) :
    step.Allowed externals app := by
  cases step with
  | node x =>
      cases x with
      | connect header body =>
          simp only [allowedCheck,List.all_eq_true,Bool.and_eq_true,Option.isNone_iff_eq_none,decide_eq_true_eq] at checked
          exact ⟨checked,fun p mem => nomatch mem⟩
      | connectPeg data rpc =>
          simp only [allowedCheck,Bool.and_eq_true] at checked
          refine ⟨depositsFresh checked.1 (fun p mem => ?_),fun p mem => nomatch mem⟩
          exact Option.isNone_iff_eq_none.mp (List.all_eq_true.mp checked.2 p mem)
      | _ =>
          simp only [allowedCheck,List.all_eq_true,Option.isNone_iff_eq_none] at checked
          exact ⟨trivial,checked⟩
  | claimSwap swapId claimer sent =>
      simp only [allowedCheck,List.all_eq_true,decide_eq_true_eq] at checked
      exact checked
  | newAddress => exact trivial
  | updateWallet => exact trivial

def walletSteps (n : Nat) (steps : List (Step Forest)) : List (AppStep Forest) :=
  .newAddress :: (steps.take n).map .node ++ .updateWallet :: (steps.drop n).map .node

def runsApp (steps : List (AppStep Forest)) (check : AppState Forest → Bool) : Bool :=
  match runApp externals context walletAddress steps with
  | .ok app => check app
  | .error _ => false

theorem runsAppRun {steps : List (AppStep Forest)} {check : AppState Forest → Bool} (runs : runsApp steps check = true) :
    ∃ app, runApp externals context walletAddress steps = .ok app ∧ check app = true := by
  unfold runsApp at runs
  split at runs
  · next app ran => exact ⟨app,ran,runs⟩
  · cases runs

def payBob : Transaction := transaction [deposited 1 (coin alice 1000)] [coin bob 400,coin alice 600] .regular

def paid : List Move := [.grow (body [] []) [deposit 1 (coin alice 1000)] noRpc,grow [(payBob,[alice])]]

theorem paidWalletMirrors : ∃ (steps : List (AppStep Forest)) (app : AppState Forest),
    runApp externals context walletAddress (steps ++ [.updateWallet]) = .ok app ∧
      (app.wallet.utxos.tryGet (outputOf payBob 1 (coin alice 600)).1).isSome = true ∧
        Mirrors app.node.toLedger app.wallet := by
  have played : plays (paid ++ [grow [],.shrink]) (fun steps _ =>
      every (AppStep.apply externals context walletAddress) allowedCheck (walletSteps 2 steps ++ [.updateWallet])
        ⟨State.new Forest,Wallet.new⟩ &&
      AddressesBind (createdBy externals (nodeSteps (walletSteps 2 steps ++ [.updateWallet]))) &&
      runsApp (walletSteps 2 steps ++ [.updateWallet]) (fun app =>
        (app.wallet.utxos.tryGet (outputOf payBob 1 (coin alice 600)).1).isSome)) = true := by
    decide +kernel
  obtain ⟨steps,_,_,checked⟩ := playsRun played
  simp only [Bool.and_eq_true,decide_eq_true_eq] at checked
  obtain ⟨⟨every,bound⟩,runs⟩ := checked
  obtain ⟨app,ran,listed⟩ := runsAppRun runs
  have allowed : AllAllowed externals context walletAddress (walletSteps 2 steps ++ [.updateWallet]) := by
    intro before step after now split reached
    rw [split] at every
    exact allowedChecked (everyTaken every reached)
  exact ⟨walletSteps 2 steps,app,ran,listed,walletMirrors bound allowed rfl ran⟩

/- The block with her payment is given up: the wallet goes on listing her change. -/
theorem vanishedChangeListed : ∃ (steps : List (AppStep Forest)) (app : AppState Forest),
    runApp externals context walletAddress (steps ++ [.updateWallet]) = .ok app ∧
      ¬ Mirrors app.node.toLedger app.wallet := by
  have played : plays (paid ++ [.shrink]) (fun steps _ =>
      runsApp (walletSteps 4 steps ++ [.updateWallet]) (fun app =>
        (app.wallet.utxos.tryGet (outputOf payBob 1 (coin alice 600)).1).isSome &&
          (app.node.utxos.tryGet (outputOf payBob 1 (coin alice 600)).1).isNone)) = true := by decide +kernel
  obtain ⟨steps,_,_,checked⟩ := playsRun played
  obtain ⟨app,ran,holds⟩ := runsAppRun checked
  simp only [Bool.and_eq_true,Option.isNone_iff_eq_none] at holds
  refine ⟨walletSteps 4 steps,app,ran,fun mirrors => ?_⟩
  have listed := holds.1
  rw [mirrors _,ownedAt,holds.2] at listed
  cases listed

end Reference

end Coinshift
