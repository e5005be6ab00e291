import Coinshift.CoinSelection
import Coinshift.Panics
import Coinshift.SwapRulesSource
import Coinshift.WalletAddresses

/-! The transactions a wallet builds.
Coins are chosen first, then come the proof and the outputs, with new addresses for the change. Chosen coins are in the
order of a hash map, whatever it is: the first of them is the sender of a new swap. -/
namespace Coinshift
open Checked Greedy Panics

inductive BuildError where
  | amountOverflow
  | amountUnderflow
  | notEnoughFunds
  | noTransferDestination
  | utreexo (text : Text)
  | wallet (error : WalletError)
  deriving DecidableEq, Repr

def SelectError.build : SelectError → BuildError
  | .amountOverflow => .amountOverflow
  | .notEnoughFunds => .notEnoughFunds

/- The order of a hash map: one for each map, in every pass over it. -/
structure HashOrder where
  list : Table OutPoint Output → List (OutPoint × Output)
  perm : ∀ coins, (list coins).Perm coins.entries

def tableOrder : HashOrder := ⟨Table.entries,fun _ => List.Perm.refl _⟩

abbrev Builder := Program BuildError SeededWallet

theorem amountOf {n : Nat} (small : n < 2 ^ 64) : ∃ a : Amount, a.val = n := ⟨⟨UInt64.ofNat n⟩,UInt64.toNat_ofNat_of_lt' small⟩

theorem subIs {a b c : Amount} (sum : b.val + c.val = a.val) : a.checkedSub b = some c := by
  unfold Amount.checkedSub
  rw [if_pos (by omega)]
  have bound := c.sat.toNat_lt
  have value : c.val = c.sat.toNat := rfl
  refine congrArg some (Amount.valInj ?_)
  have small : (UInt64.ofNat (a.val - b.val)).toNat = a.val - b.val := UInt64.toNat_ofNat_of_lt' (show a.val - b.val < 2 ^ 64 by omega)
  show (UInt64.ofNat (a.val - b.val)).toNat = c.val
  omega

theorem subVal {a b c : Amount} (taken : a.checkedSub b = some c) : b.val + c.val = a.val := by
  unfold Amount.checkedSub at taken
  split at taken
  · next less =>
      cases taken
      have bound := a.sat.toNat_lt
      have value : a.val = a.sat.toNat := rfl
      have small : (UInt64.ofNat (a.val - b.val)).toNat = a.val - b.val := UInt64.toNat_ofNat_of_lt' (show a.val - b.val < 2 ^ 64 by omega)
      show b.val + (UInt64.ofNat (a.val - b.val)).toNat = a.val
      omega
  · cases taken

theorem feePaid {f : FilledTransaction} {total fee : Amount} (spent : (f.spentUtxos.map (·.getValue.val)).sum = total.val)
    (paid : (f.transaction.outputs.map (·.getValue.val)).sum + fee.val = total.val) : f.getFee = .ok fee := by
  have bound := total.sat.toNat_lt
  have value : total.val = total.sat.toNat := rfl
  obtain ⟨out,isOut⟩ := amountOf (n := (f.transaction.outputs.map (·.getValue.val)).sum) (by omega)
  have valueIn : f.getValueIn = some total := by
    refine sumIs ?_
    rw [Amount.valZero,Nat.zero_add,List.map_map]
    exact spent
  have valueOut : f.getValueOut = some out := by
    refine sumIs ?_
    rw [Amount.valZero,Nat.zero_add,List.map_map]
    exact isOut.symm
  simp only [FilledTransaction.getFee,valueIn,valueOut,okOr,okBind]
  rw [subIs (show out.val + fee.val = total.val by omega)]

namespace SeededWallet

section Builders

variable {F : Type} (lib : Externals F) (prove : F → List Hash → Except Text UtreexoProof) (keys : WalletKeys)
  (fits : SeededWallet → Bool) (order : HashOrder) (wallet : SeededWallet) (utxos : SortedUtxos wallet.toWallet)
  (accumulator : F) (isLocked : OutPoint → Bool)

def newAddress : Builder Address :=
  call (fun wallet => ((wallet.getNewAddress lib keys fits).1,(wallet.getNewAddress lib keys fits).2.mapError .wallet))

def selectFor (value : Amount) : Builder (Amount × Table OutPoint Output) :=
  orThrow ((wallet.selectCoinsWithFilter value isLocked utxos).mapError SelectError.build)

def pointInputs (coins : List (OutPoint × Output)) : List (OutPoint × Hash) :=
  coins.map (fun coin => (coin.1,utxoHash lib ⟨coin.1,coin.2⟩))

def proveInputs (inputs : List (OutPoint × Hash)) : Builder UtreexoProof :=
  orThrow ((prove accumulator (inputs.map (·.2))).mapError .utreexo)

def createTransactionMany (dests : Table Address Amount) (fee : Amount) : Builder Transaction :=
  if dests.entries.isEmpty then throw .noTransferDestination
  else do
    let value ← orFail .amountOverflow (Amount.checkedSum (dests.entries.map (·.2)))
    let required ← orFail .amountOverflow (value.checkedAdd fee)
    let (total,coins) ← selectFor wallet utxos isLocked required
    let rest ← orPanic (total.checkedSub value)
    let change ← orPanic (rest.checkedSub fee)
    let inputs := pointInputs lib (order.list coins)
    let proof ← proveInputs prove accumulator inputs
    let payments := dests.entries.map (fun dest => (⟨dest.1,.value dest.2⟩ : Output))
    let changeAddress ← newAddress lib keys fits
    pure ⟨inputs,proof,payments ++ [⟨changeAddress,.value change⟩],.regular⟩

def createWithdrawal (mainAddress : MainAddress) (value mainFee fee : Amount) : Builder Transaction := do
  let withFee ← orFail .amountOverflow (value.checkedAdd fee)
  let required ← orFail .amountOverflow (withFee.checkedAdd mainFee)
  let (total,coins) ← selectFor wallet utxos isLocked required
  let rest ← orPanic (total.checkedSub value)
  let rest ← orPanic (rest.checkedSub fee)
  let change ← orPanic (rest.checkedSub mainFee)
  let inputs := pointInputs lib (order.list coins)
  let proof ← proveInputs prove accumulator inputs
  let withdrawalAddress ← newAddress lib keys fits
  let changeAddress ← newAddress lib keys fits
  pure ⟨inputs,proof,[⟨withdrawalAddress,.withdrawal value mainFee mainAddress⟩,⟨changeAddress,.value change⟩],.regular⟩

def createSwapCreateTx (parentChain : ParentChainType) (l1RecipientAddress : Text) (l1Amount : Amount)
    (l2Recipient : Option Address) (l2Amount : Amount) (requiredConfirmations : Option UInt32) (fee : Amount) :
    Builder (Transaction × SwapId) := do
  let requiredTotal ← orFail .amountOverflow (l2Amount.checkedAdd fee)
  let (total,coins) ← selectFor wallet utxos isLocked requiredTotal
  let rest ← orPanic (total.checkedSub l2Amount)
  let change ← orPanic (rest.checkedSub fee)
  -- the source expects a coin here; where nothing is required, none is chosen
  let first ← orPanic (order.list coins).head?
  let l2SenderAddress := first.2.address
  let swapId := SwapId.fromL2ToL1 lib l1RecipientAddress l1Amount l2SenderAddress l2Recipient
  let inputs := pointInputs lib (order.list coins)
  let proof ← proveInputs prove accumulator inputs
  let swapOutputAddress := l2Recipient.getD l2SenderAddress
  let changeAddress ← newAddress lib keys fits
  let outputs := [⟨swapOutputAddress,.swapPending l2Amount swapId⟩,⟨changeAddress,.value change⟩]
  pure (⟨inputs,proof,outputs,.swapCreate ⟨swapId,parentChain,List.replicate 32 0,
    requiredConfirmations.getD parentChain.defaultConfirmations,l2Recipient,l2Amount.sat,l1RecipientAddress,l1Amount.sat⟩⟩,swapId)

def acceptCandidate (l2ClaimerAddress : Option Address) (fee : Amount) (coin : OutPoint × Output) : Bool :=
  !coin.2.content.isWithdrawal && !coin.2.content.isSwapPending && !isLocked coin.1 &&
    l2ClaimerAddress.all (coin.2.address = ·) && decide (fee ≤ coin.2.getValue)

def createSwapAcceptTx (swapId : SwapId) (l2ClaimerAddress : Option Address) (fee : Amount) : Builder Transaction := do
  let candidates := ((order.list wallet.utxos).filter (acceptCandidate isLocked l2ClaimerAddress fee)).insertionSort
    (fun a b => a.2.getValue ≤ b.2.getValue)
  let (outpoint,output) ← orFail .notEnoughFunds candidates.head?
  let claimer := l2ClaimerAddress.getD output.address
  let change ← orFail .amountUnderflow (output.getValue.checkedSub fee)
  let inputs := pointInputs lib [(outpoint,output)]
  let proof ← proveInputs prove accumulator inputs
  if Amount.zero < change then
    let changeAddress ← newAddress lib keys fits
    pure ⟨inputs,proof,[⟨changeAddress,.value change⟩],.swapAccept swapId claimer⟩
  else pure ⟨inputs,proof,[],.swapAccept swapId claimer⟩

end Builders

section Selection

variable {wallet : SeededWallet} {utxos : SortedUtxos wallet.toWallet} {isLocked : OutPoint → Bool} {value total : Amount}
  {coins : Table OutPoint Output}

theorem selectCoinSource {listed : List (OutPoint × Output)} {before : Amount} {selected : Table OutPoint Output}
    (ok : selectCoin value isLocked listed before selected = .ok (total,coins)) : ∃ taken : List (OutPoint × Output),
      taken.Sublist (listed.filter (selectable isLocked)) ∧ coins = putAll selected taken ∧
      total.val = before.val + weigh worth taken := by
  induction listed generalizing before selected with
  | nil =>
      cases ok
      exact ⟨[],.slnil,rfl,rfl⟩
  | cons u rest ih =>
      obtain ⟨outpoint,output⟩ := u
      have skipped (passes : selectable isLocked (outpoint,output) = false)
          (ok : selectCoin value isLocked rest before selected = .ok (total,coins)) : ∃ taken : List (OutPoint × Output),
          taken.Sublist (((outpoint,output) :: rest).filter (selectable isLocked)) ∧ coins = putAll selected taken ∧
          total.val = before.val + weigh worth taken := by
        rw [List.filter_cons_of_neg (by simp [passes])]
        exact ih ok
      unfold selectCoin at ok
      split at ok
      · next withdrawal => exact skipped (by simp [selectable,withdrawal]) ok
      · next notWithdrawal =>
          split at ok
          · next locked => exact skipped (by simp [selectable,locked]) ok
          · next free =>
              rw [List.filter_cons_of_pos (by simp [selectable,notWithdrawal,free])]
              split at ok
              · cases ok
                exact ⟨[],List.nil_sublist _,rfl,rfl⟩
              · simp only [bindOk,okOrOk] at ok
                obtain ⟨next,added,more⟩ := ok
                obtain ⟨taken,part,isCoins,isTotal⟩ := ih more
                refine ⟨(outpoint,output) :: taken,part.cons_cons _,isCoins,?_⟩
                rw [isTotal,Amount.checkedAddVal added,weighCons,Nat.add_assoc]
                rfl

structure CoinsTaken (wallet : SeededWallet) (isLocked : OutPoint → Bool) (value total : Amount) (coins : Table OutPoint Output) :
    Prop where
  covers : value.val ≤ total.val
  total : (coins.entries.map worth).sum = total.val
  held : ∀ o y, (o,y) ∈ coins.entries → wallet.utxos.tryGet o = some y ∧ isLocked o = false

theorem coinsTaken (ok : wallet.selectCoinsWithFilter value isLocked utxos = .ok (total,coins)) :
    CoinsTaken wallet isLocked value total coins := by
  simp only [Wallet.selectCoinsWithFilter,bindOk] at ok
  obtain ⟨⟨total',coins'⟩,chosen,enough⟩ := ok
  dsimp only at enough
  split at enough
  · cases enough
  · next covers =>
      cases enough
      obtain ⟨taken,part,rfl,isTotal⟩ := selectCoinSource chosen
      have keys : (taken.map (·.1)).Nodup :=
        ((utxos.perm.map _).nodup_iff.mpr Table.entriesDistinct).sublist ((part.trans List.filter_sublist).map _)
      have entries := @putAllEntries ∅ taken keys (fun u _ => Table.tryGetEmpty)
      have nothing : (∅ : Table OutPoint Output).entries = [] := rfl
      rw [nothing,List.append_nil] at entries
      refine ⟨Nat.not_lt.mp covers,?_,fun o y mem => ?_⟩
      · rw [(entries.map worth).sum_eq,isTotal,Amount.valZero,Nat.zero_add]
        rfl
      · obtain ⟨inside,passes⟩ := List.mem_filter.mp (part.subset (entries.mem_iff.mp mem))
        simp only [selectable,Bool.and_eq_true,Bool.not_eq_true'] at passes
        exact ⟨Table.memEntries.mp (utxos.perm.mem_iff.mp inside),passes.2⟩

theorem nothingRequired : wallet.selectCoinsWithFilter Amount.zero isLocked utxos = .ok (Amount.zero,∅) := by
  have chosen (listed : List (OutPoint × Output)) : selectCoin Amount.zero isLocked listed Amount.zero ∅ = .ok (Amount.zero,∅) := by
    induction listed with
    | nil => rfl
    | cons u rest ih =>
        obtain ⟨outpoint,output⟩ := u
        unfold selectCoin
        split
        · exact ih
        · split
          · exact ih
          · rfl
  rw [Wallet.selectCoinsWithFilter,chosen]
  rfl

end Selection

section Results

variable {F : Type} {lib : Externals F} {prove : F → List Hash → Except Text UtreexoProof} {keys : WalletKeys}
  {fits : SeededWallet → Bool} {order : HashOrder} {wallet : SeededWallet} {utxos : SortedUtxos wallet.toWallet}
  {accumulator : F} {isLocked : OutPoint → Bool} {s : State F} {tx : Transaction} {coins : List (OutPoint × Output)}
  {fee total : Amount}

def IsChange (wallet : SeededWallet) (o : Output) : Prop :=
  (wallet.addressToIndex.tryGet o.address).isSome = true ∧ ∃ value, o.content = .value value

/- On the state, the transaction spends what is there and pays the fee, and its outputs are those requested and at
most one of change. -/
structure Pays (s : State F) (fee : Amount) (requested : List Output) (tx : Transaction) (wallet : SeededWallet) : Prop where
  fee : ∃ filled, fillTransaction s tx = .ok filled ∧ filled.getFee = .ok fee
  outputs : ∃ change : Option Output, tx.outputs = requested ++ change.toList ∧ ∀ o, change = some o → IsChange wallet o

def OwnsFrom (s : State F) (wallet : SeededWallet) : Prop :=
  ∀ o y, wallet.utxos.tryGet o = some y → s.utxos.tryGet o = some y

def LocksFrom (s : State F) (isLocked : OutPoint → Bool) : Prop :=
  ∀ o swapId, s.isOutputLockedToSwap o = some swapId → isLocked o = true

theorem unlocked (locks : LocksFrom s isLocked) {o : OutPoint} (free : isLocked o = false) : s.isOutputLockedToSwap o = none := by
  refine Option.eq_none_iff_forall_ne_some.mpr (fun swapId locked => ?_)
  rw [locks o swapId locked] at free
  cases free

theorem fillCoins (inputs : tx.inputs = pointInputs lib coins) (listed : ∀ coin ∈ coins, s.utxos.tryGet coin.1 = some coin.2) :
    fillTransaction s tx = .ok ⟨tx,coins.map (·.2)⟩ := by
  have filled : collect (fun input : OutPoint × Hash => okOr (s.utxos.tryGet input.1) (Error.noUtxo input.1)) tx.inputs =
      .ok (coins.map (·.2)) := by
    rw [inputs,collectOk]
    refine List.forall₂_map_left_iff.mpr (List.forall₂_map_right_iff.mpr (List.forall₂_same.mpr (fun coin mem => ?_)))
    rw [listed coin mem]
    rfl
  rw [fillTransaction,filled]
  rfl

theorem orderedCoins (order : HashOrder) {value : Amount} {chosen : Table OutPoint Output} (taken : CoinsTaken wallet isLocked value total chosen) :
    ((order.list chosen).map (·.2.getValue.val)).sum = total.val ∧
    ∀ coin ∈ order.list chosen, wallet.utxos.tryGet coin.1 = some coin.2 ∧ isLocked coin.1 = false := by
  refine ⟨((order.perm chosen).map _).sum_eq.trans taken.total,fun coin mem => ?_⟩
  exact taken.held coin.1 coin.2 ((order.perm chosen).mem_iff.mp mem)

theorem paysOf {requested : List Output} (change : Option Output) (owns : OwnsFrom s wallet) {next : SeededWallet}
    (listed : ∀ coin ∈ coins, wallet.utxos.tryGet coin.1 = some coin.2) (inputs : tx.inputs = pointInputs lib coins)
    (outputs : tx.outputs = requested ++ change.toList) (isChange : ∀ o, change = some o → IsChange next o)
    (spent : (coins.map (·.2.getValue.val)).sum = total.val)
    (paid : (tx.outputs.map (·.getValue.val)).sum + fee.val = total.val) : Pays s fee requested tx next := by
  refine ⟨⟨_,fillCoins inputs (fun coin mem => owns coin.1 coin.2 (listed coin mem)),feePaid ?_ paid⟩,⟨change,outputs,isChange⟩⟩
  rw [List.map_map]
  exact spent

theorem changeIs {address : Address} {change : Amount} {next : SeededWallet}
    (indexed : (next.addressToIndex.tryGet address).isSome = true) :
    ∀ o, some (⟨address,.value change⟩ : Output) = some o → IsChange next o := by
  intro o same
  cases same
  exact ⟨indexed,change,rfl⟩

theorem bindNewAddress {α : Type} {f : Address → Builder α} {result : α → SeededWallet → Prop}
    (rest : ∀ address next, (next.addressToIndex.tryGet address).isSome = true → Ends (f address) next result) :
    Ends (newAddress lib keys fits >>= f) wallet result := by
  refine bindCall (fun address ok => rest address _ ?_)
  exact newAddressIndexed (mapErrorOk.mp ok)

theorem bindSelect {α : Type} {f : Amount × Table OutPoint Output → Builder α} {result : α → SeededWallet → Prop}
    {start : SeededWallet} {value : Amount}
    (rest : ∀ total chosen, CoinsTaken wallet isLocked value total chosen → Ends (f (total,chosen)) start result) :
    Ends (selectFor wallet utxos isLocked value >>= f) start result := by
  refine bindOrThrow (fun chosen ok => rest chosen.1 chosen.2 ?_)
  exact coinsTaken (mapErrorOk.mp ok)

theorem twoParts {first second covered : Amount} (sum : covered.val = first.val + second.val) (covers : covered.val ≤ total.val) :
    ∃ rest change, total.checkedSub first = some rest ∧ rest.checkedSub second = some change ∧
      first.val + second.val + change.val = total.val := by
  have bound := total.sat.toNat_lt
  have value : total.val = total.sat.toNat := rfl
  obtain ⟨rest,isRest⟩ := amountOf (show total.val - first.val < 2 ^ 64 by omega)
  obtain ⟨change,isChange⟩ := amountOf (show rest.val - second.val < 2 ^ 64 by omega)
  exact ⟨rest,change,subIs (by omega),subIs (by omega),by omega⟩

theorem manyPays (owns : OwnsFrom s wallet) (dests : Table Address Amount) :
    Ends (createTransactionMany lib prove keys fits order wallet utxos accumulator isLocked dests fee) wallet
      (Pays s fee (dests.entries.map (fun dest => ⟨dest.1,.value dest.2⟩))) := by
  unfold createTransactionMany
  split
  · exact endsThrow
  · refine bindOrFail (fun value isValue => bindOrFail (fun required isRequired => bindSelect (fun total chosen taken => ?_)))
    obtain ⟨rest,change,isRest,isChange,parts⟩ := twoParts (Amount.checkedAddVal isRequired) taken.covers
    refine bindOrPanic isRest (bindOrPanic isChange (bindOrThrow (fun proof _ => bindNewAddress (fun address next indexed => ?_))))
    obtain ⟨spent,held⟩ := orderedCoins order taken
    refine endsPure (paysOf (some ⟨address,.value change⟩) owns (fun coin mem => (held coin mem).1) rfl rfl (changeIs indexed) spent ?_)
    have values := Amount.checkedSumVal isValue
    rw [List.map_map] at values
    rw [List.map_append,List.sum_append,List.map_map]
    show (dests.entries.map (fun dest => dest.2.val)).sum + (change.val + 0) + fee.val = total.val
    have same : (dests.entries.map (fun dest => dest.2.val)).sum = value.val := values.symm
    omega

theorem withdrawalPays (owns : OwnsFrom s wallet) (mainAddress : MainAddress) (value mainFee : Amount) :
    Ends (createWithdrawal lib prove keys fits order wallet utxos accumulator isLocked mainAddress value mainFee fee) wallet
      (fun tx next => ∃ address, Pays s fee [⟨address,.withdrawal value mainFee mainAddress⟩] tx next) := by
  unfold createWithdrawal
  refine bindOrFail (fun withFee isWithFee => bindOrFail (fun required isRequired => bindSelect (fun total chosen taken => ?_)))
  have first := Amount.checkedAddVal isWithFee
  have second := Amount.checkedAddVal isRequired
  have covers := taken.covers
  have bound := total.sat.toNat_lt
  have same : total.val = total.sat.toNat := rfl
  obtain ⟨afterValue,afterFee,isAfterValue,isAfterFee,parts⟩ := @twoParts total value fee withFee first (by omega)
  obtain ⟨change,isChange⟩ := amountOf (show afterFee.val - mainFee.val < 2 ^ 64 by omega)
  refine bindOrPanic isAfterValue (bindOrPanic isAfterFee (bindOrPanic (subIs (c := change) (by omega)) ?_))
  refine bindOrThrow (fun proof _ => bindNewAddress (fun withdrawalAddress middle _ => bindNewAddress (fun address next indexed => ?_)))
  obtain ⟨spent,held⟩ := orderedCoins order taken
  refine endsPure ⟨withdrawalAddress,?_⟩
  refine paysOf (some ⟨address,.value change⟩) owns (fun coin mem => (held coin mem).1) rfl rfl (changeIs indexed) spent ?_
  obtain ⟨payout,isPayout,payoutVal⟩ := checkedAddOk (a := value) (b := mainFee) (by omega)
  have worth : (Content.withdrawal value mainFee mainAddress).getValue = payout := by
    rw [Content.getValue,isPayout]
    rfl
  show (Content.withdrawal value mainFee mainAddress).getValue.val + (change.val + 0) + fee.val = total.val
  rw [worth]
  omega

theorem createValid {create : SwapCreate} {first : OutPoint × Output} {others : List (OutPoint × Output)}
    (kind : tx.data = .swapCreate create) (inputs : tx.inputs = pointInputs lib coins) (isCoins : coins = first :: others)
    (own : SwapId.fromL2ToL1 lib create.l1RecipientAddress (Amount.fromSat create.l1Amount) first.2.address create.l2Recipient =
      create.swapId) (unrecorded : s.getSwap create.swapId = none) (positive : create.l2Amount ≠ 0)
    (outputs : ∃ address rest, tx.outputs = ⟨address,.swapPending (Amount.fromSat create.l2Amount) create.swapId⟩ :: rest ∧
      rest.filterMap (Output.escrowFor create.swapId) = [])
    (free : ∀ coin ∈ coins, s.isOutputLockedToSwap coin.1 = none)
    (spent : (coins.map (·.2.getValue.val)).sum = total.val) (covers : (Amount.fromSat create.l2Amount).val ≤ total.val) :
    validateSwapCreate lib s tx ⟨tx,coins.map (·.2)⟩ = .ok () := by
  obtain ⟨address,rest,isOutputs,noMore⟩ := outputs
  have total' : Amount.checkedSum ((coins.map (·.2)).map Output.getValue) = some total := by
    refine sumIs ?_
    rw [Amount.valZero,Nat.zero_add,List.map_map,List.map_map]
    exact spent
  have escrowed : Amount.checkedSum (tx.outputs.filterMap (Output.escrowFor create.swapId)) = some (Amount.fromSat create.l2Amount) := by
    have here : Output.escrowFor create.swapId ⟨address,.swapPending (Amount.fromSat create.l2Amount) create.swapId⟩ =
        some (Amount.fromSat create.l2Amount) := if_pos rfl
    rw [isOutputs,List.filterMap_cons_some here,noMore]
    refine sumIs ?_
    simp
  have head : (coins.map (·.2)).head? = some first.2 := by rw [isCoins]; rfl
  simp only [validateSwapCreate,kind,bindOk,okOrOk,ensureOk,checkAllOk]
  refine ⟨first.2,head,(),own,(),own ▸ unrecorded,(),positive,(),by simp [isOutputs],(),fun input mem => ?_,total,total',(),covers,_,
    escrowed,Nat.le_refl _⟩
  rw [inputs] at mem
  obtain ⟨coin,inside,rfl⟩ := List.mem_map.mp mem
  rw [checkCreateInput,free coin inside]

structure Creates (s : State F) (lib : Externals F) (fee l1Amount l2Amount : Amount) (l1RecipientAddress : Text)
    (l2Recipient : Option Address) (tx : Transaction) (swapId : SwapId) (wallet : SeededWallet) : Prop where
  create : ∃ create, tx.data = .swapCreate create ∧ create.swapId = swapId ∧ create.l2Amount = l2Amount.sat
  pays : ∃ sender, swapId = SwapId.fromL2ToL1 lib l1RecipientAddress l1Amount sender l2Recipient ∧
    Pays s fee [⟨l2Recipient.getD sender,.swapPending l2Amount swapId⟩] tx wallet
  valid : 0 < l2Amount.val → s.getSwap swapId = none →
    ∃ filled, fillTransaction s tx = .ok filled ∧ validateSwapCreate lib s tx filled = .ok ()

theorem swapCreateBuilt (owns : OwnsFrom s wallet) (locks : LocksFrom s isLocked) (parentChain : ParentChainType)
    (l1RecipientAddress : Text) (l1Amount : Amount) (l2Recipient : Option Address) (l2Amount : Amount)
    (requiredConfirmations : Option UInt32) (some : ¬ (l2Amount.val = 0 ∧ fee.val = 0)) :
    Ends (createSwapCreateTx lib prove keys fits order wallet utxos accumulator isLocked parentChain l1RecipientAddress l1Amount
      l2Recipient l2Amount requiredConfirmations fee) wallet
      (fun built next => Creates s lib fee l1Amount l2Amount l1RecipientAddress l2Recipient built.1 built.2 next) := by
  unfold createSwapCreateTx
  refine bindOrFail (fun required isRequired => bindSelect (fun total chosen taken => ?_))
  obtain ⟨rest,change,isRest,isChange,parts⟩ := twoParts (Amount.checkedAddVal isRequired) taken.covers
  obtain ⟨spent,held⟩ := orderedCoins order taken
  obtain ⟨first,others,isCoins⟩ : ∃ first others, order.list chosen = first :: others := by
    refine List.exists_cons_of_ne_nil (fun empty => some ?_)
    rw [empty] at spent
    have covers := taken.covers
    have sum := Amount.checkedAddVal isRequired
    have nothing : total.val = 0 := spent.symm
    omega
  have isFirst : (order.list chosen).head? = Option.some first := by rw [isCoins]; rfl
  refine bindOrPanic isRest (bindOrPanic isChange (bindOrPanic isFirst ?_))
  refine bindOrThrow (fun proof _ => bindNewAddress (fun address next indexed => endsPure ⟨⟨_,rfl,rfl,rfl⟩,?_,?_⟩))
  · refine ⟨first.2.address,rfl,?_⟩
    refine paysOf (Option.some ⟨address,.value change⟩) owns (fun coin mem => (held coin mem).1) rfl rfl (changeIs indexed) spent ?_
    show l2Amount.val + (change.val + 0) + fee.val = total.val
    omega
  · intro positive unrecorded
    refine ⟨_,fillCoins rfl (fun coin mem => owns coin.1 coin.2 (held coin mem).1),?_⟩
    have covers : l2Amount.val ≤ total.val := by omega
    refine createValid rfl rfl isCoins rfl unrecorded (fun zero => ?_) ⟨_,_,rfl,rfl⟩ (fun coin mem => ?_) spent covers
    · rw [Amount.val,show l2Amount.sat = 0 from zero] at positive
      exact Nat.lt_irrefl 0 positive
    · exact unlocked locks (held coin mem).2

structure Reservable (s : State F) (swapId : SwapId) (swap : Swap) : Prop where
  recorded : s.getSwap swapId = some swap
  isOpen : swap.l2Recipient = none
  unexpired : ∀ expiresAt, swap.expiresAtHeight = some expiresAt → s.nextHeight < expiresAt
  unreserved : ∀ r, s.getSwapReservation swapId = some r → ¬ r.isLiveAt swap.parentChain s.nextHeight

structure Accepts (s : State F) (fee : Amount) (swapId : SwapId) (tx : Transaction) (wallet : SeededWallet) : Prop where
  accept : ∃ claimer, tx.data = .swapAccept swapId claimer
  pays : Pays s fee [] tx wallet
  valid : ∀ swap, Reservable s swapId swap →
    ∃ filled, fillTransaction s tx = .ok filled ∧ validateSwapAccept s tx filled = .ok ()

theorem acceptValid {swapId : SwapId} {swap : Swap} {coin : OutPoint × Output} {claimer : Address}
    (reservable : Reservable s swapId swap) (kind : tx.data = .swapAccept swapId claimer) (inputs : tx.inputs = pointInputs lib [coin])
    (free : s.isOutputLockedToSwap coin.1 = none) (own : coin.2.address = claimer) :
    validateSwapAccept s tx ⟨tx,[coin.2]⟩ = .ok () := by
  have unlocked : validateNoLockedOutputs s tx = .ok () := by
    rw [validateNoLockedOutputs,if_neg (by rw [kind]; simp [TxData.isSwapClaim]),checkAllOk]
    intro input mem
    rw [inputs] at mem
    cases List.mem_singleton.mp mem
    rw [free]
  simp only [validateSwapAccept,kind,bindOk,okOrOk,ensureOk,ensureSomeOk]
  exact ⟨(),unlocked,swap,reservable.recorded,(),reservable.isOpen,(),reservable.unexpired,(),reservable.unreserved,
    coin.2,List.mem_singleton_self _,own⟩

theorem swapAcceptBuilt (owns : OwnsFrom s wallet) (locks : LocksFrom s isLocked) (swapId : SwapId) (l2ClaimerAddress : Option Address) :
    Ends (createSwapAcceptTx lib prove keys fits order wallet accumulator isLocked swapId l2ClaimerAddress fee) wallet
      (Accepts s fee swapId) := by
  unfold createSwapAcceptTx
  refine bindOrFail (fun coin isFirst => ?_)
  obtain ⟨outpoint,output⟩ := coin
  have candidate := (List.perm_insertionSort _ _).mem_iff.mp (List.mem_of_head? isFirst)
  obtain ⟨mem,passes⟩ := List.mem_filter.mp candidate
  have listed : wallet.utxos.tryGet outpoint = some output := Table.memEntries.mp ((order.perm _).mem_iff.mp mem)
  simp only [acceptCandidate,Bool.and_eq_true,Bool.not_eq_true',Option.all_eq_true,decide_eq_true_eq] at passes
  obtain ⟨⟨⟨_,free⟩,isClaimer⟩,_⟩ := passes
  have own : output.address = l2ClaimerAddress.getD output.address := by
    cases claims : l2ClaimerAddress with
    | none => rfl
    | some claimer => exact isClaimer claimer claims
  have held : ∀ coin ∈ [(outpoint,output)], wallet.utxos.tryGet coin.1 = some coin.2 := by
    intro coin mem
    cases List.mem_singleton.mp mem
    exact listed
  refine bindOrFail (fun change isChange => bindOrThrow (fun proof _ => ?_))
  have paid := subVal isChange
  have right (tx : Transaction) (next : SeededWallet) (some : Option Output) (inputs : tx.inputs = pointInputs lib [(outpoint,output)])
      (kind : tx.data = .swapAccept swapId (l2ClaimerAddress.getD output.address)) (outputs : tx.outputs = some.toList)
      (isOwn : ∀ o, some = .some o → IsChange next o) (worth : (some.toList.map (·.getValue.val)).sum = change.val) :
      Accepts s fee swapId tx next := by
    refine ⟨⟨_,kind⟩,paysOf some owns held inputs outputs isOwn (show output.getValue.val + 0 = output.getValue.val from rfl) ?_,
      fun swap reservable => ⟨_,fillCoins inputs (fun coin mem => owns coin.1 coin.2 (held coin mem)),?_⟩⟩
    · rw [outputs,worth]
      omega
    · exact acceptValid reservable kind inputs (unlocked locks free) own
  split
  · refine bindNewAddress (fun address next indexed => endsPure ?_)
    exact right _ next (.some ⟨address,.value change⟩) rfl rfl rfl (changeIs indexed) rfl
  · next nothing =>
      have zero : change.val = 0 := Nat.eq_zero_of_not_pos nothing
      exact endsPure (right _ wallet none rfl rfl rfl (by simp) zero.symm)

/- With nothing to be covered no coin is chosen, and the first of them is missing. -/
theorem swapCreatePanics (parentChain : ParentChainType) (l1RecipientAddress : Text) (l1Amount : Amount) (l2Recipient : Option Address)
    (requiredConfirmations : Option UInt32) :
    createSwapCreateTx lib prove keys fits order wallet utxos accumulator isLocked parentChain l1RecipientAddress l1Amount
      l2Recipient Amount.zero requiredConfirmations Amount.zero wallet = none := by
  have sum : Amount.zero.checkedAdd Amount.zero = some Amount.zero := rfl
  have difference : Amount.zero.checkedSub Amount.zero = some Amount.zero := rfl
  have selected : selectFor wallet utxos isLocked Amount.zero wallet = some (.ok (Amount.zero,∅),wallet) := by
    rw [selectFor,nothingRequired]
    rfl
  have missing : (order.list ∅).head? = none := by
    have empty : order.list ∅ = [] := (order.perm ∅).eq_nil
    rw [empty]
    rfl
  unfold createSwapCreateTx
  rw [sum,bindDone rfl,bindDone selected]
  dsimp only
  rw [difference,bindDone rfl,difference,bindDone rfl,missing]
  rfl

/- Every builder ends without a panic, and what it builds pays its fee and passes: all but a new swap of nothing for
no fee. -/
theorem walletBuildersIff (owns : OwnsFrom s wallet) (locks : LocksFrom s isLocked) (dests : Table Address Amount) (payFee : Amount)
    (mainAddress : MainAddress) (value mainFee withdrawalFee : Amount) (parentChain : ParentChainType) (l1RecipientAddress : Text)
    (l1Amount : Amount) (l2Recipient : Option Address) (l2Amount : Amount) (requiredConfirmations : Option UInt32)
    (createFee : Amount) (swapId : SwapId) (l2ClaimerAddress : Option Address) (acceptFee : Amount) :
    (Ends (createTransactionMany lib prove keys fits order wallet utxos accumulator isLocked dests payFee) wallet
        (Pays s payFee (dests.entries.map (fun dest => ⟨dest.1,.value dest.2⟩))) ∧
      Ends (createWithdrawal lib prove keys fits order wallet utxos accumulator isLocked mainAddress value mainFee withdrawalFee)
        wallet (fun tx next => ∃ address, Pays s withdrawalFee [⟨address,.withdrawal value mainFee mainAddress⟩] tx next) ∧
      Ends (createSwapCreateTx lib prove keys fits order wallet utxos accumulator isLocked parentChain l1RecipientAddress l1Amount
        l2Recipient l2Amount requiredConfirmations createFee) wallet
        (fun built next => Creates s lib createFee l1Amount l2Amount l1RecipientAddress l2Recipient built.1 built.2 next) ∧
      Ends (createSwapAcceptTx lib prove keys fits order wallet accumulator isLocked swapId l2ClaimerAddress acceptFee) wallet
        (Accepts s acceptFee swapId)) ↔
    ¬ (l2Amount = Amount.zero ∧ createFee = Amount.zero) := by
  constructor
  · intro all zeros
    obtain ⟨rfl,rfl⟩ := zeros
    exact panicsNot (swapCreatePanics parentChain l1RecipientAddress l1Amount l2Recipient requiredConfirmations) all.2.2.1
  · intro some
    have positive : ¬ (l2Amount.val = 0 ∧ createFee.val = 0) := fun zeros =>
      some ⟨Amount.valInj zeros.1,Amount.valInj zeros.2⟩
    exact ⟨manyPays owns dests,withdrawalPays owns mainAddress value mainFee,
      swapCreateBuilt owns locks parentChain l1RecipientAddress l1Amount l2Recipient l2Amount requiredConfirmations positive,
      swapAcceptBuilt owns locks swapId l2ClaimerAddress⟩

end Results

end SeededWallet

namespace Reference
open SeededWallet

def aliceCoins : Table OutPoint Output := (∅ : Table OutPoint Output).put (deposited 1 (coin alice 1000)).1 (coin alice 1000)

def aliceState : State Forest := { State.new Forest with utxos := aliceCoins }

def aliceWallet : SeededWallet := { SeededWallet.new with utxos := aliceCoins, seed := some 5 }

def emptyProof : Forest → List Hash → Except Text UtreexoProof := fun _ _ => .ok ⟨[],[]⟩

def noneLocked (_ : OutPoint) : Bool := false

def aliceSwapTx (l2Amount fee : Amount) : Builder (Transaction × SwapId) :=
  createSwapCreateTx externals emptyProof plainKeys inMap tableOrder aliceWallet (sortUtxos aliceWallet.toWallet) [] noneLocked
    .regtest ['x'] ⟨7⟩ (some (addressOf bob)) l2Amount none fee

def buildsSwap (l2Amount fee : Amount) : Bool :=
  match aliceSwapTx l2Amount fee aliceWallet with
  | some (.ok (_,swapId),_) => (aliceState.getSwap swapId).isNone
  | _ => false

theorem aliceOwns : OwnsFrom aliceState aliceWallet := fun _ _ listed => listed

theorem aliceLocks : LocksFrom aliceState noneLocked := by
  intro o swapId locked
  cases Table.tryGetEmpty.symm.trans locked

theorem aliceCreatesSwap : ∃ tx swapId next, aliceSwapTx ⟨900⟩ ⟨3⟩ aliceWallet = some (.ok (tx,swapId),next) ∧
    ∃ filled, fillTransaction aliceState tx = .ok filled ∧ validateSwapCreate externals aliceState tx filled = .ok () := by
  have built : buildsSwap ⟨900⟩ ⟨3⟩ = true := by decide +kernel
  unfold buildsSwap at built
  split at built
  · next tx swapId next run =>
      have ends := ((@walletBuildersIff Forest externals emptyProof plainKeys inMap tableOrder aliceWallet
        (sortUtxos aliceWallet.toWallet) [] noneLocked aliceState aliceOwns aliceLocks ∅ ⟨1⟩ ⟨5⟩ ⟨1⟩ ⟨1⟩ ⟨1⟩ .regtest ['x'] ⟨7⟩
        (some (addressOf bob)) ⟨900⟩ none ⟨3⟩ 0 none ⟨1⟩).mpr (by decide)).2.2.1
      obtain ⟨result,after,done,right⟩ := ends
      cases run.symm.trans done
      have creates := right (tx,swapId) rfl
      exact ⟨tx,swapId,next,run,creates.valid (by decide) (Option.isNone_iff_eq_none.mp built)⟩
  · cases built

theorem zeroSwapPanics : OwnsFrom aliceState aliceWallet ∧ LocksFrom aliceState noneLocked ∧
    aliceSwapTx Amount.zero Amount.zero aliceWallet = none := by
  refine ⟨aliceOwns,aliceLocks,?_⟩
  exact swapCreatePanics .regtest ['x'] ⟨7⟩ (some (addressOf bob)) none

end Reference

end Coinshift
