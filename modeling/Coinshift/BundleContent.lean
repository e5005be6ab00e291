import Coinshift.CanonicalEncoding
import Coinshift.BundleOrder
import Coinshift.SidechainWealth

/-! What a collected withdrawal bundle pays, spends and weighs.
Withdrawals are gathered by main-chain address and packed one address after the other while the predicted weight
allows it, so an address is paid in full or not at all. -/
namespace Coinshift
open Checked

section Weight

structure TxIn where
  scriptSig : List Byte
  witness : List (List Byte)

def TxIn.baseSize (input : TxIn) : Nat := 36 + varIntSize input.scriptSig.length + input.scriptSig.length + 4

def TxIn.witnessSize (input : TxIn) : Nat :=
  varIntSize input.witness.length + (input.witness.map (fun item => varIntSize item.length + item.length)).sum

def TxOut.size (output : TxOut) : Nat := 8 + varIntSize output.scriptPubkey.length + output.scriptPubkey.length

def baseSize (inputs : List TxIn) (outputs : List TxOut) : Nat :=
  4 + (varIntSize inputs.length + (inputs.map TxIn.baseSize).sum) +
    (varIntSize outputs.length + (outputs.map TxOut.size).sum) + 4

/- A transaction without inputs is taken to be a segwit one. -/
def usesSegwit (inputs : List TxIn) : Bool := inputs.isEmpty || inputs.any (fun input => !input.witness.isEmpty)

def totalSize (inputs : List TxIn) (outputs : List TxOut) : Nat :=
  baseSize inputs outputs + if usesSegwit inputs then 2 + (inputs.map TxIn.witnessSize).sum else 0

variable {F : Type}

/- `Transaction::weight`, three times the base size and the total size; a bundle has no input yet. -/
structure Weighs (lib : Externals F) (weight : List TxIn → List TxOut → Nat) : Prop where
  sizes : ∀ inputs outputs, weight inputs outputs = 3 * baseSize inputs outputs + totalSize inputs outputs
  bundle : ∀ outputs, lib.bundleWeight outputs = weight [] outputs

/- The input that completes a bundle: it spends the treasury, with an empty script. -/
def treasuryInput : TxIn := ⟨[],[]⟩

def feeTxout (fee : Amount) : TxOut := ⟨Amount.zero,0x6a :: 8 :: wordBytes 8 fee.val⟩

def inputsTxout (commitment : Hash) : TxOut := ⟨Amount.zero,0x6a :: 32 :: hashBytes commitment⟩

variable {lib : Externals F} {weight : List TxIn → List TxOut → Nat} {payouts : List TxOut} {fee : Amount}
  {commitment : Hash} {predicted : Nat}

theorem wordBytesLength {width n : Nat} : (wordBytes width n).length = width := by
  rw [wordBytes,List.length_reverse,bytesLELength]

theorem predictedWeight (weighs : Weighs lib weight)
    (predicts : predictWeight payouts.length (payouts.map TxOut.size).sum = some predicted) :
    weight [treasuryInput] (feeTxout fee :: inputsTxout commitment :: payouts) = predicted ∧
      lib.bundleWeight (feeTxout fee :: inputsTxout commitment :: payouts) ≤ predicted ∧ predicted ≤ maxStandardWeight := by
  have sizes : ((feeTxout fee :: inputsTxout commitment :: payouts).map TxOut.size).sum =
      62 + (payouts.map TxOut.size).sum := by
    have small : (feeTxout fee).size = 19 := by
      simp only [feeTxout,TxOut.size,List.length_cons,wordBytesLength]
      rfl
    have large : (inputsTxout commitment).size = 43 := by
      simp only [inputsTxout,TxOut.size,hashBytes,List.length_cons,wordBytesLength]
      rfl
    rw [List.map_cons,List.map_cons,List.sum_cons,List.sum_cons,small,large]
    omega
  simp only [predictWeight] at predicts
  split at predicts
  · next fits =>
      cases predicts
      rw [weighs.bundle,weighs.sizes,weighs.sizes]
      have completed : baseSize [treasuryInput] (feeTxout fee :: inputsTxout commitment :: payouts) =
          4 + (1 + 41) + (varIntSize (payouts.length + 2) + (62 + (payouts.map TxOut.size).sum)) + 4 := by
        rw [baseSize,sizes]
        rfl
      have bare : baseSize [] (feeTxout fee :: inputsTxout commitment :: payouts) =
          4 + 1 + (varIntSize (payouts.length + 2) + (62 + (payouts.map TxOut.size).sum)) + 4 := by
        rw [baseSize,sizes]
        rfl
      have total : totalSize [treasuryInput] (feeTxout fee :: inputsTxout commitment :: payouts) =
          baseSize [treasuryInput] (feeTxout fee :: inputsTxout commitment :: payouts) := rfl
      have totalBare : totalSize [] (feeTxout fee :: inputsTxout commitment :: payouts) =
          baseSize [] (feeTxout fee :: inputsTxout commitment :: payouts) + 2 := rfl
      rw [total,totalBare,completed,bare]
      omega
  · cases predicts

end Weight

section Aggregation

def withdrawsTo (mainAddress : MainAddress) (utxo : OutPoint × Output) : Bool :=
  match utxo.2.content with
  | .withdrawal _ _ address => address = mainAddress
  | _ => false

def payout (utxo : OutPoint × Output) : Nat :=
  match utxo.2.content with
  | .withdrawal value _ _ => value.val
  | _ => 0

def mainFeeOf (utxo : OutPoint × Output) : Nat :=
  match utxo.2.content with
  | .withdrawal _ mainFee _ => mainFee.val
  | _ => 0

def withdrawn (utxos : List (OutPoint × Output)) : Nat := (utxos.map payout).sum + (utxos.map mainFeeOf).sum

structure Aggregates (utxos : List (OutPoint × Output)) (aggregated : List AggregatedWithdrawal) : Prop where
  distinct : (aggregated.map (·.mainAddress)).Nodup
  spends : ∀ a ∈ aggregated, a.spendUtxos = utxos.filter (withdrawsTo a.mainAddress)
  value : ∀ a ∈ aggregated, a.value.val = (a.spendUtxos.map payout).sum
  fee : ∀ a ∈ aggregated, a.mainFee.val = (a.spendUtxos.map mainFeeOf).sum
  complete : ∀ u ∈ utxos, ∀ m, withdrawsTo m u = true → ∃ a ∈ aggregated, a.mainAddress = m

variable {utxos rest : List (OutPoint × Output)} {aggregated : List AggregatedWithdrawal} {u : OutPoint × Output} {m : MainAddress}

theorem withdrawnAppend : withdrawn (utxos ++ rest) = withdrawn utxos + withdrawn rest := by
  simp only [withdrawn,List.map_append,List.sum_append]
  omega

theorem Aggregates.current (aggregates : Aggregates utxos aggregated) {a : AggregatedWithdrawal}
    (isCurrent : a = (aggregated.find? (·.mainAddress = m)).getD ⟨[],m,Amount.zero,Amount.zero⟩) :
    a.spendUtxos = utxos.filter (withdrawsTo m) ∧ a.value.val = (a.spendUtxos.map payout).sum ∧
      a.mainFee.val = (a.spendUtxos.map mainFeeOf).sum := by
  cases found : aggregated.find? (·.mainAddress = m) with
  | some held =>
      rw [found,Option.getD_some] at isCurrent
      subst isCurrent
      have mem := List.mem_of_find?_eq_some found
      have own : a.mainAddress = m := by simpa using List.find?_some found
      exact ⟨own ▸ aggregates.spends a mem,aggregates.value a mem,aggregates.fee a mem⟩
  | none =>
      rw [found,Option.getD_none] at isCurrent
      subst isCurrent
      refine ⟨?_,rfl,rfl⟩
      refine (List.filter_eq_nil_iff.mpr (fun u mem goes => ?_)).symm
      obtain ⟨a,isEntry,own⟩ := aggregates.complete u mem m goes
      simpa [own] using List.find?_eq_none.mp found a isEntry

theorem withdrawnFilter {check : OutPoint × Output → Bool} :
    ((utxos.filter check).map payout).sum ≤ (utxos.map payout).sum ∧
      ((utxos.filter check).map mainFeeOf).sum ≤ (utxos.map mainFeeOf).sum :=
  ⟨(List.filter_sublist.map _).sum_le_sum (fun _ _ => Nat.zero_le _),
    (List.filter_sublist.map _).sum_le_sum (fun _ _ => Nat.zero_le _)⟩

theorem Aggregates.replace (aggregates : Aggregates utxos aggregated) {a : AggregatedWithdrawal}
    (goes : ∀ m, withdrawsTo m u = true ↔ m = a.mainAddress) (spends : a.spendUtxos = (utxos ++ [u]).filter (withdrawsTo a.mainAddress))
    (value : a.value.val = (a.spendUtxos.map payout).sum) (fee : a.mainFee.val = (a.spendUtxos.map mainFeeOf).sum) :
    Aggregates (utxos ++ [u]) (aggregated.filter (·.mainAddress ≠ a.mainAddress) ++ [a]) := by
  have cases_ {x : AggregatedWithdrawal} (mem : x ∈ aggregated.filter (·.mainAddress ≠ a.mainAddress) ++ [a]) :
      x ∈ aggregated ∧ x.mainAddress ≠ a.mainAddress ∨ x = a := by
    rcases List.mem_append.mp mem with old | new
    · exact .inl (by simpa using List.mem_filter.mp old)
    · exact .inr (List.mem_singleton.mp new)
  refine ⟨?_,fun x mem => ?_,fun x mem => ?_,fun x mem => ?_,fun v mem m isTo => ?_⟩
  · rw [List.map_append,List.map_singleton]
    refine List.Nodup.append (aggregates.distinct.sublist (List.filter_sublist.map _)) (List.nodup_singleton _) ?_
    simp [List.disjoint_singleton]
  · rcases cases_ mem with ⟨old,apart⟩ | rfl
    · have stays : withdrawsTo x.mainAddress u = false := by
        simpa using fun isTo => apart ((goes _).mp isTo)
      rw [List.filter_append,List.filter_cons_of_neg (by simp [stays]),List.filter_nil,List.append_nil]
      exact aggregates.spends x old
    · exact spends
  · rcases cases_ mem with ⟨old,_⟩ | rfl
    · exact aggregates.value x old
    · exact value
  · rcases cases_ mem with ⟨old,_⟩ | rfl
    · exact aggregates.fee x old
    · exact fee
  · by_cases here : m = a.mainAddress
    · exact ⟨a,List.mem_append_right _ List.mem_cons_self,here.symm⟩
    · rcases List.mem_append.mp mem with old | new
      · obtain ⟨x,isEntry,own⟩ := aggregates.complete v old m isTo
        exact ⟨x,List.mem_append_left _ (List.mem_filter.mpr ⟨isEntry,by simpa [own] using here⟩),own⟩
      · cases List.mem_singleton.mp new
        exact absurd ((goes m).mp isTo) here

theorem Aggregates.next (aggregates : Aggregates utxos aggregated) (bounded : withdrawn (utxos ++ [u]) < 2 ^ 64) :
    ∃ aggregated', aggregateWithdrawal aggregated u = .ok aggregated' ∧ Aggregates (utxos ++ [u]) aggregated' := by
  unfold aggregateWithdrawal
  split
  · next value mainFee address content =>
      obtain ⟨spends,isValue,isFee⟩ := @Aggregates.current utxos aggregated address aggregates _ rfl
      have goes (m : MainAddress) : withdrawsTo m u = true ↔ m = address := by simp [withdrawsTo,content,eq_comm]
      have paid : payout u = value.val := by simp [payout,content]
      have charged : mainFeeOf u = mainFee.val := by simp [mainFeeOf,content]
      obtain ⟨lessPaid,lessCharged⟩ := @withdrawnFilter utxos (withdrawsTo address)
      simp only [withdrawn,List.map_append,List.sum_append,List.map_cons,List.map_nil,List.sum_cons,List.sum_nil,
        paid,charged] at bounded
      rw [spends] at isValue isFee
      obtain ⟨total,added,isTotal⟩ := checkedAddOk (b := value)
        (a := ((aggregated.find? (·.mainAddress = address)).getD ⟨[],address,Amount.zero,Amount.zero⟩).value) (by omega)
      obtain ⟨fees,addedFee,isFees⟩ := checkedAddOk (b := mainFee)
        (a := ((aggregated.find? (·.mainAddress = address)).getD ⟨[],address,Amount.zero,Amount.zero⟩).mainFee) (by omega)
      have grown : utxos.filter (withdrawsTo address) ++ [u] = (utxos ++ [u]).filter (withdrawsTo address) := by
        rw [List.filter_append,List.filter_cons_of_pos ((goes address).mpr rfl),List.filter_nil]
      simp only [added,addedFee,okOr,okBind,spends]
      refine ⟨_,rfl,aggregates.replace (a := ⟨_,address,total,fees⟩) goes grown ?_ ?_⟩
      · simp only [List.map_append,List.sum_append,isTotal,isValue,List.map_cons,List.map_nil,List.sum_cons,List.sum_nil,paid]
        rfl
      · simp only [List.map_append,List.sum_append,isFees,isFee,List.map_cons,List.map_nil,List.sum_cons,List.sum_nil,charged]
        rfl
  · next other =>
      have stays (m : MainAddress) : withdrawsTo m u = false := by
        unfold withdrawsTo
        split
        · next value mainFee address content => exact absurd content (other value mainFee address)
        · rfl
      refine ⟨aggregated,rfl,aggregates.distinct,fun a mem => ?_,aggregates.value,aggregates.fee,fun v mem m isTo => ?_⟩
      · rw [List.filter_append,List.filter_cons_of_neg (by simp [stays]),List.filter_nil,List.append_nil]
        exact aggregates.spends a mem
      · rcases List.mem_append.mp mem with old | new
        · exact aggregates.complete v old m isTo
        · cases List.mem_singleton.mp new
          rw [stays m] at isTo
          cases isTo

theorem aggregateAll (aggregates : Aggregates utxos aggregated) (bounded : withdrawn (utxos ++ rest) < 2 ^ 64) :
    ∃ aggregated', rest.foldlM aggregateWithdrawal aggregated = .ok aggregated' ∧ Aggregates (utxos ++ rest) aggregated' := by
  induction rest generalizing utxos aggregated with
  | nil => exact ⟨aggregated,rfl,(List.append_nil utxos).symm ▸ aggregates⟩
  | cons u rest ih =>
      rw [← List.singleton_append,← List.append_assoc] at bounded ⊢
      have less : withdrawn (utxos ++ [u]) < 2 ^ 64 := by
        rw [withdrawnAppend] at bounded
        omega
      obtain ⟨middle,first,next⟩ := aggregates.next less
      obtain ⟨last,more,right⟩ := ih next bounded
      exact ⟨last,foldConsOk.mpr ⟨middle,first,more⟩,right⟩

end Aggregation

section Packing

variable {F : Type} {lib : Externals F} {draft draft' : BundleDraft} {aggregated : List AggregatedWithdrawal}

structure Fits (draft : BundleDraft) : Prop where
  size : draft.bundleTxoutsSize = (draft.bundleOutputs.map TxOut.size).sum
  predicted : (predictWeight draft.bundleOutputs.length draft.bundleTxoutsSize).isSome = true

def payoutTo (lib : Externals F) (a : AggregatedWithdrawal) : TxOut := ⟨a.value,lib.scriptPubkey a.mainAddress⟩

structure Packs (lib : Externals F) (draft draft' : BundleDraft) (picked : List AggregatedWithdrawal) : Prop where
  spends : draft'.spendUtxos = draft.spendUtxos ++ aggregatedUtxos picked
  outputs : draft'.bundleOutputs = draft.bundleOutputs ++ picked.map (payoutTo lib)
  fee : draft'.fee.val = draft.fee.val + (picked.map (·.mainFee.val)).sum

theorem Packs.none : Packs lib draft draft [] :=
  ⟨(List.append_nil _).symm,(List.append_nil _).symm,rfl⟩

theorem txoutSizeSome {spkSize size : Nat} (isSize : txoutSize spkSize = some size) : size = 8 + varIntSize spkSize + spkSize := by
  simp only [txoutSize] at isSize
  split at isSize
  · exact (Option.some.inj isSize).symm
  · cases isSize

theorem packTotal (fits : Fits draft) (bounded : draft.fee.val + (aggregated.map (·.mainFee.val)).sum < 2 ^ 64) :
    ∃ draft' picked, packBundle lib draft aggregated = .ok draft' ∧ picked.Sublist aggregated ∧
      Packs lib draft draft' picked ∧ Fits draft' := by
  induction aggregated generalizing draft with
  | nil => exact ⟨draft,[],rfl,.slnil,.none,fits⟩
  | cons a rest ih =>
      have stop : ∃ draft' picked, Except.ok draft = (Except.ok draft' : Except Error BundleDraft) ∧
          picked.Sublist (a :: rest) ∧ Packs lib draft draft' picked ∧ Fits draft' :=
        ⟨draft,[],rfl,List.nil_sublist _,.none,fits⟩
      rw [List.map_cons,List.sum_cons] at bounded
      have skip : ∃ draft' picked, packBundle lib draft rest = .ok draft' ∧
          picked.Sublist (a :: rest) ∧ Packs lib draft draft' picked ∧ Fits draft' := by
        obtain ⟨draft',picked,packed,sub,packs⟩ := ih fits (by omega)
        exact ⟨draft',picked,packed,sub.cons a,packs⟩
      simp only [packBundle]
      split
      · exact stop
      split
      · exact skip
      split
      · exact skip
      next size isSize =>
        split
        · exact stop
        split
        · exact stop
        next fitsStill =>
          obtain ⟨fee,added,isFee⟩ := checkedAddOk (a := draft.fee) (b := a.mainFee) (by omega)
          simp only [added]
          have payoutSize : size = (payoutTo lib a).size := txoutSizeSome isSize
          have next : Fits ⟨fee,draft.spendUtxos ++ a.spendUtxos,draft.bundleOutputs ++ [payoutTo lib a],
              draft.bundleTxoutsSize + size⟩ := by
            refine ⟨?_,?_⟩
            · simp only [List.map_append,List.map_singleton,List.sum_append,List.sum_singleton,fits.size,payoutSize]
            · simpa [payoutTo,Option.isSome_iff_ne_none] using fitsStill
          obtain ⟨draft',picked,packed,sub,packs,last⟩ := ih next (by simp only [isFee]; omega)
          refine ⟨draft',a :: picked,packed,sub.cons_cons a,⟨?_,?_,?_⟩,last⟩
          · rw [packs.spends,aggregatedUtxos,aggregatedUtxos,List.flatMap_cons,List.append_assoc]
          · rw [packs.outputs,List.map_cons,List.append_assoc]
            rfl
          · rw [packs.fee,isFee,List.map_cons,List.sum_cons,Nat.add_assoc]

end Packing

section Collection

variable {F : Type} {lib : Externals F} {weight : List TxIn → List TxOut → Nat} {utxos : Table OutPoint Output}
  {bundle : WithdrawalBundle}

structure BundlePays (lib : Externals F) (weight : List TxIn → List TxOut → Nat) (utxos : Table OutPoint Output)
    (bundle : WithdrawalBundle) (paid : List MainAddress) (payouts : List TxOut) (fee : Amount) (predicted : Nat) : Prop where
  outputs : ∃ commitment, bundle.outputs = feeTxout fee :: inputsTxout commitment :: payouts
  predicts : predictWeight payouts.length (payouts.map TxOut.size).sum = some predicted
  weighs : weight [treasuryInput] bundle.outputs ≤ predicted
  standard : predicted ≤ maxStandardWeight
  distinct : paid.Nodup
  pays : List.Forall₂ (fun m output => output.scriptPubkey = lib.scriptPubkey m ∧
    output.value.val = ((utxos.entries.filter (withdrawsTo m)).map payout).sum) paid payouts
  whole : ∀ u m, u ∈ utxos.entries → withdrawsTo m u = true → (u ∈ bundle.spendUtxos ↔ m ∈ paid)
  spends : (bundle.spendUtxos.map (·.1)).Nodup ∧ ∀ u ∈ bundle.spendUtxos, u ∈ utxos.entries ∧ ∃ m ∈ paid, withdrawsTo m u = true
  balance : (bundle.outputs.map (·.value.val)).sum + fee.val = (bundle.spendUtxos.map (·.2.getValue.val)).sum

theorem worthOfWithdrawals {l : List (OutPoint × Output)} (all : ∀ u ∈ l, u.2.content.isWithdrawal = true)
    (bounded : withdrawn l < 2 ^ 64) : (l.map (·.2.getValue.val)).sum = withdrawn l := by
  induction l with
  | nil => rfl
  | cons u rest ih =>
      have split : withdrawn (u :: rest) = payout u + mainFeeOf u + withdrawn rest := by
        simp only [withdrawn,List.map_cons,List.sum_cons]
        omega
      rw [split] at bounded
      have here : u.2.getValue.val = payout u + mainFeeOf u := by
        have isOne := all u List.mem_cons_self
        unfold Output.getValue
        unfold payout mainFeeOf at bounded ⊢
        cases content : u.2.content with
        | withdrawal value mainFee mainAddress =>
            simp only [content] at bounded
            obtain ⟨total,added,isTotal⟩ := checkedAddOk (a := value) (b := mainFee) (by omega)
            simp only [Content.getValue,added,Option.getD_some,isTotal]
        | value amount => simp [content,Content.isWithdrawal] at isOne
        | swapPending amount swapId => simp [content,Content.isWithdrawal] at isOne
      rw [List.map_cons,List.sum_cons,here,split,ih (fun v mem => all v (List.mem_cons_of_mem u mem)) (by omega)]

theorem withdrawsOnce {u : OutPoint × Output} {m m' : MainAddress} (isTo : withdrawsTo m u = true)
    (isTo' : withdrawsTo m' u = true) : m = m' := by
  unfold withdrawsTo at isTo isTo'
  cases content : u.2.content with
  | withdrawal value mainFee address =>
      simp only [content,decide_eq_true_eq] at isTo isTo'
      exact isTo.symm.trans isTo'
  | value amount => simp [content] at isTo
  | swapPending amount swapId => simp [content] at isTo

theorem withdrawnSubperm {l l' : List (OutPoint × Output)} (sub : l.Subperm l') : withdrawn l ≤ withdrawn l' := by
  obtain ⟨part,perm,inside⟩ := sub
  have payouts : (part.map payout).sum ≤ (l'.map payout).sum := (inside.map _).sum_le_sum (fun _ _ => Nat.zero_le _)
  have fees : (part.map mainFeeOf).sum ≤ (l'.map mainFeeOf).sum := (inside.map _).sum_le_sum (fun _ _ => Nat.zero_le _)
  rw [withdrawn,withdrawn,← (perm.map payout).sum_eq,← (perm.map mainFeeOf).sum_eq]
  exact Nat.add_le_add payouts fees

theorem withdrawnPicked {aggregated picked : List AggregatedWithdrawal} {entries : List (OutPoint × Output)}
    (aggregates : Aggregates entries aggregated) (inside : picked ⊆ aggregated) :
    withdrawn (aggregatedUtxos picked) = (picked.map (·.value.val)).sum + (picked.map (·.mainFee.val)).sum := by
  induction picked with
  | nil => rfl
  | cons a rest ih =>
      have isEntry := inside List.mem_cons_self
      have isValue := aggregates.value a isEntry
      have isFee := aggregates.fee a isEntry
      have own : withdrawn a.spendUtxos = a.value.val + a.mainFee.val := by rw [withdrawn,isValue,isFee]
      rw [aggregatedUtxos,List.flatMap_cons,withdrawnAppend,own,List.map_cons,List.map_cons,List.sum_cons,List.sum_cons]
      have others := ih (fun x mem => inside (List.mem_cons_of_mem a mem))
      rw [aggregatedUtxos] at others
      omega

theorem pickedPays {aggregated picked : List AggregatedWithdrawal} {draft : BundleDraft} {commitment : Hash}
    (weighs : Weighs lib weight) (aggregates : Aggregates utxos.entries aggregated)
    (bounded : withdrawn utxos.entries < 2 ^ 64) (distinct : (picked.map (·.mainAddress)).Nodup) (inside : picked ⊆ aggregated)
    (packs : Packs lib ⟨Amount.zero,[],[],0⟩ draft picked) (fits : Fits draft)
    (source : BundleSource utxos ⟨sortByOutPoint draft.spendUtxos,feeTxout draft.fee :: inputsTxout commitment :: draft.bundleOutputs⟩) :
    ∃ predicted, BundlePays lib weight utxos
      ⟨sortByOutPoint draft.spendUtxos,feeTxout draft.fee :: inputsTxout commitment :: draft.bundleOutputs⟩
      (picked.map (·.mainAddress)) draft.bundleOutputs draft.fee predicted := by
  obtain ⟨predicted,isPredicted⟩ := Option.isSome_iff_exists.mp fits.predicted
  rw [fits.size] at isPredicted
  obtain ⟨isWeight,_,standard⟩ := @predictedWeight _ lib weight draft.bundleOutputs draft.fee commitment predicted weighs isPredicted
  have outputs : draft.bundleOutputs = picked.map (payoutTo lib) := packs.outputs
  have spends : draft.spendUtxos = aggregatedUtxos picked := packs.spends
  have memSpends (u : OutPoint × Output) : u ∈ sortByOutPoint draft.spendUtxos ↔ ∃ a ∈ picked, u ∈ a.spendUtxos := by
    rw [memSortByOutPoint,spends,aggregatedUtxos,List.mem_flatMap]
  refine ⟨predicted,⟨commitment,rfl⟩,isPredicted,Nat.le_of_eq isWeight,standard,distinct,?_,?_,⟨source.distinct,?_⟩,?_⟩
  · rw [outputs,List.forall₂_map_left_iff,List.forall₂_map_right_iff,List.forall₂_same]
    intro a mem
    refine ⟨rfl,?_⟩
    rw [← aggregates.spends a (inside mem)]
    exact aggregates.value a (inside mem)
  · intro u m mem isTo
    rw [memSpends]
    constructor
    · rintro ⟨a,isPicked,isSpent⟩
      rw [aggregates.spends a (inside isPicked)] at isSpent
      rw [withdrawsOnce isTo (List.mem_filter.mp isSpent).2]
      exact List.mem_map_of_mem isPicked
    · intro isPaid
      obtain ⟨a,isPicked,rfl⟩ := List.mem_map.mp isPaid
      refine ⟨a,isPicked,?_⟩
      rw [aggregates.spends a (inside isPicked)]
      exact List.mem_filter.mpr ⟨mem,isTo⟩
  · intro u mem
    obtain ⟨a,isPicked,isSpent⟩ := (memSpends u).mp mem
    rw [aggregates.spends a (inside isPicked)] at isSpent
    obtain ⟨isEntry,isTo⟩ := List.mem_filter.mp isSpent
    exact ⟨isEntry,a.mainAddress,List.mem_map_of_mem isPicked,isTo⟩
  · have perm : (sortByOutPoint draft.spendUtxos).Perm draft.spendUtxos := List.perm_insertionSort _ _
    have sub : draft.spendUtxos.Subperm utxos.entries := by
      refine perm.symm.subperm.trans (List.subperm_of_subset (List.Nodup.of_map _ source.distinct) (fun u mem => ?_))
      exact Table.memEntries.mpr (source.unspent u mem)
    have all (u : OutPoint × Output) (mem : u ∈ draft.spendUtxos) : u.2.content.isWithdrawal = true :=
      source.withdrawals u (memSortByOutPoint.mpr mem)
    rw [(perm.map _).sum_eq,worthOfWithdrawals all (Nat.lt_of_le_of_lt (withdrawnSubperm sub) bounded),spends,
      withdrawnPicked aggregates inside]
    have values : (draft.bundleOutputs.map (·.value.val)).sum = (picked.map (·.value.val)).sum := by
      rw [outputs,List.map_map]
      rfl
    have fees : draft.fee.val = (picked.map (·.mainFee.val)).sum := packs.fee.trans (Nat.zero_add _)
    have commitments : (feeTxout draft.fee).value.val = 0 ∧ (inputsTxout commitment).value.val = 0 := ⟨rfl,rfl⟩
    rw [List.map_cons,List.map_cons,List.sum_cons,List.sum_cons,values,commitments.1,commitments.2,← fees]
    omega

theorem newFits (weighs : Weighs lib weight) {blockHeight : Nat} {draft : BundleDraft} (fits : Fits draft)
    (spendUtxos : List (OutPoint × Output)) :
    ∃ commitment, WithdrawalBundle.new lib blockHeight draft.fee spendUtxos draft.bundleOutputs =
      .ok ⟨spendUtxos,feeTxout draft.fee :: inputsTxout commitment :: draft.bundleOutputs⟩ := by
  obtain ⟨predicted,isPredicted⟩ := Option.isSome_iff_exists.mp fits.predicted
  rw [fits.size] at isPredicted
  refine ⟨lib.blake3 (encodeSeq encodeOutPoint (spendUtxos.map (·.1) ++ [.regular 0 (UInt32.ofNat blockHeight)])),?_⟩
  obtain ⟨_,light,standard⟩ := @predictedWeight _ lib weight draft.bundleOutputs draft.fee
    (lib.blake3 (encodeSeq encodeOutPoint (spendUtxos.map (·.1) ++ [.regular 0 (UInt32.ofNat blockHeight)]))) predicted
    weighs isPredicted
  simp only [WithdrawalBundle.new,bindOk,ensureOk,pureOk]
  exact ⟨(),Nat.le_trans light standard,rfl⟩

theorem entryFees {aggregated : List AggregatedWithdrawal} (aggregates : Aggregates utxos.entries aggregated)
    (collected : utxos.entries.foldlM aggregateWithdrawal [] = .ok aggregated) :
    (aggregated.map (·.mainFee.val)).sum ≤ withdrawn utxos.entries := by
  have sub := aggregateAllSubperm collected
  have part := withdrawnSubperm (sub.trans List.filter_sublist.subperm)
  rw [withdrawnPicked aggregates (List.Subset.refl _)] at part
  omega

/- The bundle never weighs too much, and pays each address everything or nothing. -/
theorem bundleCorrect (weighs : Weighs lib weight) (s : State F) (blockHeight : Nat)
    (summed : withdrawn s.utxos.entries < 2 ^ 64) :
    ∃ collected, collectWithdrawalBundle lib s.utxos blockHeight = .ok collected ∧
      ∀ bundle, collected = some bundle → ∃ paid payouts fee predicted,
        BundlePays lib weight s.utxos bundle paid payouts fee predicted := by
  have start : Aggregates [] [] := ⟨List.nodup_nil,nofun,nofun,nofun,nofun⟩
  obtain ⟨aggregated,collected,aggregates⟩ := @aggregateAll [] s.utxos.entries [] start summed
  rw [List.nil_append] at aggregates
  by_cases empty : aggregated.isEmpty = true
  · refine ⟨none,?_,nofun⟩
    simp only [collectWithdrawalBundle,collected,okBind,empty,if_true]
    rfl
  · have sorted : (aggregated.insertionSort (fun a b => a.before b)).Perm aggregated := List.perm_insertionSort _ _
    have fees : (Amount.zero).val + ((aggregated.insertionSort (fun a b => a.before b)).map (·.mainFee.val)).sum < 2 ^ 64 := by
      rw [(sorted.map _).sum_eq,Amount.valZero,Nat.zero_add]
      exact Nat.lt_of_le_of_lt (entryFees aggregates collected) summed
    obtain ⟨draft,picked,packed,sub,packs,fits⟩ := @packTotal _ lib ⟨Amount.zero,[],[],0⟩
      (aggregated.insertionSort (fun a b => a.before b)) ⟨rfl,rfl⟩ fees
    obtain ⟨commitment,made⟩ := @newFits _ lib weight weighs blockHeight draft fits (sortByOutPoint draft.spendUtxos)
    have done : collectWithdrawalBundle lib s.utxos blockHeight =
        .ok (some ⟨sortByOutPoint draft.spendUtxos,feeTxout draft.fee :: inputsTxout commitment :: draft.bundleOutputs⟩) := by
      simp only [collectWithdrawalBundle,collected,okBind,empty,packed,made]
      rfl
    refine ⟨_,done,fun bundle isBundle => ?_⟩
    cases isBundle
    have distinct : (picked.map (·.mainAddress)).Nodup :=
      ((sorted.map _).nodup_iff.mpr aggregates.distinct).sublist (sub.map _)
    have inside : picked ⊆ aggregated := fun a mem => sorted.subset (sub.subset mem)
    obtain ⟨predicted,pays⟩ := pickedPays weighs aggregates summed distinct inside packs fits (collectSource done)
    exact ⟨_,_,_,predicted,pays⟩

end Collection

namespace Reference

def serializedWeight (inputs : List TxIn) (outputs : List TxOut) : Nat := 3 * baseSize inputs outputs + totalSize inputs outputs

def weighing : Externals Forest := { externals with bundleWeight := serializedWeight [] }

theorem twoPayoutsCorrect : ∃ bundle paid payouts fee predicted,
    collectWithdrawalBundle weighing twoPayouts.utxos 4 = .ok (some bundle) ∧
    BundlePays weighing serializedWeight twoPayouts.utxos bundle paid payouts fee predicted := by
  have weighs : Weighs weighing serializedWeight := ⟨fun _ _ => rfl,fun _ => rfl⟩
  obtain ⟨collected,done,right⟩ := bundleCorrect weighs twoPayouts 4 (by decide +kernel)
  cases collected with
  | none =>
      have pays : paysOut (collectWithdrawalBundle weighing twoPayouts.utxos 4) = some [0,0,400,400] := by decide +kernel
      rw [done] at pays
      cases pays
  | some bundle =>
      obtain ⟨paid,payouts,fee,predicted,pays⟩ := right bundle rfl
      exact ⟨bundle,paid,payouts,fee,predicted,done,pays⟩

end Reference

end Coinshift
