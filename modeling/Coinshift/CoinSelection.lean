import Coinshift.Greedy
import Coinshift.SidechainWealth
import Coinshift.Wallet

/-! How the wallet chooses the outputs it spends.
Outputs are taken from the smallest on until they cover the value; withdrawals and outputs locked to a swap are passed
over. The sort is not stable, so equal values may come in any order. -/
namespace Coinshift
open Checked Greedy

inductive SelectError where
  | amountOverflow
  | notEnoughFunds
  deriving DecidableEq, Repr

structure SortedUtxos (wallet : Wallet) where
  list : List (OutPoint × Output)
  perm : list.Perm wallet.utxos.entries
  ascending : list.Pairwise (fun a b => a.2.getValue ≤ b.2.getValue)

instance : Std.Total (fun a b : OutPoint × Output => a.2.getValue ≤ b.2.getValue) :=
  ⟨fun a b => Nat.le_total a.2.getValue.val b.2.getValue.val⟩

instance : IsTrans (OutPoint × Output) (fun a b => a.2.getValue ≤ b.2.getValue) := ⟨fun _ _ _ => Nat.le_trans⟩

def sortUtxos (wallet : Wallet) : SortedUtxos wallet where
  list := wallet.utxos.entries.insertionSort (fun a b => a.2.getValue ≤ b.2.getValue)
  perm := List.perm_insertionSort _ _
  ascending := List.pairwise_insertionSort _ _

section Selection

variable (value : Amount) (isLocked : OutPoint → Bool)

def selectCoin : List (OutPoint × Output) → Amount → Table OutPoint Output → Except SelectError (Amount × Table OutPoint Output)
  | [], total, selected => .ok (total,selected)
  | (outpoint,output) :: utxos, total, selected =>
      if output.content.isWithdrawal then selectCoin utxos total selected
      -- an output whose swap was cancelled or has expired is not locked any more
      else if isLocked outpoint then selectCoin utxos total selected
      else if value ≤ total then .ok (total,selected)
      else do
        let total ← okOr (total.checkedAdd output.getValue) .amountOverflow
        selectCoin utxos total (selected.put outpoint output)

def Wallet.selectCoinsWithFilter (wallet : Wallet) (utxos : SortedUtxos wallet) :
    Except SelectError (Amount × Table OutPoint Output) := do
  let (total,selected) ← selectCoin value isLocked utxos.list Amount.zero ∅
  if total < value then .error .notEnoughFunds else pure (total,selected)

def selectable (utxo : OutPoint × Output) : Bool := !utxo.2.content.isWithdrawal && !isLocked utxo.1

end Selection

variable {wallet : Wallet} {value total : Amount} {isLocked : OutPoint → Bool} {selected : Table OutPoint Output}
  {utxos : List (OutPoint × Output)}

def worth (utxo : OutPoint × Output) : Nat := utxo.2.getValue.val

def putAll (selected : Table OutPoint Output) (utxos : List (OutPoint × Output)) : Table OutPoint Output :=
  utxos.foldl (fun selected utxo => selected.put utxo.1 utxo.2) selected

theorem putAllEntries (distinct : (utxos.map (·.1)).Nodup) (fresh : ∀ u ∈ utxos, selected.tryGet u.1 = none) :
    (putAll selected utxos).entries.Perm (utxos ++ selected.entries) := by
  induction utxos generalizing selected with
  | nil => exact .refl _
  | cons u rest ih =>
      rw [List.map_cons,List.nodup_cons] at distinct
      have entered : (selected.put u.1 u.2).entries.Perm (u :: selected.entries) := by
        have entries := @Table.putEntries _ _ _ selected u.1 u.2
        rwa [Table.deleteAbsent (fresh u List.mem_cons_self)] at entries
      have others : ∀ v ∈ rest, (selected.put u.1 u.2).tryGet v.1 = none := by
        intro v mem
        have apart : v.1 ≠ u.1 := fun same => distinct.1 (same ▸ List.mem_map_of_mem mem)
        rw [Table.tryGetPutOther apart]
        exact fresh v (List.mem_cons_of_mem u mem)
      exact (ih distinct.2 others).trans ((entered.append_left rest).trans List.perm_middle)

theorem selectCoinTakes (bounded : total.val + weigh worth (utxos.filter (selectable isLocked)) < 2 ^ 64) :
    ∃ total', selectCoin value isLocked utxos total selected =
        .ok (total',putAll selected (takeUntil worth value.val total.val (utxos.filter (selectable isLocked)))) ∧
      total'.val = total.val + weigh worth (takeUntil worth value.val total.val (utxos.filter (selectable isLocked))) := by
  induction utxos generalizing total selected with
  | nil => exact ⟨total,rfl,rfl⟩
  | cons u rest ih =>
      obtain ⟨outpoint,output⟩ := u
      unfold selectCoin
      cases passed : selectable isLocked (outpoint,output) with
      | false =>
          rw [List.filter_cons_of_neg (by simp [passed])] at bounded ⊢
          have skips := @ih total selected bounded
          simp only [selectable,Bool.and_eq_false_iff,Bool.not_eq_false'] at passed
          rcases passed with withdrawal | locked
          · rw [if_pos withdrawal]
            exact skips
          · rw [if_pos locked,ite_self]
            exact skips
      | true =>
          rw [List.filter_cons_of_pos passed] at bounded ⊢
          simp only [selectable,Bool.and_eq_true,Bool.not_eq_true'] at passed
          rw [if_neg (by simp [passed.1]),if_neg (by simp [passed.2])]
          unfold takeUntil
          by_cases reached : value ≤ total
          · rw [if_pos reached,if_pos (show value.val ≤ total.val from reached)]
            exact ⟨total,rfl,rfl⟩
          · rw [weighCons,← Nat.add_assoc] at bounded
            obtain ⟨next,added,sum⟩ := checkedAddOk (a := total) (b := output.getValue) (by
              have : worth (outpoint,output) = output.getValue.val := rfl
              omega)
            have next' : total.val + worth (outpoint,output) = next.val := sum.symm
            rw [if_neg reached,if_neg (show ¬ value.val ≤ total.val from reached),added]
            simp only [okOr,okBind]
            rw [next'] at bounded ⊢
            obtain ⟨total',done,isTotal⟩ := @ih next (selected.put outpoint output) bounded
            refine ⟨total',done,?_⟩
            rw [isTotal,weighCons,← Nat.add_assoc,next']

theorem weighPerm {l l' : List (OutPoint × Output)} (perm : l.Perm l') : weigh worth l = weigh worth l' := (perm.map _).sum_eq

structure Chosen (wallet : Wallet) (utxos : SortedUtxos wallet) (value : Amount) (isLocked : OutPoint → Bool) (total : Amount)
    (selected : Table OutPoint Output) : Prop where
  entries : selected.entries.Perm (takeUntil worth value.val 0 (utxos.list.filter (selectable isLocked)))
  total : total.val = weigh worth (takeUntil worth value.val 0 (utxos.list.filter (selectable isLocked)))

theorem chosenOf (utxos : SortedUtxos wallet) (bounded : weigh worth wallet.utxos.entries < 2 ^ 64) :
    ∃ total selected, selectCoin value isLocked utxos.list Amount.zero ∅ = .ok (total,selected) ∧
      Chosen wallet utxos value isLocked total selected := by
  have small : Amount.zero.val + weigh worth (utxos.list.filter (selectable isLocked)) < 2 ^ 64 := by
    have part : weigh worth (utxos.list.filter (selectable isLocked)) ≤ weigh worth utxos.list :=
      (List.filter_sublist.map _).sum_le_sum (fun _ _ => Nat.zero_le _)
    rw [weighPerm utxos.perm] at part
    have zero : Amount.zero.val = 0 := rfl
    omega
  have keys : ((utxos.list.filter (selectable isLocked)).map (·.1)).Nodup :=
    (((utxos.perm.map _).nodup_iff.mpr Table.entriesDistinct)).sublist (List.filter_sublist.map _)
  obtain ⟨total,done,isTotal⟩ := @selectCoinTakes value Amount.zero isLocked ∅ utxos.list small
  refine ⟨total,_,done,?_,?_⟩
  · have listed := @putAllEntries ∅ (takeUntil worth value.val 0 (utxos.list.filter (selectable isLocked)))
      (keys.sublist (takePrefix.sublist.map _)) (fun u _ => Table.tryGetEmpty)
    have nothing : (∅ : Table OutPoint Output).entries = [] := rfl
    rw [nothing,List.append_nil] at listed
    exact listed
  · rw [isTotal]
    exact Nat.zero_add _

theorem memChosen {utxos : SortedUtxos wallet} (chosen : Chosen wallet utxos value isLocked total selected) {o : OutPoint} {y : Output}
    (found : selected.tryGet o = some y) : (o,y) ∈ utxos.list.filter (selectable isLocked) :=
  takePrefix.subset (chosen.entries.mem_iff.mp (Table.memEntries.mpr found))

/- The value is covered whenever what may be chosen covers it, and then not by one output too many. -/
theorem coinSelectionExact (wallet : Wallet) (utxos : SortedUtxos wallet) (value : Amount) (isLocked : OutPoint → Bool)
    (bounded : (wallet.utxos.entries.map worth).sum < Amount.max.val) :
    ((∃ chosen, wallet.selectCoinsWithFilter value isLocked utxos = .ok chosen) ↔
      value.val ≤ ((wallet.utxos.entries.filter (selectable isLocked)).map worth).sum) ∧
    ∀ total selected, wallet.selectCoinsWithFilter value isLocked utxos = .ok (total,selected) →
      (∀ o y, selected.tryGet o = some y →
        wallet.utxos.tryGet o = some y ∧ y.content.isWithdrawal = false ∧ isLocked o = false) ∧
      total.val = (selected.entries.map worth).sum ∧ value ≤ total ∧
      ∀ o y, selected.tryGet o = some y → (∀ o' y', selected.tryGet o' = some y' → y'.getValue ≤ y.getValue) →
        ((selected.delete o).entries.map worth).sum < value.val := by
  have below : Amount.max.val < 2 ^ 64 := by decide
  obtain ⟨total,selected,done,chosen⟩ := @chosenOf wallet value isLocked utxos (Nat.lt_trans bounded below)
  have reaches := @takeReaches _ worth value.val (utxos.list.filter (selectable isLocked)) 0
  rw [Nat.zero_add,Nat.zero_add,← chosen.total,weighPerm (utxos.perm.filter _)] at reaches
  have outcome : wallet.selectCoinsWithFilter value isLocked utxos =
      if total < value then .error .notEnoughFunds else .ok (total,selected) := by
    rw [Wallet.selectCoinsWithFilter,done]
    rfl
  rw [outcome]
  constructor
  · refine Iff.trans ?_ reaches
    split
    · next short =>
        have less : total.val < value.val := short
        exact ⟨fun found => (nomatch found),fun enough => absurd enough (Nat.not_le.mpr less)⟩
    · next enough => exact ⟨fun _ => Nat.not_lt.mp enough,fun _ => ⟨_,rfl⟩⟩
  · intro total' selected' isChosen
    split at isChosen
    · cases isChosen
    · next enough =>
        cases isChosen
        refine ⟨fun o y found => ?_,?_,Nat.not_lt.mp enough,fun o y found largest => ?_⟩
        · obtain ⟨mem,passes⟩ := List.mem_filter.mp (memChosen chosen found)
          simp only [selectable,Bool.and_eq_true,Bool.not_eq_true'] at passes
          exact ⟨Table.memEntries.mp (utxos.perm.mem_iff.mp mem),passes⟩
        · exact chosen.total.trans (weighPerm chosen.entries).symm
        · have short := @takeLargest _ worth value.val (utxos.list.filter (selectable isLocked)) 0 (o,y)
            (chosen.entries.mem_iff.mp (Table.memEntries.mpr found)) (by
              intro u mem
              exact largest u.1 u.2 (Table.memEntries.mp (chosen.entries.mem_iff.mpr mem)))
          have split := weighPerm (Table.foundEntries found)
          rw [weighCons,weighPerm chosen.entries] at split
          show weigh worth (selected.delete o).entries < value.val
          omega

namespace Reference

def fourOutputs : Wallet := Wallet.new.putUtxos [deposited 1 (coin alice 600),deposited 2 (coin alice 400),
  deposited 3 (coin alice 100),deposited 4 ⟨addressOf alice,.withdrawal ⟨300⟩ ⟨50⟩ ⟨2⟩⟩]

def thirdLocked (o : OutPoint) : Bool := o = .deposit 3 0

theorem coinsSelected : (∃ total selected, fourOutputs.selectCoinsWithFilter ⟨500⟩ thirdLocked (sortUtxos fourOutputs) =
      .ok (total,selected) ∧ total.val = (selected.entries.map worth).sum ∧ (⟨500⟩ : Amount) ≤ total) ∧
    ¬ ∃ chosen, fourOutputs.selectCoinsWithFilter ⟨1001⟩ thirdLocked (sortUtxos fourOutputs) = .ok chosen := by
  have bounded : (fourOutputs.utxos.entries.map worth).sum < Amount.max.val := by decide +kernel
  obtain ⟨iff,sound⟩ := coinSelectionExact fourOutputs (sortUtxos fourOutputs) ⟨500⟩ thirdLocked bounded
  obtain ⟨short,_⟩ := coinSelectionExact fourOutputs (sortUtxos fourOutputs) ⟨1001⟩ thirdLocked bounded
  obtain ⟨⟨total,selected⟩,done⟩ := iff.mpr (by decide +kernel)
  obtain ⟨_,isTotal,covers,_⟩ := sound total selected done
  exact ⟨⟨total,selected,done,isTotal,covers⟩,fun found => absurd (short.mp found) (by decide +kernel)⟩

end Reference

end Coinshift
