import Coinshift.PegOps
import Coinshift.Reference
import Mathlib.Order.Defs.Unbundled

/-! The bundle collected at a height is canonical: it does not depend on the order in which the
hash maps that gather the withdrawals happen to list what they hold. -/
namespace Coinshift
open Checked

section Order

def AggregatedWithdrawal.cmp (a b : AggregatedWithdrawal) : Ordering :=
  (compare a.mainFee.val b.mainFee.val).then
    ((compare a.value.val b.value.val).then (compare a.mainAddress.place b.mainAddress.place))

variable {a b c : AggregatedWithdrawal}

theorem MainAddress.placeInj {x y : MainAddress} (same : x.place = y.place) : x = y := by
  cases x
  cases y
  exact congrArg _ same

theorem cmpLt : a.cmp b = .lt ↔ a.mainFee.val < b.mainFee.val ∨ a.mainFee.val = b.mainFee.val ∧
    (a.value.val < b.value.val ∨ a.value.val = b.value.val ∧ a.mainAddress.place < b.mainAddress.place) := by
  simp only [AggregatedWithdrawal.cmp,Ordering.then_eq_lt,Nat.compare_eq_lt,Nat.compare_eq_eq]

theorem beforeCmp : a.before b = true ↔ a.cmp b ≠ .lt := by
  rw [ne_eq,cmpLt]
  unfold AggregatedWithdrawal.before
  split
  · next fees =>
      split
      · next values =>
          rw [fees,values,decide_eq_true_eq]
          omega
      · next values =>
          have apart : a.value.val ≠ b.value.val := fun same => values (Amount.valInj same)
          rw [fees,decide_eq_true_eq]
          show b.value.val < a.value.val ↔ _
          omega
  · next fees =>
      have apart : a.mainFee.val ≠ b.mainFee.val := fun same => fees (Amount.valInj same)
      rw [decide_eq_true_eq]
      show b.mainFee.val < a.mainFee.val ↔ _
      omega

theorem beforeTotal : a.before b = true ∨ b.before a = true := by
  simp only [beforeCmp,ne_eq,cmpLt]
  omega

theorem beforeTrans (first : a.before b = true) (second : b.before c = true) : a.before c = true := by
  simp only [beforeCmp,ne_eq,cmpLt] at *
  omega

theorem beforeAntisymm (forth : a.before b = true) (back : b.before a = true) : a.mainAddress = b.mainAddress := by
  simp only [beforeCmp,ne_eq,cmpLt] at forth back
  exact MainAddress.placeInj (by omega)

instance : Std.Total (fun a b : AggregatedWithdrawal => a.before b = true) := ⟨fun _ _ => beforeTotal⟩

instance : IsTrans AggregatedWithdrawal (fun a b => a.before b = true) := ⟨fun _ _ _ => beforeTrans⟩

theorem cmpStrict {withdrawals : Set AggregatedWithdrawal} (distinct : withdrawals.InjOn (·.mainAddress)) :
    IsStrictTotalOrder withdrawals (fun a b => a.1.cmp b.1 = .lt) where
  trichotomous a b notLess notGreater := by
    have addresses := beforeAntisymm (beforeCmp.mpr notLess) (beforeCmp.mpr notGreater)
    exact Subtype.ext (distinct a.2 b.2 addresses)
  irrefl a less := by
    rw [cmpLt] at less
    omega
  trans a b c first second := by
    rw [cmpLt] at *
    omega

end Order

section Sorting

theorem sortForgets {α : Type} {r : α → α → Prop} [DecidableRel r] [Std.Total r] [IsTrans α r] {l l' : List α}
    (perm : l.Perm l') (apart : ∀ a ∈ l, ∀ b ∈ l, r a b → r b a → a = b) :
    l.insertionSort r = l'.insertionSort r := by
  have sorted : (l.insertionSort r).Perm (l'.insertionSort r) :=
    (List.perm_insertionSort r l).trans (perm.trans (List.perm_insertionSort r l').symm)
  refine List.Perm.eq_of_pairwise ?_ (List.pairwise_insertionSort r l) (List.pairwise_insertionSort r l') sorted
  intro a b left right
  exact apart a ((List.mem_insertionSort r).mp left) b (perm.symm.subset ((List.mem_insertionSort r).mp right))

def OutPoint.parts : OutPoint → Nat × Hash × UInt32
  | .regular txid vout => (0,txid,vout)
  | .coinbase root vout => (1,root,vout)
  | .deposit txid vout => (2,txid,vout)

theorem partsInj {x y : OutPoint} (same : x.parts = y.parts) : x = y := by
  cases x <;> cases y <;> simp_all [OutPoint.parts]

theorem placeOfParts (x : OutPoint) :
    outPointPlace x = (x.parts.1 * 2 ^ 256 + x.parts.2.1.toNat) * 2 ^ 32 + x.parts.2.2.toNat := by
  cases x <;> simp only [outPointPlace,OutPoint.parts,Nat.zero_mul,Nat.zero_add,Nat.one_mul]

theorem outPointPlaceInj {x y : OutPoint} (same : outPointPlace x = outPointPlace y) : x = y := by
  have hash := x.parts.2.1.isLt
  have hash' := y.parts.2.1.isLt
  have index := x.parts.2.2.toNat_lt
  have index' := y.parts.2.2.toNat_lt
  rw [placeOfParts,placeOfParts] at same
  refine partsInj (Prod.ext (by omega) (Prod.ext ?_ ?_))
  · exact BitVec.eq_of_toNat_eq (by omega)
  · exact UInt32.toNat_inj.mp (by omega)

instance : Std.Total (fun a b : OutPoint × Output => outPointPlace a.1 ≤ outPointPlace b.1) :=
  ⟨fun _ _ => Nat.le_total _ _⟩

instance : IsTrans (OutPoint × Output) (fun a b => outPointPlace a.1 ≤ outPointPlace b.1) :=
  ⟨fun _ _ _ => Nat.le_trans⟩

theorem sortByOutPointForgets {spends spends' : List (OutPoint × Output)} (perm : spends.Perm spends')
    (distinct : (spends.map (·.1)).Nodup) : sortByOutPoint spends = sortByOutPoint spends' := by
  refine sortForgets perm (fun u mem w mem' le ge => ?_)
  exact List.inj_on_of_nodup_map distinct mem mem' (outPointPlaceInj (Nat.le_antisymm le ge))

end Sorting

section Iteration

/- How a hash map lists what it holds: in some order. -/
structure Iteration (α : Type) where
  list : List α → List α
  perm : ∀ held, (list held).Perm held

variable {F : Type} (lib : Externals F)

def relist (spends : AggregatedWithdrawal → Iteration (OutPoint × Output))
    (a : AggregatedWithdrawal) : AggregatedWithdrawal :=
  { a with spendUtxos := (spends a).list a.spendUtxos }

/- The bundle collected when the map of withdrawals by address, and the map of utxos of each of
them, are listed in the orders given. -/
def collectListed (values : Iteration AggregatedWithdrawal)
    (spends : AggregatedWithdrawal → Iteration (OutPoint × Output)) (utxos : Table OutPoint Output)
    (blockHeight : Nat) : Except Error (Option WithdrawalBundle) := do
  let aggregated ← utxos.entries.foldlM aggregateWithdrawal []
  if aggregated.isEmpty then pure none
  else do
    let draft ← packBundle lib ⟨Amount.zero,[],[],0⟩
      (((values.list aggregated).map (relist spends)).insertionSort (fun a b => a.before b))
    let bundle ← WithdrawalBundle.new lib blockHeight draft.fee (sortByOutPoint draft.spendUtxos)
      draft.bundleOutputs
    pure (some bundle)

variable {aggregated aggregated' : List AggregatedWithdrawal}

theorem aggregateDistinct {utxo : OutPoint × Output} (ok : aggregateWithdrawal aggregated utxo = .ok aggregated')
    (distinct : (aggregated.map (·.mainAddress)).Nodup) : (aggregated'.map (·.mainAddress)).Nodup := by
  unfold aggregateWithdrawal at ok
  split at ok
  · next payout mainFee mainAddress content =>
      simp only [bindOk,okOrOk,pureOk] at ok
      obtain ⟨_,_,_,_,rfl⟩ := ok
      rw [List.map_append,List.map_singleton]
      refine List.Nodup.append (distinct.sublist (List.filter_sublist.map _)) (List.nodup_singleton _) ?_
      simp [List.disjoint_singleton]
  · next other =>
      rw [pureOk] at ok
      subst ok
      exact distinct

theorem aggregateAllDistinct {entries : List (OutPoint × Output)}
    (ok : entries.foldlM aggregateWithdrawal aggregated = .ok aggregated')
    (distinct : (aggregated.map (·.mainAddress)).Nodup) : (aggregated'.map (·.mainAddress)).Nodup := by
  refine @foldInvariant _ _ _ _ (fun held => (held.map (·.mainAddress)).Nodup) _ _ _ ?_ distinct ok
  exact fun _ _ _ _ before applied => aggregateDistinct applied before

variable {lib}

structure DraftsAlike (draft draft' : BundleDraft) : Prop where
  fee : draft.fee = draft'.fee
  spends : draft.spendUtxos.Perm draft'.spendUtxos
  outputs : draft.bundleOutputs = draft'.bundleOutputs
  size : draft.bundleTxoutsSize = draft'.bundleTxoutsSize

def PackedAlike : Except Error BundleDraft → Except Error BundleDraft → Prop
  | .ok draft, .ok draft' => DraftsAlike draft draft'
  | .error e, .error e' => e = e'
  | _, _ => False

theorem packAlike (spends : AggregatedWithdrawal → Iteration (OutPoint × Output)) {draft draft' : BundleDraft}
    (alike : DraftsAlike draft draft') : PackedAlike (packBundle lib draft (aggregated.map (relist spends)))
      (packBundle lib draft' aggregated) := by
  induction aggregated generalizing draft draft' with
  | nil => exact alike
  | cons a rest ih =>
      simp only [List.map_cons,packBundle,relist,alike.outputs,alike.size,alike.fee]
      split
      · exact alike
      split
      · exact ih alike
      split
      · exact ih alike
      split
      · exact alike
      split
      · exact alike
      split
      · rfl
      · next fee added =>
          refine ih ⟨rfl,?_,rfl,rfl⟩
          exact alike.spends.append ((spends a).perm a.spendUtxos)

theorem PackedAlike.bind {β : Type} {packed packed' : Except Error BundleDraft} (alike : PackedAlike packed packed')
    {next : BundleDraft → Except Error β}
    (same : ∀ draft draft', packed' = .ok draft' → DraftsAlike draft draft' → next draft = next draft') :
    (packed >>= next) = packed' >>= next := by
  cases packed with
  | error e =>
      cases packed' with
      | error e' => exact congrArg _ alike
      | ok draft' => exact alike.elim
  | ok draft =>
      cases packed' with
      | error e' => exact alike.elim
      | ok draft' => exact same draft draft' rfl alike

theorem packedDistinct {utxos : Table OutPoint Output} {draft : BundleDraft}
    (collected : utxos.entries.foldlM aggregateWithdrawal [] = .ok aggregated)
    (packed : packBundle lib ⟨Amount.zero,[],[],0⟩ (aggregated.insertionSort (fun a b => a.before b)) = .ok draft) :
    (draft.spendUtxos.map (·.1)).Nodup := by
  obtain ⟨picked,perm,sub⟩ := packedSubperm collected packed
  have keys : (picked.map (·.1)).Nodup := Table.entriesDistinct.sublist ((sub.trans List.filter_sublist).map _)
  exact (perm.map _).nodup_iff.mp keys

theorem packedOrder {values : Iteration AggregatedWithdrawal}
    {spends : AggregatedWithdrawal → Iteration (OutPoint × Output)}
    (distinct : (aggregated.map (·.mainAddress)).Nodup) :
    ((values.list aggregated).map (relist spends)).insertionSort (fun a b => a.before b) =
      (aggregated.insertionSort (fun a b => a.before b)).map (relist spends) := by
  have inner : ((values.list aggregated).insertionSort (fun a b => a.before b)).map (relist spends) =
      ((values.list aggregated).map (relist spends)).insertionSort (fun a b => a.before b) :=
    List.map_insertionSort _ _ _ _ (fun _ _ _ _ => Iff.rfl)
  have outer : (values.list aggregated).insertionSort (fun a b => a.before b) =
      aggregated.insertionSort (fun a b => a.before b) := by
    refine (sortForgets (values.perm aggregated).symm (fun a mem b mem' forth back => ?_)).symm
    exact List.inj_on_of_nodup_map distinct mem mem' (beforeAntisymm forth back)
  rw [← inner,outer]

theorem collectAnyOrder {values : Iteration AggregatedWithdrawal}
    {spends : AggregatedWithdrawal → Iteration (OutPoint × Output)} {utxos : Table OutPoint Output}
    {blockHeight : Nat} :
    collectListed lib values spends utxos blockHeight = collectWithdrawalBundle lib utxos blockHeight := by
  unfold collectListed collectWithdrawalBundle
  cases collected : utxos.entries.foldlM aggregateWithdrawal [] with
  | error e => rfl
  | ok aggregated =>
      simp only [okBind]
      split
      · rfl
      rw [packedOrder (aggregateAllDistinct collected List.nodup_nil)]
      refine (packAlike spends ⟨rfl,.refl _,rfl,rfl⟩).bind (fun draft draft' packed alike => ?_)
      rw [alike.fee,alike.outputs,← sortByOutPointForgets alike.spends.symm (packedDistinct collected packed)]

theorem bundleCanonical (s : State F) (blockHeight : Nat) (values values' : Iteration AggregatedWithdrawal)
    (spends spends' : AggregatedWithdrawal → Iteration (OutPoint × Output)) :
    collectListed lib values spends s.utxos blockHeight = collectListed lib values' spends' s.utxos blockHeight ∧
    ∀ withdrawals : Set AggregatedWithdrawal, withdrawals.InjOn (·.mainAddress) →
      IsStrictTotalOrder withdrawals (fun a b => a.1.cmp b.1 = .lt) :=
  ⟨collectAnyOrder.trans collectAnyOrder.symm,fun _ distinct => cmpStrict distinct⟩

end Iteration

namespace Reference

def asHeld {α : Type} : Iteration α := ⟨id,fun held => .refl held⟩

def reversed {α : Type} : Iteration α := ⟨List.reverse,List.reverse_perm⟩

def twoPayouts : State Forest :=
  let payout (place : Nat) : Output := ⟨addressOf alice,.withdrawal ⟨400⟩ ⟨100⟩ ⟨place⟩⟩
  { State.new Forest with utxos := (Table.empty.put (.deposit 1 0) (payout 2)).put (.deposit 2 0) (payout 4) }

def paysOut : Except Error (Option WithdrawalBundle) → Option (List UInt64)
  | .ok (some bundle) => some (bundle.outputs.map (·.value.sat))
  | _ => none

theorem twoPayoutsCanonical :
    collectListed externals reversed (fun _ => reversed) twoPayouts.utxos 4 =
      collectListed externals asHeld (fun _ => asHeld) twoPayouts.utxos 4 ∧
    paysOut (collectListed externals reversed (fun _ => reversed) twoPayouts.utxos 4) = some [0,0,400,400] ∧
    IsStrictTotalOrder ({⟨[],⟨2⟩,⟨400⟩,⟨100⟩⟩,⟨[],⟨4⟩,⟨400⟩,⟨100⟩⟩} : Set AggregatedWithdrawal)
      (fun a b => a.1.cmp b.1 = .lt) := by
  obtain ⟨same,strict⟩ := @bundleCanonical _ externals twoPayouts 4 reversed asHeld (fun _ => reversed) (fun _ => asHeld)
  refine ⟨same,by decide +kernel,strict _ ?_⟩
  rintro a (rfl | rfl) b (rfl | rfl) addresses
  · rfl
  · cases addresses
  · cases addresses
  · rfl

end Reference
end Coinshift
