import Coinshift.AccumulatorMirror
import Mathlib.Data.Set.Insert

/-! The accumulator diff with the two counts it keeps beside its map, against its requests carried out one by one.
A count is taken down only for an entry that is there. -/
namespace Coinshift
open Checked

/- `AccumulatorDiff` as the source has it, with the numbers of insertions and deletions still in the map. -/
structure CountedDiff extends AccumulatorDiff where
  nInsertions : Nat
  nDeletions : Nat

namespace CountedDiff

def empty : CountedDiff := ⟨AccumulatorDiff.empty,0,0⟩

/- Nothing when the count would fall below zero. -/
def decrement (count : Nat) : Option Nat := if count = 0 then none else some (count - 1)

def insert (d : CountedDiff) (utxoHash : Hash) : Option CountedDiff :=
  match d.diff.lookup utxoHash with
  | some false => do
      let nDeletions ← decrement d.nDeletions
      pure ⟨⟨d.diff.filter (·.1 ≠ utxoHash)⟩,d.nInsertions,nDeletions⟩
  | some true => some d
  | none => some ⟨⟨d.diff ++ [(utxoHash,true)]⟩,d.nInsertions + 1,d.nDeletions⟩

def remove (d : CountedDiff) (utxoHash : Hash) : Option CountedDiff :=
  match d.diff.lookup utxoHash with
  | some true => do
      let nInsertions ← decrement d.nInsertions
      pure ⟨⟨d.diff.filter (·.1 ≠ utxoHash)⟩,nInsertions,d.nDeletions⟩
  | some false => some d
  | none => some ⟨⟨d.diff ++ [(utxoHash,false)]⟩,d.nInsertions,d.nDeletions + 1⟩

def counts (d : CountedDiff) : Nat × Nat := (d.nInsertions,d.nDeletions)

def record (d : CountedDiff) (request : Bool × Hash) : Option CountedDiff :=
  if request.1 then d.insert request.2 else d.remove request.2

def recordAll (requests : List (Bool × Hash)) : Option CountedDiff := requests.foldlM record empty

end CountedDiff

section Counts

variable {d d' : CountedDiff} {requests : List (Bool × Hash)}

theorem CountedDiff.recordEq {isInsertion : Bool} {leaf : Hash} : d.record (isInsertion,leaf) =
    match d.diff.lookup leaf with
    | none => some ⟨⟨d.diff ++ [(leaf,isInsertion)]⟩,d.nInsertions + isInsertion.toNat,d.nDeletions + (!isInsertion).toNat⟩
    | some held =>
        if held = isInsertion then some d
        else if (if held then d.nInsertions else d.nDeletions) = 0 then none
        else some ⟨⟨d.diff.filter (·.1 ≠ leaf)⟩,d.nInsertions - held.toNat,d.nDeletions - (!held).toNat⟩ := by
  unfold CountedDiff.record CountedDiff.insert CountedDiff.remove CountedDiff.decrement
  cases d.diff.lookup leaf with
  | none => cases isInsertion <;> rfl
  | some held =>
      cases isInsertion with
      | true =>
          cases held with
          | true => rfl
          | false => by_cases zero : d.nDeletions = 0 <;> simp [zero]
      | false =>
          cases held with
          | false => rfl
          | true => by_cases zero : d.nInsertions = 0 <;> simp [zero]

theorem splitOff {entries : List (Hash × Bool)} {leaf : Hash} {held : Bool} (distinct : (entries.map (·.1)).Nodup)
    (found : entries.lookup leaf = some held) : entries.Perm ((leaf,held) :: entries.filter (·.1 ≠ leaf)) := by
  obtain ⟨before,after,rfl,early⟩ := List.lookup_eq_some_iff.mp found
  rw [List.map_append,List.map_cons,List.nodup_append,List.nodup_cons] at distinct
  have others {part : List (Hash × Bool)} (apart : ∀ entry ∈ part, entry.1 ≠ leaf) : part.filter (·.1 ≠ leaf) = part :=
    List.filter_eq_self.mpr (fun entry mem => by simpa using apart entry mem)
  have first := others (fun entry mem same => by simpa [same] using early entry mem)
  have last : after.filter (·.1 ≠ leaf) = after :=
    others (fun entry mem same => distinct.2.1.1 (List.mem_map.mpr ⟨entry,mem,same⟩))
  rw [List.filter_append,List.filter_cons_of_neg (by simp),first,last]
  exact List.perm_middle

theorem countsAppend {held : Bool} {leaf : Hash} (e : AccumulatorDiff) :
    (AccumulatorDiff.insertions ⟨e.diff ++ [(leaf,held)]⟩).length = e.insertions.length + held.toNat ∧
    (AccumulatorDiff.deletions ⟨e.diff ++ [(leaf,held)]⟩).length = e.deletions.length + (!held).toNat := by
  cases held <;> simp [AccumulatorDiff.insertions,AccumulatorDiff.deletions]

theorem countsFilter {held : Bool} {leaf : Hash} {e : AccumulatorDiff} (distinct : e.Distinct)
    (found : e.diff.lookup leaf = some held) :
    e.insertions.length = (AccumulatorDiff.insertions ⟨e.diff.filter (·.1 ≠ leaf)⟩).length + held.toNat ∧
    e.deletions.length = (AccumulatorDiff.deletions ⟨e.diff.filter (·.1 ≠ leaf)⟩).length + (!held).toNat := by
  have perm := splitOff distinct found
  have inserted := ((perm.filter (·.2)).map (·.1)).length_eq
  have deleted := ((perm.filter (fun entry => !entry.2)).map (·.1)).length_eq
  cases held with
  | true => exact ⟨inserted,deleted⟩
  | false => exact ⟨inserted,deleted⟩

structure CountedDiff.Right (d : CountedDiff) : Prop where
  distinct : d.Distinct
  insertions : d.nInsertions = d.insertions.length
  deletions : d.nDeletions = d.deletions.length

theorem CountedDiff.Right.empty : CountedDiff.empty.Right := ⟨List.nodup_nil,rfl,rfl⟩

theorem CountedDiff.Right.record (right : d.Right) (request : Bool × Hash) :
    ∃ d', d.record request = some d' ∧ d'.toAccumulatorDiff = d.toAccumulatorDiff.record request ∧ d'.Right := by
  have distinct := @AccumulatorDiff.distinctRecord _ request right.distinct
  obtain ⟨isInsertion,leaf⟩ := request
  rw [CountedDiff.recordEq,AccumulatorDiff.recordEq]
  rw [AccumulatorDiff.recordEq] at distinct
  cases found : d.diff.lookup leaf with
  | none =>
      rw [found] at distinct
      obtain ⟨inserted,deleted⟩ := @countsAppend isInsertion leaf d.toAccumulatorDiff
      refine ⟨_,rfl,rfl,distinct,?_,?_⟩
      · rw [inserted,right.insertions]
      · rw [deleted,right.deletions]
  | some held =>
      rw [found] at distinct
      obtain ⟨inserted,deleted⟩ := countsFilter right.distinct found
      rw [← right.insertions] at inserted
      rw [← right.deletions] at deleted
      by_cases same : held = isInsertion
      · simp only [same,if_true]
        exact ⟨d,rfl,rfl,right⟩
      · have positive : (if held then d.nInsertions else d.nDeletions) ≠ 0 := by
          cases held with
          | true => simp [inserted]
          | false => simp [deleted]
        simp only [same,if_false] at distinct ⊢
        rw [if_neg positive]
        refine ⟨_,rfl,rfl,distinct,?_,?_⟩
        · rw [inserted,Nat.add_sub_cancel]
        · rw [deleted,Nat.add_sub_cancel]

theorem CountedDiff.Right.all (right : d.Right) :
    ∃ d', requests.foldlM CountedDiff.record d = some d' ∧
      d'.toAccumulatorDiff = d.toAccumulatorDiff.recordAll requests ∧ d'.Right := by
  induction requests generalizing d with
  | nil => exact ⟨d,rfl,rfl,right⟩
  | cons request rest ih =>
      obtain ⟨next,done,same,nextRight⟩ := right.record request
      obtain ⟨last,rests,sameLast,lastRight⟩ := ih nextRight
      refine ⟨last,?_,?_,lastRight⟩
      · rw [List.foldlM_cons,done]
        exact rests
      · rw [sameLast,same]
        rfl

end Counts

section Sequence

variable {F : Type} {leaves : Set Hash} {requests : List (Bool × Hash)}

def carryOut (leaves : Set Hash) (request : Bool × Hash) : Set Hash :=
  if request.1 then insert request.2 leaves else leaves \ {request.2}

def Legal : Set Hash → List (Bool × Hash) → Prop
  | _, [] => True
  | leaves, request :: rest => (request.2 ∈ leaves ↔ request.1 = false) ∧ Legal (carryOut leaves request) rest

theorem leadsOn {d : AccumulatorDiff} {now : Set Hash} {request : Bool × Hash} (leads : d.Leads leaves now)
    (legal : request.2 ∈ now ↔ request.1 = false) : (d.record request).Leads leaves (carryOut now request) := by
  obtain ⟨isInsertion,leaf⟩ := request
  cases isInsertion with
  | true => exact leads.insert (fun inside => nomatch legal.mp inside) (fun _ => Iff.rfl)
  | false =>
      refine leads.remove (legal.mpr rfl) (fun x => ?_)
      exact And.comm

theorem leadsAll {d : AccumulatorDiff} {now : Set Hash} (leads : d.Leads leaves now) (legal : Legal now requests) :
    (d.recordAll requests).Leads leaves (requests.foldl carryOut now) := by
  induction requests generalizing d now with
  | nil => exact leads
  | cons request rest ih => exact ih (leadsOn leads legal.1) legal.2

/- The final diff takes out what is there, puts in what is not, and gives what the requests give one by one; on the way
no count falls below zero and the counts are those of the map. -/
theorem diffIsSequence (leaves : Set Hash) (requests : List (Bool × Hash)) (legal : Legal leaves requests) :
    (∀ first, first <+: requests → ∃ d, CountedDiff.recordAll first = some d ∧
      d.counts = (d.insertions.length,d.deletions.length)) ∧
    ∃ d, CountedDiff.recordAll requests = some d ∧ (d.insertions.Nodup ∧ d.deletions.Nodup) ∧
      (∀ x ∈ d.deletions, x ∈ leaves) ∧ (∀ x ∈ d.insertions, x ∉ leaves) ∧
      leaves \ {x | x ∈ d.deletions} ∪ {x | x ∈ d.insertions} = requests.foldl carryOut leaves ∧
      ∀ (F : Type) (lib : Externals F) (holds : F → Hash → Prop) (forest : F), ForestIsSet lib holds →
        ForestKeepsLeaves lib holds → (∀ x, holds forest x ↔ x ∈ leaves) →
        ∃ after, applyDiff lib forest d.toAccumulatorDiff = .ok after ∧
          ∀ x, holds after x ↔ x ∈ requests.foldl carryOut leaves := by
  constructor
  · intro first _
    obtain ⟨d,recorded,_,right⟩ := @CountedDiff.Right.all _ first .empty
    exact ⟨d,recorded,Prod.ext right.insertions right.deletions⟩
  · obtain ⟨d,recorded,same,right⟩ := @CountedDiff.Right.all _ requests .empty
    have leads : d.toAccumulatorDiff.Leads leaves (requests.foldl carryOut leaves) := same ▸ leadsAll .start legal
    have deletions (x : Hash) (mem : x ∈ d.deletions) : x ∈ leaves := by
      have held := leads x
      rw [(AccumulatorDiff.memDeletionsIff right.distinct).mp mem] at held
      exact held.2
    have insertions (x : Hash) (mem : x ∈ d.insertions) : x ∉ leaves := by
      have held := leads x
      rw [(AccumulatorDiff.memInsertionsIff right.distinct).mp mem] at held
      exact held.2
    refine ⟨d,recorded,⟨right.distinct.sublist (List.filter_sublist.map _),AccumulatorDiff.deletionsNodup right.distinct⟩,
      deletions,insertions,?_,?_⟩
    · ext x
      have result := leads.result x
      rw [← AccumulatorDiff.memInsertionsIff right.distinct,ne_eq,← AccumulatorDiff.memDeletionsIff right.distinct] at result
      exact or_comm.trans result.symm
    · intro F lib holds forest laws keeps starts
      have held : (fun x => holds forest x) = leaves := funext (fun x => propext (starts x))
      obtain ⟨after,done⟩ := keeps.removable forest d.insertions d.deletions (AccumulatorDiff.deletionsNodup right.distinct)
        (fun x mem => (starts x).mpr (deletions x mem))
      have applied : applyDiff lib forest d.toAccumulatorDiff = .ok after := by
        rw [applyDiff,mapErrorOk]
        exact done
      refine ⟨after,applied,fun x => ?_⟩
      have leadsHeld : d.toAccumulatorDiff.Leads (holds forest) (requests.foldl carryOut leaves) := held ▸ leads
      exact appliedHolds laws right.distinct leadsHeld applied x

def leafMoves : List (Bool × Hash) := [(false,5),(true,7),(true,5),(true,9),(false,7)]

theorem leafMovesLegal : Legal {5} leafMoves := by
  simp [leafMoves,Legal,carryOut]

theorem leafMovesCounted : (∃ d, CountedDiff.recordAll leafMoves = some d ∧ d.counts = (1,0)) ∧
    ∃ d, CountedDiff.recordAll leafMoves = some d ∧
      ({5} : Set Hash) \ {x | x ∈ d.deletions} ∪ {x | x ∈ d.insertions} = leafMoves.foldl carryOut {5} := by
  obtain ⟨prefixes,d,recorded,_,_,_,result,_⟩ := diffIsSequence {5} leafMoves leafMovesLegal
  obtain ⟨d',recorded',counts⟩ := prefixes leafMoves (List.prefix_refl _)
  refine ⟨⟨d',recorded',counts.trans ?_⟩,d,recorded,result⟩
  cases recorded'
  rfl

end Sequence

end Coinshift
