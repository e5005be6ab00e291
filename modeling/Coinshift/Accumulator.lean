import Coinshift.Transaction

/-! Accumulator diffs: insertions and removals that cancel out once, kept in the order in
which they were first requested, and their application to the utreexo forest. -/
namespace Coinshift
open Checked

structure AccumulatorDiff where
  diff : List (Hash × Bool)
  deriving DecidableEq, Repr

namespace AccumulatorDiff

def empty : AccumulatorDiff := ⟨[]⟩

def insert (d : AccumulatorDiff) (utxoHash : Hash) : AccumulatorDiff :=
  match d.diff.lookup utxoHash with
  | some true => d
  | some false => ⟨d.diff.filter (·.1 ≠ utxoHash)⟩
  | none => ⟨d.diff ++ [(utxoHash,true)]⟩

def remove (d : AccumulatorDiff) (utxoHash : Hash) : AccumulatorDiff :=
  match d.diff.lookup utxoHash with
  | some true => ⟨d.diff.filter (·.1 ≠ utxoHash)⟩
  | some false => d
  | none => ⟨d.diff ++ [(utxoHash,false)]⟩

def insertions (d : AccumulatorDiff) : List Hash := (d.diff.filter (·.2)).map (·.1)

def deletions (d : AccumulatorDiff) : List Hash := (d.diff.filter (fun e => !e.2)).map (·.1)

def record (d : AccumulatorDiff) (request : Bool × Hash) : AccumulatorDiff :=
  if request.1 then d.insert request.2 else d.remove request.2

def recordAll (d : AccumulatorDiff) (requests : List (Bool × Hash)) : AccumulatorDiff :=
  requests.foldl record d

section Status

variable {d : AccumulatorDiff} {x y : Hash} {requests : List (Bool × Hash)}

def status (d : AccumulatorDiff) (x : Hash) : Option Bool := d.diff.lookup x

/- An insertion and a removal of one leaf cancel out, whichever comes first. -/
def statusAfter (before : Option Bool) (isInsertion : Bool) : Option Bool :=
  match before with
  | none => some isInsertion
  | some held => if held = isInsertion then some held else none

def Distinct (d : AccumulatorDiff) : Prop := (d.diff.map (·.1)).Nodup

theorem lookupFilter {entries : List (Hash × Bool)} :
    (entries.filter (·.1 ≠ y)).lookup x = if x = y then none else entries.lookup x := by
  induction entries with
  | nil => simp
  | cons e rest ih =>
      obtain ⟨key,held⟩ := e
      by_cases same : key = y
      · rw [List.filter_cons_of_neg (by simp [same]),ih,List.lookup_cons]
        by_cases here : x = y
        · rw [if_pos here,if_pos here]
        · have other : (x == key) = false := by simp [same,here]
          rw [if_neg here,if_neg here,other]
      · rw [List.filter_cons_of_pos (by simp [same]),List.lookup_cons,ih,List.lookup_cons]
        by_cases here : x = y
        · have other : (x == key) = false := by simpa [here] using Ne.symm same
          simp only [other,if_pos here]
        · simp only [if_neg here]

theorem lookupAppend {entries : List (Hash × Bool)} {held : Bool} (absent : entries.lookup y = none) :
    (entries ++ [(y,held)]).lookup x = if x = y then some held else entries.lookup x := by
  rw [List.lookup_append,List.lookup_cons,List.lookup_nil]
  by_cases here : x = y
  · simp only [here,absent,BEq.rfl,if_true]
    rfl
  · have other : (x == y) = false := by simp [here]
    simp only [other,if_neg here,Option.or_none]

theorem recordEq {isInsertion : Bool} : d.record (isInsertion,y) =
    match d.diff.lookup y with
    | none => ⟨d.diff ++ [(y,isInsertion)]⟩
    | some held => if held = isInsertion then d else ⟨d.diff.filter (·.1 ≠ y)⟩ := by
  unfold record insert remove
  cases d.diff.lookup y with
  | none => cases isInsertion <;> rfl
  | some held => cases isInsertion <;> cases held <;> rfl

theorem statusRecord {isInsertion : Bool} :
    (d.record (isInsertion,y)).status x = if x = y then statusAfter (d.status x) isInsertion else d.status x := by
  rw [recordEq,status,status]
  cases held : d.diff.lookup y with
  | none =>
      simp only [lookupAppend held]
      by_cases here : x = y
      · rw [if_pos here,if_pos here,here,held]
        rfl
      · rw [if_neg here,if_neg here]
  | some b =>
      by_cases here : x = y
      · rw [if_pos here,here,held]
        by_cases same : b = isInsertion
        · simp only [same,if_true,held,statusAfter]
        · simp only [same,if_false,lookupFilter,if_true,statusAfter]
      · rw [if_neg here]
        by_cases same : b = isInsertion
        · simp only [same,if_true]
        · simp only [same,if_false,lookupFilter,here]

theorem statusRecordAll :
    (d.recordAll requests).status x =
      ((requests.filter (·.2 = x)).map (·.1)).foldl statusAfter (d.status x) := by
  induction requests generalizing d with
  | nil => rfl
  | cons request rest ih =>
      obtain ⟨isInsertion,leaf⟩ := request
      have unfolded : d.recordAll ((isInsertion,leaf) :: rest) = (d.record (isInsertion,leaf)).recordAll rest := rfl
      rw [unfolded,ih,statusRecord]
      by_cases here : leaf = x
      · simp [here]
      · simp [here,Ne.symm here]

theorem distinctRecord {request : Bool × Hash} (distinct : d.Distinct) : (d.record request).Distinct := by
  have filtered : ((d.diff.filter (·.1 ≠ request.2)).map (·.1)).Nodup :=
    distinct.sublist (List.filter_sublist.map _)
  have appended (held : Bool) (absent : d.diff.lookup request.2 = none) :
      ((d.diff ++ [(request.2,held)]).map (·.1)).Nodup := by
    rw [List.map_append,List.map_singleton,List.nodup_append]
    refine ⟨distinct,List.nodup_singleton _,?_⟩
    intro key mem other isOther same
    obtain ⟨entry,inside,rfl⟩ := List.mem_map.mp mem
    have differs := List.lookup_eq_none_iff.mp absent entry inside
    rw [List.mem_singleton.mp isOther] at same
    simp [same] at differs
  obtain ⟨isInsertion,leaf⟩ := request
  rw [recordEq]
  cases held : d.diff.lookup leaf with
  | none => exact appended isInsertion held
  | some b =>
      dsimp only
      split
      · exact distinct
      · exact filtered

theorem distinctRecordAll (distinct : d.Distinct) : (d.recordAll requests).Distinct := by
  induction requests generalizing d with
  | nil => exact distinct
  | cons request rest ih => exact ih (distinctRecord distinct)

theorem statusOfMem {held : Bool} (distinct : d.Distinct) (mem : (x,held) ∈ d.diff) : d.status x = some held := by
  unfold status
  unfold Distinct at distinct
  generalize d.diff = entries at *
  induction entries with
  | nil => cases mem
  | cons e rest ih =>
      rw [List.map_cons,List.nodup_cons] at distinct
      rcases List.mem_cons.mp mem with rfl | later
      · exact List.lookup_cons_self
      · have other : (x == e.1) = false := by
          rw [beq_eq_false_iff_ne]
          intro same
          exact distinct.1 (same ▸ List.mem_map_of_mem later)
        rw [List.lookup_cons,other]
        exact ih distinct.2 later

theorem memDeletions (distinct : d.Distinct) (mem : x ∈ d.deletions) : d.status x = some false := by
  obtain ⟨⟨leaf,held⟩,entry,rfl⟩ := List.mem_map.mp mem
  obtain ⟨inside,removal⟩ := List.mem_filter.mp entry
  cases held with
  | false => exact statusOfMem distinct inside
  | true => cases removal

theorem memInsertions (held : d.status x = some true) : x ∈ d.insertions := by
  obtain ⟨before,after,split,_⟩ := List.lookup_eq_some_iff.mp held
  refine List.mem_map.mpr ⟨(x,true),List.mem_filter.mpr ⟨?_,rfl⟩,rfl⟩
  rw [split]
  exact List.mem_append_right _ List.mem_cons_self

theorem deletionsNodup (distinct : d.Distinct) : d.deletions.Nodup :=
  distinct.sublist (List.filter_sublist.map _)

end Status

end AccumulatorDiff

variable {F : Type} (lib : Externals F)

def applyDiff (forest : F) (d : AccumulatorDiff) : Except Error F :=
  (lib.modify forest d.insertions d.deletions).mapError .utreexo

/- What `MemForest::modify` promises of the leaves a forest holds: it fails only when a leaf to remove is
missing, and holds the added ones afterwards. -/
structure ForestKeepsLeaves {F : Type} (lib : Externals F) (holds : F → Hash → Prop) : Prop where
  removable : ∀ forest add del, del.Nodup → (∀ x ∈ del, holds forest x) → ∃ after, lib.modify forest add del = .ok after
  added : ∀ forest add del after, lib.modify forest add del = .ok after → ∀ x ∈ add, holds after x

def verifyProof (forest : F) (proof : UtreexoProof) (delHashes : List Hash) : Except Error Bool :=
  (lib.verify forest proof delHashes).mapError .utreexo

end Coinshift
