import Mathlib.Algebra.GroupWithZero.Nat
import Mathlib.Algebra.Order.BigOperators.Group.List
import Mathlib.Data.List.Infix

/-! Taking the elements of a list in turn until their weights reach a target.
Nothing here is specific to one program. -/
namespace Coinshift.Greedy

variable {α : Type} (weight : α → Nat) (target : Nat)

def weigh (l : List α) : Nat := (l.map weight).sum

def takeUntil : Nat → List α → List α
  | _, [] => []
  | total, a :: rest => if target ≤ total then [] else a :: takeUntil (total + weight a) rest

variable {weight target} {l : List α} {total : Nat}

@[simp] theorem weighCons {a : α} : weigh weight (a :: l) = weight a + weigh weight l := by simp [weigh]

@[simp] theorem weighNil : weigh weight [] = 0 := rfl

theorem weighAppend {more : List α} : weigh weight (l ++ more) = weigh weight l + weigh weight more := by simp [weigh]

theorem takePrefix : takeUntil weight target total l <+: l := by
  induction l generalizing total with
  | nil => exact List.prefix_rfl
  | cons a rest ih =>
      unfold takeUntil
      split
      · exact List.nil_prefix
      · exact (List.prefix_cons_inj a).mpr ih

theorem takeReaches : target ≤ total + weigh weight (takeUntil weight target total l) ↔ target ≤ total + weigh weight l := by
  induction l generalizing total with
  | nil => rfl
  | cons a rest ih =>
      unfold takeUntil
      split
      · next reached =>
          rw [weighNil]
          omega
      · rw [weighCons,weighCons,← Nat.add_assoc,← Nat.add_assoc]
        exact ih

theorem takeShort {first : List α} {last : α} (taken : takeUntil weight target total l = first ++ [last]) :
    total + weigh weight first < target := by
  induction l generalizing total first with
  | nil => simp [takeUntil] at taken
  | cons a rest ih =>
      unfold takeUntil at taken
      split at taken
      · simp at taken
      · next short =>
          cases first with
          | nil =>
              rw [weighNil]
              omega
          | cons b more =>
              rw [List.cons_append,List.cons.injEq] at taken
              obtain ⟨rfl,rest⟩ := taken
              rw [weighCons,← Nat.add_assoc]
              exact ih rest

theorem takeLargest {x : α} (mem : x ∈ takeUntil weight target total l)
    (largest : ∀ y ∈ takeUntil weight target total l, weight y ≤ weight x) :
    total + weigh weight (takeUntil weight target total l) < target + weight x := by
  rcases List.eq_nil_or_concat (takeUntil weight target total l) with none | ⟨first,last,taken⟩
  · rw [none] at mem
    cases mem
  · rw [List.concat_eq_append] at taken
    have short := takeShort taken
    have below : weight last ≤ weight x := largest last (taken ▸ List.mem_append_right first List.mem_cons_self)
    rw [taken,weighAppend,weighCons,weighNil]
    omega

end Coinshift.Greedy
