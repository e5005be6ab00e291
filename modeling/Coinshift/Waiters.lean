import Mathlib.Logic.Function.Basic
import Mathlib.Data.List.Basic

/-! Values that wait for keys. A value waits for a key once, until all that wait for the key are taken out together. -/
namespace Coinshift

abbrev Waiters (K V : Type) := K → List V

namespace Waiters

variable {K V : Type} {w : Waiters K V} {k j : K} {v u : V}

def empty (K V : Type) : Waiters K V := fun _ => []

section Times

variable [DecidableEq V]

def times (w : Waiters K V) (k : K) (v : V) : Nat := (w k).count v

theorem timesPerm {vs : List V} (all : vs.Perm (w k)) : vs.countP (fun u => u = v) = w.times k v := by
  rw [times,← all.count_eq,List.count]
  exact List.countP_congr (fun u _ => by rw [decide_eq_true_iff,beq_iff_eq])

end Times

variable [DecidableEq K]

def remove (w : Waiters K V) (k : K) : Waiters K V := Function.update w k []

theorem removeSelf : w.remove k k = [] := Function.update_self ..

theorem removeOther (other : j ≠ k) : w.remove k j = w j := Function.update_of_ne other ..

theorem memRemove : v ∈ w.remove k j ↔ j ≠ k ∧ v ∈ w j := by
  by_cases same : j = k
  · subst same
    rw [removeSelf]
    simp only [List.not_mem_nil,ne_eq,not_true_eq_false,false_and]
  · rw [removeOther same]
    simp only [ne_eq,same,not_false_eq_true,true_and]

variable [DecidableEq V]

def register (w : Waiters K V) (k : K) (v : V) : Waiters K V := Function.update w k ((w k).insert v)

theorem registerSelf : w.register k v k = (w k).insert v := Function.update_self ..

theorem registerOther (other : j ≠ k) : w.register k v j = w j := Function.update_of_ne other ..

theorem memRegister : v ∈ w.register k u j ↔ v ∈ w j ∨ j = k ∧ v = u := by
  by_cases same : j = k
  · subst same
    rw [registerSelf,List.mem_insert_iff,or_comm]
    simp only [true_and]
  · rw [registerOther same]
    simp only [same,false_and,or_false]

theorem registered : v ∈ w.register k v k := memRegister.mpr (.inr ⟨rfl,rfl⟩)

theorem timesRegister : (w.register k v).times j u ≤ w.times j u + if (k,v) = (j,u) then 1 else 0 := by
  unfold times
  by_cases same : j = k
  · subst same
    rw [registerSelf]
    by_cases waits : v ∈ w j
    · rw [List.insert_of_mem waits]
      exact Nat.le_add_right _ _
    · rw [List.insert_of_not_mem waits,List.count_cons]
      simp only [beq_iff_eq,Prod.mk.injEq,true_and]
      exact Nat.le_refl _
  · rw [registerOther same]
    exact Nat.le_add_right _ _

theorem timesRemove : (w.remove k).times j v = if j = k then 0 else w.times j v := by
  unfold times
  by_cases same : j = k
  · subst same
    rw [removeSelf,if_pos rfl]
    rfl
  · rw [removeOther same,if_neg same]

end Waiters

end Coinshift
