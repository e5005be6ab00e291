import Coinshift.Checked
import Mathlib.Data.List.Basic

/-! Fallible folds whose every operation touches one key of the state.
Such a fold succeeds when it does so at each key separately, and what it leaves at a key
depends on the operations at that key only. Nothing here is specific to one program. -/
namespace Coinshift.Keyed
open Checked

variable {ε σ K C Op : Type} {get : σ → K → C} {key : Op → K} {step : σ → Op → Except ε σ}
  {cell : C → Op → Option C}

/- `step` acts on the cell under the operation's key, and on no other. -/
structure Local (get : σ → K → C) (key : Op → K) (step : σ → Op → Except ε σ) (cell : C → Op → Option C) :
    Prop where
  here : ∀ {s op t}, step s op = .ok t → cell (get s (key op)) op = some (get t (key op))
  elsewhere : ∀ {s op t k}, step s op = .ok t → k ≠ key op → get t k = get s k
  total : ∀ {s op c}, cell (get s (key op)) op = some c → ∃ t, step s op = .ok t

variable [DecidableEq K]

def at_ (key : Op → K) (k : K) (ops : List Op) : List Op := ops.filter (fun op => key op = k)

theorem atConsHere {op : Op} {ops : List Op} : at_ key (key op) (op :: ops) = op :: at_ key (key op) ops := by
  simp [at_]

theorem atConsElsewhere {k : K} {op : Op} {ops : List Op} (other : k ≠ key op) :
    at_ key k (op :: ops) = at_ key k ops := by
  simp [at_,other.symm]

theorem Local.fold (isLocal : Local get key step cell) {ops : List Op} {s t : σ} (ok : ops.foldlM step s = .ok t)
    (k : K) : (at_ key k ops).foldlM cell (get s k) = some (get t k) := by
  induction ops generalizing s with
  | nil =>
      cases foldNilOk.mp ok
      rfl
  | cons op ops ih =>
      obtain ⟨middle,first,rest⟩ := foldConsOk.mp ok
      have tail := ih rest
      by_cases here : k = key op
      · subst here
        rw [atConsHere,List.foldlM_cons,isLocal.here first]
        exact tail
      · rw [atConsElsewhere here,← isLocal.elsewhere first here]
        exact tail

theorem Local.foldTotal (isLocal : Local get key step cell) {ops : List Op} {s : σ}
    (each : ∀ k, ∃ c, (at_ key k ops).foldlM cell (get s k) = some c) : ∃ t, ops.foldlM step s = .ok t := by
  induction ops generalizing s with
  | nil => exact ⟨s,rfl⟩
  | cons op ops ih =>
      obtain ⟨final,atKey⟩ := each (key op)
      rw [atConsHere,List.foldlM_cons] at atKey
      obtain ⟨c,first,_⟩ := Option.bind_eq_some_iff.mp atKey
      obtain ⟨middle,ok⟩ := isLocal.total first
      have rest : ∀ k, ∃ c, (at_ key k ops).foldlM cell (get middle k) = some c := by
        intro k
        obtain ⟨d,folded⟩ := each k
        by_cases here : k = key op
        · subst here
          rw [atConsHere,List.foldlM_cons,isLocal.here ok] at folded
          exact ⟨d,folded⟩
        · rw [atConsElsewhere here,← isLocal.elsewhere ok here] at folded
          exact ⟨d,folded⟩
      obtain ⟨t,tail⟩ := ih rest
      exact ⟨t,foldConsOk.mpr ⟨middle,ok,tail⟩⟩

theorem atReverse {k : K} {ops : List Op} : at_ key k ops.reverse = (at_ key k ops).reverse := by
  simp [at_,List.filter_reverse]

end Coinshift.Keyed
