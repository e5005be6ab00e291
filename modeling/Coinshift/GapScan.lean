import Mathlib.Data.List.Basic

/-! A scan of the numbers in turn that gives up after so many in a row of which none is used. -/
namespace Coinshift.GapScan

section Scan

variable (used : Nat → Bool) (limit : Nat)

def visited : (remaining index gap : Nat) → List Nat
  | 0, _, _ => []
  | remaining + 1, index, gap =>
      if gap < limit then index :: visited remaining (index + 1) (if used index then 0 else gap + 1) else []

def Reached (first i : Nat) : Prop := ∀ j, first ≤ j → j + limit ≤ i → ∃ k, j ≤ k ∧ k < j + limit ∧ used k = true

end Scan

variable {used : Nat → Bool} {limit first remaining index gap i : Nat}

theorem reachedSoon (soon : i < first + limit) : Reached used limit first i := by
  intro j after inside
  omega

theorem Reached.before (reached : Reached used limit first i)
    (unused : ∀ k, first ≤ k → k < first + limit → used k = false) :
    i < first + limit := by
  rcases Nat.lt_or_ge i (first + limit) with soon | late
  · exact soon
  · obtain ⟨k,low,high,isUsed⟩ := reached first (Nat.le_refl first) late
    cases (unused k low high).symm.trans isUsed

theorem Reached.afresh (isUsed : used index = true) (after : first ≤ index) (near : index < first + limit) :
    Reached used limit (index + 1) i ↔ Reached used limit first i := by
  constructor
  · intro reached j start inside
    rcases Nat.lt_or_ge index j with beyond | before
    · exact reached j beyond inside
    · exact ⟨index,before,by omega,isUsed⟩
  · intro reached j start inside
    exact reached j (by omega) inside

theorem memVisited (short : gap ≤ index) (unused : ∀ k, index - gap ≤ k → k < index → used k = false) :
    i ∈ visited used limit remaining index gap ↔
      index ≤ i ∧ i < index + remaining ∧ Reached used limit (index - gap) i := by
  induction remaining generalizing index gap with
  | zero =>
      rw [visited]
      simp only [List.not_mem_nil,false_iff]
      omega
  | succ remaining ih =>
      rw [visited]
      rcases Nat.lt_or_ge gap limit with open_ | wide
      · rw [if_pos open_,List.mem_cons]
        -- the number itself is always looked at here
        have here : Reached used limit (index - gap) index := reachedSoon (by omega)
        cases isUsed : used index with
        | true =>
            have rest := @ih (index + 1) 0 (Nat.zero_le _) (fun k low high => absurd high (by omega))
            rw [if_pos rfl,rest]
            constructor
            · rintro (rfl | ⟨low,high,reached⟩)
              · exact ⟨Nat.le_refl _,by omega,here⟩
              · exact ⟨by omega,by omega,(Reached.afresh isUsed (by omega) (by omega)).mp reached⟩
            · rintro ⟨low,high,reached⟩
              rcases Nat.eq_or_lt_of_le low with same | later
              · exact .inl same.symm
              · exact .inr ⟨later,by omega,(Reached.afresh isUsed (by omega) (by omega)).mpr reached⟩
        | false =>
            have longer (k : Nat) (low : index + 1 - (gap + 1) ≤ k) (high : k < index + 1) : used k = false := by
              rcases Nat.lt_succ_iff_lt_or_eq.mp high with before | rfl
              · exact unused k (by omega) before
              · exact isUsed
            have rest := @ih (index + 1) (gap + 1) (by omega) longer
            rw [if_neg Bool.false_ne_true,rest,show index + 1 - (gap + 1) = index - gap by omega]
            constructor
            · rintro (rfl | ⟨low,high,reached⟩)
              · exact ⟨Nat.le_refl _,by omega,here⟩
              · exact ⟨by omega,by omega,reached⟩
            · rintro ⟨low,high,reached⟩
              rcases Nat.eq_or_lt_of_le low with same | later
              · exact .inl same.symm
              · exact .inr ⟨later,by omega,reached⟩
      · rw [if_neg (by omega)]
        simp only [List.not_mem_nil,false_iff]
        rintro ⟨low,high,reached⟩
        have before := reached.before (fun k from_ to_ => unused k from_ (by omega))
        omega

theorem visitedFrom (mem : i ∈ visited used limit remaining index gap) : index ≤ i := by
  induction remaining generalizing index gap with
  | zero => cases mem
  | succ remaining ih =>
      rw [visited] at mem
      split at mem
      · rcases List.mem_cons.mp mem with rfl | later
        · exact Nat.le_refl _
        · exact Nat.le_of_succ_le (ih later)
      · cases mem

theorem visitedReached : i ∈ visited used limit remaining 0 0 ↔ i < remaining ∧ Reached used limit 0 i := by
  rw [memVisited (Nat.zero_le 0) (fun k _ high => absurd high (Nat.not_lt_zero k))]
  simp

end Coinshift.GapScan
