import Coinshift.Lineage

/-! Ancestor lookups that are exact.
A block that is asked for too far up is refused, no jump is stored that is longer than the chain, and the last common
ancestor of two blocks is the highest one. -/
namespace Coinshift.Lineage
open Checked

variable {ε K : Type} {links : Links ε K}

namespace Links

def Trim (links : Links ε K) : Prop :=
  ∀ b h js, links.height b = .ok h → links.jumps b = .ok js → ∀ i < js.length, 2 ^ (i + 1) ≤ h

/- Lookups from a block of some height: every ancestor is found, nothing beyond the root is, and the jumps are the ancestors
2, 4, 8, … blocks back, as many as fit. -/
structure ExactAt (links : Links ε K) (b : K) (h : Nat) : Prop where
  within : ∀ n ≤ h, ∃ a, links.nthAncestor b n = .ok a ∧ links.up n b = some a
  beyond : ∀ n, h < n → links.nthAncestor b n = .error (links.noAncestor b n)
  stored : ∃ js, links.jumps b = .ok js ∧ js.length = Nat.log2 h ∧
    ∀ i, js[i]? = if 2 ^ (i + 1) ≤ h then links.up (2 ^ (i + 1)) b else none

structure HighestCommon (links : Links ε K) (x b c : K) : Prop where
  left : links.Descends x b
  right : links.Descends x c
  highest : ∀ y hy, links.Descends y b → links.Descends y c → links.height y = .ok hy →
    ∃ hx, links.height x = .ok hx ∧ hy ≤ hx

section Lookups

theorem nthBeyond {b : K} {h n : Nat} (known : links.height b = .ok h) (beyond : h < n) :
    links.nthAncestor b n = .error (links.noAncestor b n) := by
  obtain ⟨m,rfl⟩ := Nat.exists_eq_add_of_lt beyond
  have positive : h + m + 1 ≠ 0 := Nat.succ_ne_zero _
  unfold nthAncestor climb
  rw [if_neg positive,known,okBind,if_pos beyond]

/- The list of jumps has an entry for each power of two that fits, and it ends there. -/
theorem Sound.jumpInside (sound : links.Sound) (trim : links.Trim) {b : K} {h i : Nat} {js : List K}
    (known : links.height b = .ok h) (isJumps : links.jumps b = .ok js) : i < js.length ↔ 2 ^ (i + 1) ≤ h := by
  obtain ⟨js',isJumps',jumps⟩ := sound.jump known
  obtain rfl : js' = js := Except.ok.inj (isJumps'.symm.trans isJumps)
  refine ⟨trim b h js' known isJumps i,fun fits => ?_⟩
  obtain ⟨a,atIndex,_⟩ := jumps i fits
  exact (List.getElem?_eq_some_iff.mp atIndex).1

theorem powersFit {length h : Nat} (inside : ∀ i, i < length ↔ 2 ^ (i + 1) ≤ h) : length = Nat.log2 h := by
  rcases Nat.eq_zero_or_pos h with rfl | positive
  · have none : ¬ 0 < length := by
      rw [inside]
      exact Nat.not_le.mpr (Nat.two_pow_pos _)
    simpa using none
  · have same (i : Nat) : i < length ↔ i < Nat.log2 h := by
      rw [inside,← Nat.le_log2 (Nat.pos_iff_ne_zero.mp positive)]
      rfl
    exact Nat.le_antisymm (Nat.not_lt.mp (fun less => Nat.lt_irrefl _ ((same _).mp less)))
      (Nat.not_lt.mp (fun less => Nat.lt_irrefl _ ((same _).mpr less)))

theorem Sound.exactAt (sound : links.Sound) (trim : links.Trim) {b : K} {h : Nat} (known : links.height b = .ok h) :
    links.ExactAt b h := by
  refine ⟨fun n bound => ?_,fun n beyond => nthBeyond known beyond,?_⟩
  · obtain ⟨a,found,above,_⟩ := sound.nth known bound
    exact ⟨a,found,above⟩
  · obtain ⟨js,isJumps,jumps⟩ := sound.jump known
    have inside (i : Nat) : i < js.length ↔ 2 ^ (i + 1) ≤ h := sound.jumpInside trim known isJumps
    refine ⟨js,isJumps,powersFit inside,fun i => ?_⟩
    split
    · next fits =>
        obtain ⟨a,atIndex,above⟩ := jumps i fits
        exact atIndex.trans above.symm
    · next long => exact List.getElem?_eq_none (Nat.not_lt.mp (fun short => long ((inside i).mp short)))

theorem Sound.rootAbove (sound : links.Sound) {b : K} {h : Nat} (known : links.height b = .ok h) :
    ∃ root, links.up h b = some root ∧ links.height root = .ok 0 := by
  obtain ⟨root,above,height⟩ := sound.upHeight known (Nat.le_refl h)
  rw [Nat.sub_self] at height
  exact ⟨root,above,height⟩

theorem Sound.oneRoot (sound : links.Sound) {b c : K} {hb hc : Nat} (heightB : links.height b = .ok hb)
    (heightC : links.height c = .ok hc) :
    links.up hb b = links.up hc c ↔ ∃ a, links.Descends a b ∧ links.Descends a c := by
  constructor
  · intro same
    obtain ⟨root,above,_⟩ := sound.rootAbove heightB
    exact ⟨root,⟨hb,hb,heightB,Nat.le_refl hb,above⟩,⟨hc,hc,heightC,Nat.le_refl hc,same.symm.trans above⟩⟩
  · intro ⟨a,first,second⟩
    obtain ⟨k,belowB,heightA,upB⟩ := sound.descent first heightB
    obtain ⟨k',belowC,heightA',upC⟩ := sound.descent second heightC
    obtain rfl : k = k' := Except.ok.inj (heightA.symm.trans heightA')
    calc links.up hb b = links.up ((hb - k) + k) b := by rw [Nat.sub_add_cancel belowB]
      _ = links.up k a := by rw [upAdd,upB]; rfl
      _ = links.up ((hc - k) + k) c := by rw [upAdd,upC]; rfl
      _ = links.up hc c := by rw [Nat.sub_add_cancel belowC]

end Lookups

section Common

variable [DecidableEq K]

theorem meetEnough {b c : K} (fuel more lo : Nat) {hi : Nat} (enough : hi ≤ lo + fuel) :
    links.meet b c (fuel + more) lo hi = links.meet b c fuel lo hi := by
  induction fuel generalizing lo hi with
  | zero =>
      have ended : ¬ lo < hi := Nat.not_lt.mpr enough
      cases more with
      | zero => rfl
      | succ more =>
          rw [Nat.zero_add]
          unfold meet
          rw [if_neg ended]
  | succ fuel ih =>
      rw [Nat.succ_add]
      unfold meet
      by_cases apart : lo < hi
      · have lower := @ih lo ((lo + hi) / 2) (by omega)
        have upper := @ih ((lo + hi) / 2 + 1) hi (by omega)
        simp only [if_pos apart,lower,upper]
      · rw [if_neg apart,if_neg apart]

theorem Sound.lastCommonBelow (sound : links.Sound) {b c : K} {hb hc : Nat} (heightB : links.height b = .ok hb)
    (heightC : links.height c = .ok hc) (descends : links.Descends c b) : links.lastCommon b c = .ok c := by
  obtain ⟨b',c',evened,_,aboveC,_⟩ := sound.equalize heightB heightC
  obtain ⟨k,below,height,_⟩ := sound.descent descends heightB
  obtain rfl : k = hc := Except.ok.inj (height.symm.trans heightC)
  rw [Nat.sub_eq_zero_of_le below] at aboveC
  cases aboveC
  have same := (sound.equalizeLine heightB heightC evened).mpr (.inr descends)
  unfold Links.lastCommon
  rw [evened,okBind]
  simp only [same,if_true]
  rfl

theorem Sound.lastCommonHighest (sound : links.Sound) {a b c x : K} (first : links.Descends a b)
    (second : links.Descends a c) (common : links.lastCommon b c = .ok x) : links.HighestCommon x b c := by
  obtain ⟨left,right⟩ := sound.lastCommonBoth first second common
  refine ⟨left,right,fun y hy belowB belowC heightY => ?_⟩
  obtain ⟨hb,_,heightB,_⟩ := id left
  obtain ⟨hx,_,heightX,_⟩ := sound.descent left heightB
  obtain ⟨hy',below,heightY',_⟩ := sound.descent (sound.lastCommonGreatest belowB belowC common) heightX
  obtain rfl : hy' = hy := Except.ok.inj (heightY'.symm.trans heightY)
  exact ⟨hx,heightX,below⟩

end Common

end Links

end Coinshift.Lineage
