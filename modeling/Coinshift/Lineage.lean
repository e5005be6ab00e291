import Coinshift.Checked
import Mathlib.Algebra.Group.Nat.Defs
import Mathlib.Data.Nat.Log

/-! Trees of blocks that are only known through lookups.
A block has a height and, above height zero, a parent; its ancestors 2, 4, 8, … blocks back are stored with it,
so that any ancestor is found in as many jumps as the distance has binary digits.
Nothing here is specific to one program. -/
namespace Coinshift.Lineage
open Checked

structure Links (ε K : Type) where
  height : K → Except ε Nat
  parent : K → Except ε K
  jumps : K → Except ε (List K)
  noAncestor : K → Nat → ε
  -- the list of jumps is too short
  outOfRange : ε

variable {ε K : Type}

section Walks

/- A lazy walk from block to block, over when `next` has none. A walk longer than its fuel goes round in a circle:
the program would not return. -/
def walkFind {β : Type} (next : K → Except ε (Option K)) (f : K → Except ε (Option β)) (endless : ε) :
    Nat → Option K → Except ε (Option β)
  | _, none => .ok none
  | 0, some _ => .error endless
  | fuel + 1, some b => do
      let following ← next b
      match ← f b with
      | some found => .ok (some found)
      | none => walkFind next f endless fuel following

def walkUntil {β : Type} (next : K → Except ε (Option K)) (stop : K → Bool) (f : K → Except ε (Option β)) (endless : ε) :
    Nat → Option K → Except ε (List β)
  | _, none => .ok []
  | 0, some _ => .error endless
  | fuel + 1, some b => do
      let following ← next b
      if stop b then .ok []
      else do
        let kept ← f b
        let rest ← walkUntil next stop f endless fuel following
        pure (kept.toList ++ rest)

variable {β : Type} {next : K → Except ε (Option K)} {f : K → Except ε (Option β)} {endless : ε} {fuel : Nat} {b : K}

theorem walkFindSome {found : β} (ok : walkFind next f endless fuel (some b) = .ok (some found)) :
    f b = .ok (some found) ∨ f b = .ok none ∧ ∃ fuel' following, next b = .ok (some following) ∧
      walkFind next f endless fuel' (some following) = .ok (some found) := by
  cases fuel with
  | zero => cases ok
  | succ fuel =>
      simp only [walkFind,bindOk] at ok
      obtain ⟨following,isNext,answer,isAnswer,rest⟩ := ok
      cases answer with
      | some here =>
          cases rest
          exact .inl isAnswer
      | none =>
          cases following with
          | none =>
              cases fuel <;> cases rest
          | some following => exact .inr ⟨isAnswer,fuel,following,isNext,rest⟩

theorem walkFindAlong {P : K → Prop} {found : β} (keeps : ∀ c d, P c → next c = .ok (some d) → P d) (start : P b)
    (ok : walkFind next f endless fuel (some b) = .ok (some found)) : ∃ c, P c ∧ f c = .ok (some found) := by
  induction fuel generalizing b with
  | zero => cases ok
  | succ fuel ih =>
      simp only [walkFind,bindOk] at ok
      obtain ⟨following,isNext,answer,isAnswer,rest⟩ := ok
      cases answer with
      | some here =>
          cases rest
          exact ⟨b,start,isAnswer⟩
      | none =>
          cases following with
          | none => cases fuel <;> cases rest
          | some following => exact ih (keeps b following start isNext) rest

theorem walkFindHere {result : Option β} (ok : walkFind next f endless fuel (some b) = .ok result) :
    ∃ answer, f b = .ok answer ∧ ∀ found, answer = some found → result = some found := by
  cases fuel with
  | zero => cases ok
  | succ fuel =>
      simp only [walkFind,bindOk] at ok
      obtain ⟨following,_,answer,isAnswer,rest⟩ := ok
      refine ⟨answer,isAnswer,fun found isFound => ?_⟩
      subst isFound
      cases rest
      rfl

theorem walkFindNone {start : Option K} {result : Option β} (nothing : ∀ c answer, f c = .ok answer → answer = none)
    (ok : walkFind next f endless fuel start = .ok result) : result = none := by
  induction fuel generalizing start with
  | zero =>
      cases start with
      | none =>
          cases ok
          rfl
      | some b => cases ok
  | succ fuel ih =>
      cases start with
      | none =>
          cases ok
          rfl
      | some b =>
          simp only [walkFind,bindOk] at ok
          obtain ⟨following,_,answer,isAnswer,rest⟩ := ok
          cases nothing b answer isAnswer
          exact ih rest

theorem walkUntilFrom {stop : K → Bool} {start : Option K} {kept : List β}
    (ok : walkUntil next stop f endless fuel start = .ok kept) : ∀ x ∈ kept, ∃ c, f c = .ok (some x) := by
  induction fuel generalizing start kept with
  | zero =>
      cases start with
      | none =>
          cases ok
          exact fun _ mem => nomatch mem
      | some b => cases ok
  | succ fuel ih =>
      cases start with
      | none =>
          cases ok
          exact fun _ mem => nomatch mem
      | some b =>
          simp only [walkUntil,bindOk] at ok
          obtain ⟨following,_,ok⟩ := ok
          split at ok
          · cases ok
            exact fun _ mem => nomatch mem
          · simp only [bindOk,pureOk] at ok
            obtain ⟨answer,isAnswer,rest,isRest,rfl⟩ := ok
            intro x mem
            rcases List.mem_append.mp mem with here | later
            · exact ⟨b,isAnswer.trans (congrArg Except.ok (Option.mem_toList.mp here))⟩
            · exact ih isRest x later

end Walks

namespace Links

variable (links : Links ε K)

/- The walk back from `b`, with `n` blocks left to go; each round takes the longest jump that fits. -/
def climb (start : K) (depth : Nat) : Nat → K → Nat → Except ε K
  | 0, b, _ => .ok b
  | fuel + 1, b, n =>
      if n = 0 then .ok b
      else do
        let height ← links.height b
        if height < n then .error (links.noAncestor start depth)
        else if n = 1 then links.parent b
        else do
          let index := Nat.log2 n - 1
          let jumps ← links.jumps b
          let next ← okOr jumps[index]? links.outOfRange
          climb start depth fuel next (n - 2 <<< index)

/- A round shortens the distance, so the distance is fuel enough. -/
def nthAncestor (b : K) (n : Nat) : Except ε K := links.climb b n n b n

def isDescendant [DecidableEq K] (ancestor descendant : K) : Except ε Bool :=
  if ancestor = descendant then .ok true
  else do
    let ancestorHeight ← links.height ancestor
    let descendantHeight ← links.height descendant
    if descendantHeight < ancestorHeight then .ok false
    else do
      let at_ ← links.nthAncestor descendant (descendantHeight - ancestorHeight)
      pure (ancestor = at_)

def equalize (b c : K) : Except ε (K × K × Nat) := do
  let height0 ← links.height b
  let height1 ← links.height c
  if height0 < height1 then do
    let c ← links.nthAncestor c (height1 - height0)
    pure (b,c,height0)
  else if height1 < height0 then do
    let b ← links.nthAncestor b (height0 - height1)
    pure (b,c,height1)
  else pure (b,c,height0)

def meet [DecidableEq K] (b c : K) : Nat → Nat → Nat → Except ε Nat
  | 0, _, hi => .ok hi
  | fuel + 1, lo, hi =>
      if lo < hi then do
        let mid := (lo + hi) / 2
        let ancestor0 ← links.nthAncestor b mid
        let ancestor1 ← links.nthAncestor c mid
        if ancestor0 = ancestor1 then meet b c fuel lo mid else meet b c fuel (mid + 1) hi
      else .ok hi

def lastCommon [DecidableEq K] (b c : K) : Except ε K := do
  let (b,c,height) ← links.equalize b c
  if b = c then pure b
  else do
    let depth ← links.meet b c height 1 height
    links.nthAncestor b depth

/- The jumps of a new block, each twice as long as the one before and found from its end. -/
def doublings (height : Nat) : Nat → List K → Nat → Except ε (List K)
  | 0, js, _ => .ok js
  | fuel + 1, js, depth =>
      if depth ≤ height then do
        let last ← okOr js.getLast? links.outOfRange
        let next ← links.nthAncestor last (depth / 2)
        doublings height fuel (js ++ [next]) (depth * 2)
      else .ok js

def exponentialAncestors (parent : K) (height : Nat) : Except ε (List K) :=
  if 2 ≤ height then do
    let grandparent ← links.nthAncestor parent 1
    links.doublings height height [grandparent] 4
  else .ok []

def up : Nat → K → Option K
  | 0, b => some b
  | n + 1, b =>
      match links.parent b with
      | .ok p => up n p
      | .error _ => none

def Descends (ancestor descendant : K) : Prop :=
  ∃ h n, links.height descendant = .ok h ∧ n ≤ h ∧ links.up n descendant = some ancestor

/- Heights count the steps to the root, and every jump that fits is stored and leads to the right ancestor. -/
structure Sound : Prop where
  step : ∀ {b h}, links.height b = .ok (h + 1) → ∃ p, links.parent b = .ok p ∧ links.height p = .ok h
  jump : ∀ {b h}, links.height b = .ok h → ∃ js, links.jumps b = .ok js ∧
    ∀ i, 2 ^ (i + 1) ≤ h → ∃ a, js[i]? = some a ∧ links.up (2 ^ (i + 1)) b = some a

variable {links}

theorem upAdd {m n : Nat} {b : K} : links.up (m + n) b = (links.up m b).bind (links.up n) := by
  induction m generalizing b with
  | zero => simp [up]
  | succ m ih =>
      rw [Nat.succ_add,up,up]
      cases links.parent b with
      | ok p => exact ih
      | error e => rfl

theorem Sound.upHeight (sound : links.Sound) {b : K} {h n : Nat} (known : links.height b = .ok h) (bound : n ≤ h) :
    ∃ a, links.up n b = some a ∧ links.height a = .ok (h - n) := by
  induction n generalizing b h with
  | zero => exact ⟨b,rfl,known⟩
  | succ n ih =>
      obtain ⟨m,rfl⟩ := Nat.exists_eq_add_of_le bound
      rw [show n + 1 + m = (n + m) + 1 by omega] at known
      obtain ⟨p,isParent,parentKnown⟩ := sound.step known
      obtain ⟨a,found,height⟩ := ih parentKnown (Nat.le_add_right n m)
      refine ⟨a,?_,?_⟩
      · rw [up,isParent]
        exact found
      · rw [height]
        congr 1
        omega

theorem twiceJump {n : Nat} (large : 2 ≤ n) : 2 <<< (Nat.log2 n - 1) = 2 ^ Nat.log2 n ∧
    2 ^ Nat.log2 n ≤ n ∧ Nat.log2 n - 1 + 1 = Nat.log2 n := by
  have positive : 1 ≤ Nat.log2 n := (Nat.le_log2 (by omega)).mpr (by omega)
  have index : Nat.log2 n - 1 + 1 = Nat.log2 n := Nat.sub_add_cancel positive
  refine ⟨?_,Nat.log2_self_le (by omega),index⟩
  rw [Nat.shiftLeft_eq,← Nat.pow_succ',Nat.succ_eq_add_one,index]

def Extends (links links' : Links ε K) : Prop :=
  ∀ c h, links.height c = .ok h → links'.height c = .ok h ∧ links'.parent c = links.parent c

def KeepsJumps (links links' : Links ε K) : Prop :=
  ∀ c h, links.height c = .ok h → links'.jumps c = links.jumps c

/- The walk only visits known blocks, so lookups that agree on those take it the same way. -/
theorem Sound.climb (sound : links.Sound) {links' : Links ε K} (extends_ : links.Extends links')
    (keeps : links.KeepsJumps links') {start b a : K} {depth fuel h n : Nat} (enough : n ≤ fuel)
    (known : links.height b = .ok h) (bound : n ≤ h) (above : links.up n b = some a) :
    links'.climb start depth fuel b n = .ok a := by
  induction fuel generalizing b h n with
  | zero =>
      cases Nat.le_zero.mp enough
      cases above
      rfl
  | succ fuel ih =>
      unfold Links.climb
      by_cases none : n = 0
      · subst none
        cases above
        rfl
      rw [if_neg none,(extends_ _ _ known).1,okBind,if_neg (Nat.not_lt.mpr bound)]
      by_cases one : n = 1
      · subst one
        rw [if_pos rfl,(extends_ _ _ known).2]
        unfold up at above
        cases isParent : links.parent b with
        | error e =>
            rw [isParent] at above
            cases above
        | ok p =>
            rw [isParent] at above
            cases above
            rfl
      · rw [if_neg one]
        obtain ⟨shift,fits,index⟩ := twiceJump (n := n) (by omega)
        have positive : 0 < 2 ^ Nat.log2 n := Nat.two_pow_pos _
        obtain ⟨js,isJumps,jumps⟩ := sound.jump known
        obtain ⟨next,found,leads⟩ := jumps (Nat.log2 n - 1) (by rw [index]; omega)
        rw [index] at leads
        obtain ⟨next',same,nextKnown⟩ := sound.upHeight known (Nat.le_trans fits bound)
        cases leads.symm.trans same
        rw [keeps _ _ known,isJumps,okBind,found]
        simp only [okOr,okBind,shift]
        refine ih (by omega) nextKnown (by omega) ?_
        have split := above
        rw [← Nat.add_sub_cancel' fits,upAdd,leads] at split
        exact split

theorem Sound.nthSame (sound : links.Sound) {links' : Links ε K} (extends_ : links.Extends links')
    (keeps : links.KeepsJumps links') {b : K} {h n : Nat} (known : links.height b = .ok h) (bound : n ≤ h) :
    ∃ a, links'.nthAncestor b n = .ok a ∧ links.up n b = some a ∧ links.height a = .ok (h - n) := by
  obtain ⟨a,above,height⟩ := sound.upHeight known bound
  exact ⟨a,sound.climb extends_ keeps (Nat.le_refl n) known bound above,above,height⟩

theorem Sound.nth (sound : links.Sound) {b : K} {h n : Nat} (known : links.height b = .ok h) (bound : n ≤ h) :
    ∃ a, links.nthAncestor b n = .ok a ∧ links.up n b = some a ∧ links.height a = .ok (h - n) :=
  sound.nthSame (fun _ _ known => ⟨known,rfl⟩) (fun _ _ _ => rfl) known bound

theorem Descends.refl {b : K} {h : Nat} (known : links.height b = .ok h) : links.Descends b b :=
  ⟨h,0,known,Nat.zero_le h,rfl⟩

theorem Sound.descent (sound : links.Sound) {a d : K} {h : Nat} (descends : links.Descends a d)
    (known : links.height d = .ok h) : ∃ k ≤ h, links.height a = .ok k ∧ links.up (h - k) d = some a := by
  obtain ⟨h',n,known',bound,above⟩ := descends
  obtain rfl : h' = h := Except.ok.inj (known'.symm.trans known)
  obtain ⟨a',above',height⟩ := sound.upHeight known bound
  cases above.symm.trans above'
  exact ⟨h' - n,Nat.sub_le h' n,height,by rw [Nat.sub_sub_self bound]; exact above⟩

theorem Sound.descentTrans (sound : links.Sound) {a b c : K} (first : links.Descends a b) (second : links.Descends b c) :
    links.Descends a c := by
  obtain ⟨h,n,known,bound,above⟩ := second
  obtain ⟨b',above',height⟩ := sound.upHeight known bound
  cases above.symm.trans above'
  obtain ⟨h',m,known',bound',further⟩ := first
  obtain rfl : h' = h - n := Except.ok.inj (known'.symm.trans height)
  exact ⟨h,n + m,known,by omega,by rw [upAdd,above]; exact further⟩

theorem Sound.descentAntisymm (sound : links.Sound) {a b : K} (first : links.Descends a b)
    (second : links.Descends b a) : a = b := by
  obtain ⟨h,_,known,_⟩ := first
  obtain ⟨k,below,heightA,above⟩ := sound.descent ⟨h,_,known,‹_›⟩ known
  obtain ⟨k',below',heightB,_⟩ := sound.descent second heightA
  obtain rfl : k' = h := Except.ok.inj (heightB.symm.trans known)
  obtain rfl : k = k' := Nat.le_antisymm below below'
  rw [Nat.sub_self] at above
  exact (Option.some.inj above).symm

theorem Sound.descentLine (sound : links.Sound) {a b d : K} {ha hb : Nat} (first : links.Descends a d)
    (second : links.Descends b d) (heightA : links.height a = .ok ha) (heightB : links.height b = .ok hb)
    (ordered : ha ≤ hb) : links.Descends a b := by
  obtain ⟨h,_,known,_⟩ := first
  obtain ⟨k,below,atK,above⟩ := sound.descent ⟨h,_,known,‹_›⟩ known
  obtain ⟨k',below',atK',above'⟩ := sound.descent second known
  obtain rfl : k = ha := Except.ok.inj (atK.symm.trans heightA)
  obtain rfl : k' = hb := Except.ok.inj (atK'.symm.trans heightB)
  refine ⟨k',k' - k,heightB,Nat.sub_le k' k,?_⟩
  rw [show h - k = (h - k') + (k' - k) by omega,upAdd,above'] at above
  exact above

theorem Sound.equalize (sound : links.Sound) {b c : K} {hb hc : Nat} (heightB : links.height b = .ok hb)
    (heightC : links.height c = .ok hc) : ∃ b' c', links.equalize b c = .ok (b',c',min hb hc) ∧
      links.up (hb - hc) b = some b' ∧ links.up (hc - hb) c = some c' ∧
      links.height b' = .ok (min hb hc) ∧ links.height c' = .ok (min hb hc) := by
  unfold Links.equalize
  rw [heightB,heightC]
  simp only [okBind]
  rcases Nat.lt_trichotomy hb hc with less | rfl | more
  · obtain ⟨c',found,above,height⟩ := sound.nth heightC (Nat.sub_le hc hb)
    have smaller : min hb hc = hb := Nat.min_eq_left (Nat.le_of_lt less)
    rw [Nat.sub_sub_self (Nat.le_of_lt less)] at height
    rw [if_pos less,found,smaller]
    refine ⟨b,c',rfl,?_,above,heightB,height⟩
    rw [Nat.sub_eq_zero_of_le (Nat.le_of_lt less)]
    rfl
  · rw [if_neg (Nat.lt_irrefl hb),if_neg (Nat.lt_irrefl hb),Nat.min_self,Nat.sub_self]
    exact ⟨b,c,rfl,rfl,rfl,heightB,heightC⟩
  · obtain ⟨b',found,above,height⟩ := sound.nth heightB (Nat.sub_le hb hc)
    have smaller : min hb hc = hc := Nat.min_eq_right (Nat.le_of_lt more)
    rw [Nat.sub_sub_self (Nat.le_of_lt more)] at height
    rw [if_neg (Nat.lt_asymm more),if_pos more,found,smaller]
    refine ⟨b',c,rfl,above,?_,height,heightC⟩
    rw [Nat.sub_eq_zero_of_le (Nat.le_of_lt more)]
    rfl

theorem Sound.equalizeLine (sound : links.Sound) {b c b' c' : K} {hb hc h : Nat} (heightB : links.height b = .ok hb)
    (heightC : links.height c = .ok hc) (evened : links.equalize b c = .ok (b',c',h)) :
    b' = c' ↔ links.Descends b c ∨ links.Descends c b := by
  obtain ⟨x,y,found,aboveB,aboveC,_⟩ := sound.equalize heightB heightC
  cases evened.symm.trans found
  constructor
  · rintro rfl
    rcases Nat.le_total hb hc with less | more
    · rw [Nat.sub_eq_zero_of_le less] at aboveB
      cases aboveB
      exact .inl ⟨hc,hc - hb,heightC,Nat.sub_le hc hb,aboveC⟩
    · rw [Nat.sub_eq_zero_of_le more] at aboveC
      cases aboveC
      exact .inr ⟨hb,hb - hc,heightB,Nat.sub_le hb hc,aboveB⟩
  · rintro (descends | descends)
    · obtain ⟨k,below,height,above⟩ := sound.descent descends heightC
      obtain rfl : k = hb := Except.ok.inj (height.symm.trans heightB)
      rw [Nat.sub_eq_zero_of_le below] at aboveB
      cases aboveB
      exact Option.some.inj (above.symm.trans aboveC)
    · obtain ⟨k,below,height,above⟩ := sound.descent descends heightB
      obtain rfl : k = hc := Except.ok.inj (height.symm.trans heightC)
      rw [Nat.sub_eq_zero_of_le below] at aboveC
      cases aboveC
      exact Option.some.inj (aboveB.symm.trans above)

section Queries

variable [DecidableEq K]

theorem Sound.isDescendant (sound : links.Sound) {a d : K} {ha hd : Nat} (heightA : links.height a = .ok ha)
    (heightD : links.height d = .ok hd) :
    ∃ answer, links.isDescendant a d = .ok answer ∧ (answer = true ↔ links.Descends a d) := by
  unfold Links.isDescendant
  by_cases same : a = d
  · subst same
    exact ⟨true,by rw [if_pos rfl],by simp [Descends.refl heightA]⟩
  rw [if_neg same,heightA,heightD]
  simp only [okBind]
  by_cases taller : hd < ha
  · refine ⟨false,by rw [if_pos taller],?_⟩
    simp only [Bool.false_eq_true,false_iff]
    intro descends
    obtain ⟨k,below,height,_⟩ := sound.descent descends heightD
    obtain rfl : k = ha := Except.ok.inj (height.symm.trans heightA)
    omega
  · obtain ⟨at_,found,above,height⟩ := sound.nth heightD (Nat.sub_le hd ha)
    rw [if_neg taller,found,okBind]
    refine ⟨decide (a = at_),rfl,?_⟩
    rw [decide_eq_true_eq]
    constructor
    · rintro rfl
      exact ⟨hd,hd - ha,heightD,Nat.sub_le hd ha,above⟩
    · intro descends
      obtain ⟨k,_,isHeight,above'⟩ := sound.descent descends heightD
      obtain rfl : k = ha := Except.ok.inj (isHeight.symm.trans heightA)
      exact Option.some.inj (above'.symm.trans above)

/- The search finds the same depth from either side; the blocks there are one, or roots. -/
theorem Sound.meet (sound : links.Sound) (fuel lo : Nat) {b c : K} {h hi : Nat} (heightB : links.height b = .ok h)
    (heightC : links.height c = .ok h) (bound : hi ≤ h) (ends : hi = h ∨ links.up hi b = links.up hi c) :
    ∃ d ≤ h, links.meet b c fuel lo hi = .ok d ∧ links.meet c b fuel lo hi = .ok d ∧
      (d = h ∨ links.up d b = links.up d c) := by
  induction fuel generalizing lo hi with
  | zero => exact ⟨hi,bound,rfl,rfl,ends⟩
  | succ fuel ih =>
      unfold Links.meet
      by_cases apart : lo < hi
      · obtain ⟨b',foundB,aboveB,_⟩ := sound.nth heightB (n := (lo + hi) / 2) (by omega)
        obtain ⟨c',foundC,aboveC,_⟩ := sound.nth heightC (n := (lo + hi) / 2) (by omega)
        simp only [if_pos apart,foundB,foundC,okBind]
        by_cases same : b' = c'
        · rw [if_pos same,if_pos same.symm]
          exact ih _ (by omega) (.inr (by rw [aboveB,aboveC,same]))
        · rw [if_neg same,if_neg (Ne.symm same)]
          exact ih _ bound ends
      · rw [if_neg apart]
        exact ⟨hi,bound,rfl,by rw [if_neg apart],ends⟩

theorem Sound.lastCommon (sound : links.Sound) {b c : K} {hb hc : Nat} (heightB : links.height b = .ok hb)
    (heightC : links.height c = .ok hc) : ∃ x y, links.lastCommon b c = .ok x ∧ links.lastCommon c b = .ok y ∧
      links.Descends x b ∧ (x = y ∨ links.height x = .ok 0 ∧ links.height y = .ok 0) := by
  obtain ⟨b',c',evened,aboveB,aboveC,heightB',heightC'⟩ := sound.equalize heightB heightC
  obtain ⟨c'',b'',evened',aboveC',aboveB',_⟩ := sound.equalize heightC heightB
  cases aboveB.symm.trans aboveB'
  cases aboveC.symm.trans aboveC'
  unfold Links.lastCommon
  rw [evened,evened',Nat.min_comm hc hb]
  simp only [okBind]
  by_cases same : b' = c'
  · rw [if_pos same,if_pos same.symm]
    exact ⟨b',c',rfl,rfl,⟨hb,hb - hc,heightB,Nat.sub_le hb hc,aboveB⟩,.inl same⟩
  · rw [if_neg same,if_neg (Ne.symm same)]
    obtain ⟨d,bound,met,met',ends⟩ := sound.meet (min hb hc) 1 heightB' heightC' (Nat.le_refl _) (.inl rfl)
    obtain ⟨x,foundX,aboveX,heightX⟩ := sound.nth heightB' bound
    obtain ⟨y,foundY,aboveY,heightY⟩ := sound.nth heightC' bound
    rw [met,met']
    refine ⟨x,y,foundX,foundY,⟨hb,hb - hc + d,heightB,by omega,?_⟩,?_⟩
    · rw [upAdd,aboveB]
      exact aboveX
    · rcases ends with rfl | meets
      · rw [Nat.sub_self] at heightX heightY
        exact .inr ⟨heightX,heightY⟩
      · exact .inl (Option.some.inj (aboveX.symm.trans (meets.trans aboveY)))

theorem Sound.lastCommonLine (sound : links.Sound) {b c : K} {hb hc : Nat} (heightB : links.height b = .ok hb)
    (heightC : links.height c = .ok hc) (descends : links.Descends b c) : links.lastCommon b c = .ok b := by
  obtain ⟨b',c',evened,aboveB,_⟩ := sound.equalize heightB heightC
  obtain ⟨k,below,height,_⟩ := sound.descent descends heightC
  obtain rfl : k = hb := Except.ok.inj (height.symm.trans heightB)
  rw [Nat.sub_eq_zero_of_le below] at aboveB
  cases aboveB
  unfold Links.lastCommon
  rw [evened,okBind]
  simp only [(sound.equalizeLine heightB heightC evened).mpr (.inl descends),if_true]
  rfl

theorem Sound.meetLeast (sound : links.Sound) {b c : K} {h fuel lo hi k : Nat} (heightB : links.height b = .ok h)
    (heightC : links.height c = .ok h) (bound : hi ≤ h) (enough : hi ≤ lo + fuel) (after : lo ≤ k)
    (meets : links.up k b = links.up k c) : ∃ d ≤ k, d ≤ h ∧ links.meet b c fuel lo hi = .ok d := by
  induction fuel generalizing lo hi with
  | zero => exact ⟨hi,by omega,bound,rfl⟩
  | succ fuel ih =>
      unfold Links.meet
      by_cases apart : lo < hi
      · obtain ⟨b',foundB,aboveB,_⟩ := sound.nth heightB (n := (lo + hi) / 2) (by omega)
        obtain ⟨c',foundC,aboveC,_⟩ := sound.nth heightC (n := (lo + hi) / 2) (by omega)
        simp only [if_pos apart,foundB,foundC,okBind]
        by_cases same : b' = c'
        · rw [if_pos same]
          exact ih (by omega) (by omega) after
        · rw [if_neg same]
          refine ih bound (by omega) (Nat.not_le.mp (fun before => same ?_))
          -- blocks that are one below the middle are one there too
          rw [← Nat.add_sub_cancel' before,upAdd] at aboveB aboveC
          rw [meets,aboveC] at aboveB
          exact (Option.some.inj aboveB).symm
      · rw [if_neg apart]
        exact ⟨hi,by omega,bound,rfl⟩

theorem lastCommonKnown {b c x : K} (common : links.lastCommon b c = .ok x) :
    ∃ hb hc, links.height b = .ok hb ∧ links.height c = .ok hc := by
  simp only [Links.lastCommon,bindOk] at common
  obtain ⟨_,evened,_⟩ := common
  simp only [Links.equalize,bindOk] at evened
  obtain ⟨hb,heightB,hc,heightC,_⟩ := evened
  exact ⟨hb,hc,heightB,heightC⟩

theorem Sound.lastCommonAbove (sound : links.Sound) {b c x : K} (common : links.lastCommon b c = .ok x) :
    links.Descends x b := by
  obtain ⟨hb,hc,heightB,heightC⟩ := lastCommonKnown common
  obtain ⟨x',_,isX,_,above,_⟩ := sound.lastCommon heightB heightC
  cases common.symm.trans isX
  exact above

theorem Sound.lastCommonGreatest (sound : links.Sound) {a b c x : K} (first : links.Descends a b)
    (second : links.Descends a c) (common : links.lastCommon b c = .ok x) : links.Descends a x := by
  obtain ⟨hb,_,heightB,_⟩ := id first
  obtain ⟨hc,_,heightC,_⟩ := id second
  obtain ⟨ha,belowB,heightA,_⟩ := sound.descent first heightB
  obtain ⟨ha',belowC,heightA',_⟩ := sound.descent second heightC
  obtain rfl : ha = ha' := Except.ok.inj (heightA.symm.trans heightA')
  obtain ⟨b',c',evened,aboveB,aboveC,heightB',heightC'⟩ := sound.equalize heightB heightC
  have below : ha ≤ min hb hc := Nat.le_min.mpr ⟨belowB,belowC⟩
  have overB : links.Descends a b' :=
    sound.descentLine first ⟨hb,hb - hc,heightB,Nat.sub_le hb hc,aboveB⟩ heightA heightB' below
  have overC : links.Descends a c' :=
    sound.descentLine second ⟨hc,hc - hb,heightC,Nat.sub_le hc hb,aboveC⟩ heightA heightC' below
  unfold Links.lastCommon at common
  rw [evened,okBind] at common
  dsimp only at common
  split at common
  · cases common
    exact overB
  · next apart =>
      obtain ⟨k,_,known,upB⟩ := sound.descent overB heightB'
      obtain ⟨k',_,known',upC⟩ := sound.descent overC heightC'
      obtain rfl : k = k' := Except.ok.inj (known.symm.trans known')
      have meets := upB.trans upC.symm
      have positive : 1 ≤ min hb hc - k := by
        refine Nat.one_le_iff_ne_zero.mpr (fun zero => apart ?_)
        rw [zero] at meets
        exact Option.some.inj meets
      have enough : min hb hc ≤ 1 + min hb hc := Nat.le_add_left _ _
      obtain ⟨d,least,bound,met⟩ := sound.meetLeast heightB' heightC' (Nat.le_refl _) enough positive meets
      obtain ⟨x',found,above,heightX⟩ := sound.nth heightB' bound
      rw [met,okBind,found] at common
      cases common
      exact sound.descentLine overB ⟨_,d,heightB',bound,above⟩ known heightX (by omega)

theorem Sound.lastCommonBoth (sound : links.Sound) {a b c x : K} (first : links.Descends a b)
    (second : links.Descends a c) (common : links.lastCommon b c = .ok x) : links.Descends x b ∧ links.Descends x c := by
  obtain ⟨hb,_,heightB,_⟩ := id first
  obtain ⟨hc,_,heightC,_⟩ := id second
  obtain ⟨x',y,isX,isY,overB,same⟩ := sound.lastCommon heightB heightC
  obtain rfl : x' = x := Except.ok.inj (isX.symm.trans common)
  obtain ⟨y',_,isY',_,overC,_⟩ := sound.lastCommon heightC heightB
  obtain rfl : y' = y := Except.ok.inj (isY'.symm.trans isY)
  have isRoot {z : K} (root : links.height z = .ok 0) (isOver : links.Descends a z) : z = a := by
    obtain ⟨k,below,_,up⟩ := sound.descent isOver root
    rw [Nat.zero_sub] at up
    exact Option.some.inj up
  rcases same with rfl | ⟨rootX,rootY⟩
  · exact ⟨overB,overC⟩
  · obtain rfl := isRoot rootX (sound.lastCommonGreatest first second isX)
    obtain rfl := isRoot rootY (sound.lastCommonGreatest second first isY)
    exact ⟨overB,overC⟩

end Queries

theorem Sound.descendsParent (sound : links.Sound) {a b : K} (descends : links.Descends a b) :
    a = b ∨ ∃ p, links.parent b = .ok p ∧ links.Descends a p := by
  obtain ⟨h,n,known,bound,above⟩ := descends
  cases n with
  | zero => exact .inl (Option.some.inj above).symm
  | succ n =>
      obtain ⟨j,rfl⟩ := Nat.exists_eq_add_of_le' (Nat.lt_of_lt_of_le (Nat.succ_pos n) bound)
      obtain ⟨p,isParent,parentKnown⟩ := sound.step known
      rw [up,isParent] at above
      exact .inr ⟨p,isParent,j,n,parentKnown,Nat.le_of_succ_le_succ bound,above⟩

section Growth

variable {links' : Links ε K}

theorem Sound.upSame (sound : links.Sound) (extends_ : links.Extends links') {c : K} {h n : Nat}
    (known : links.height c = .ok h) (bound : n ≤ h) : links'.up n c = links.up n c := by
  induction n generalizing c h with
  | zero => rfl
  | succ n ih =>
      obtain ⟨m,rfl⟩ := Nat.exists_eq_add_of_le bound
      rw [show n + 1 + m = (n + m) + 1 by omega] at known
      obtain ⟨p,isParent,parentKnown⟩ := sound.step known
      rw [up,up,(extends_ _ _ known).2,isParent]
      exact ih parentKnown (Nat.le_add_right n m)

theorem Sound.descendsSame (sound : links.Sound) (extends_ : links.Extends links') {a d : K} {h : Nat}
    (known : links.height d = .ok h) : links'.Descends a d ↔ links.Descends a d := by
  constructor
  · rintro ⟨h',n,known',bound,above⟩
    obtain rfl : h' = h := Except.ok.inj (known'.symm.trans (extends_ _ _ known).1)
    exact ⟨h',n,known,bound,(sound.upSame extends_ known bound).symm.trans above⟩
  · rintro ⟨h',n,known',bound,above⟩
    exact ⟨h',n,(extends_ _ _ known').1,bound,(sound.upSame extends_ known' bound).trans above⟩

/- The jumps that the loop finds, seen from the parent of the new block: one step is already taken. -/
theorem Sound.doublings (sound : links.Sound) (extends_ : links.Extends links') (keeps : links.KeepsJumps links')
    (js : List K) {p : K} {h fuel : Nat} (known : links.height p = .ok h) (begun : js ≠ [])
    (enough : h + 1 < 2 ^ (js.length + 1) * 2 ^ fuel)
    (right : ∀ i < js.length, js[i]? = links.up (2 ^ (i + 1) - 1) p) :
    ∃ js', links'.doublings (h + 1) fuel js (2 ^ (js.length + 1)) = .ok js' ∧
      ∀ i, 2 ^ (i + 1) ≤ h + 1 → ∃ a, js'[i]? = some a ∧ links.up (2 ^ (i + 1) - 1) p = some a := by
  have ended {js : List K} (right : ∀ i < js.length, js[i]? = links.up (2 ^ (i + 1) - 1) p)
      (short : h + 1 < 2 ^ (js.length + 1)) (i : Nat) (fits : 2 ^ (i + 1) ≤ h + 1) :
      ∃ a, js[i]? = some a ∧ links.up (2 ^ (i + 1) - 1) p = some a := by
    have inside : i < js.length :=
      Nat.lt_of_succ_lt_succ ((Nat.pow_lt_pow_iff_right (by omega)).mp (Nat.lt_of_le_of_lt fits short))
    exact ⟨js[i],List.getElem?_eq_getElem inside,by rw [← right i inside]; exact List.getElem?_eq_getElem inside⟩
  induction fuel generalizing js with
  | zero => exact ⟨js,rfl,ended right (by simpa using enough)⟩
  | succ fuel ih =>
      unfold Links.doublings
      by_cases more : 2 ^ (js.length + 1) ≤ h + 1
      · rw [if_pos more]
        have power : 2 ^ (js.length + 1) = 2 ^ js.length + 2 ^ js.length := by rw [Nat.pow_succ]; omega
        have positive : 0 < 2 ^ js.length := Nat.two_pow_pos _
        have nonempty : js.length - 1 < js.length := Nat.sub_lt (List.length_pos_iff.mpr begun) (by omega)
        have atLast : js.getLast? = links.up (2 ^ js.length - 1) p := by
          rw [List.getLast?_eq_getElem?,right _ nonempty,Nat.sub_add_cancel (by omega)]
        obtain ⟨last,above,height⟩ := sound.upHeight known (n := 2 ^ js.length - 1) (by omega)
        obtain ⟨next,found,further,_⟩ := sound.nthSame extends_ keeps height (n := 2 ^ js.length) (by omega)
        have half : 2 ^ (js.length + 1) / 2 = 2 ^ js.length := by omega
        have further' : links.up (2 ^ (js.length + 1) - 1) p = some next := by
          rw [show 2 ^ (js.length + 1) - 1 = 2 ^ js.length - 1 + 2 ^ js.length by omega,upAdd,above]
          exact further
        rw [atLast,above]
        simp only [okOr,okBind,half,found]
        have longer : (js ++ [next]).length = js.length + 1 := by simp
        rw [← Nat.pow_succ,← longer]
        refine ih (js ++ [next]) (by simp) ?_ ?_
        · rw [longer,Nat.pow_succ,Nat.mul_assoc,← Nat.pow_succ']
          exact enough
        · intro i inside
          rw [longer] at inside
          rcases Nat.lt_succ_iff_lt_or_eq.mp inside with before | rfl
          · rw [List.getElem?_append_left before]
            exact right i before
          · rw [List.getElem?_append_right (Nat.le_refl _),Nat.sub_self,further']
            rfl
      · rw [if_neg more]
        exact ⟨js,rfl,ended right (by omega)⟩

theorem Sound.exponential (sound : links.Sound) (extends_ : links.Extends links') (keeps : links.KeepsJumps links')
    {p : K} {h : Nat} (known : links.height p = .ok h) : ∃ js, links'.exponentialAncestors p (h + 1) = .ok js ∧
      ∀ i, 2 ^ (i + 1) ≤ h + 1 → ∃ a, js[i]? = some a ∧ links.up (2 ^ (i + 1) - 1) p = some a := by
  unfold Links.exponentialAncestors
  by_cases tall : 2 ≤ h + 1
  · obtain ⟨grandparent,found,above,_⟩ := sound.nthSame extends_ keeps known (n := 1) (by omega)
    rw [if_pos tall,found,okBind]
    refine sound.doublings extends_ keeps [grandparent] known (by simp) ?_ ?_
    · have large : h + 1 < 2 ^ (h + 1) := Nat.lt_two_pow_self
      simp only [List.length_singleton]
      omega
    · intro i inside
      cases Nat.lt_one_iff.mp inside
      simpa using above.symm
  · rw [if_neg tall]
    refine ⟨[],rfl,fun i fits => ?_⟩
    have large : 2 ≤ 2 ^ (i + 1) := by
      rw [Nat.pow_succ]
      have := Nat.two_pow_pos i
      omega
    omega

theorem doublingsFit {height fuel : Nat} {js js' : List K} (fit : ∀ i < js.length, 2 ^ (i + 1) ≤ height)
    (ok : links.doublings height fuel js (2 ^ (js.length + 1)) = .ok js') : ∀ i < js'.length, 2 ^ (i + 1) ≤ height := by
  induction fuel generalizing js with
  | zero =>
      cases ok
      exact fit
  | succ fuel ih =>
      unfold Links.doublings at ok
      split at ok
      · next more =>
          simp only [bindOk] at ok
          obtain ⟨last,_,next,_,rest⟩ := ok
          have longer : ∀ i < (js ++ [next]).length, 2 ^ (i + 1) ≤ height := by
            intro i inside
            rw [List.length_append,List.length_singleton] at inside
            rcases Nat.lt_succ_iff_lt_or_eq.mp inside with earlier | rfl
            · exact fit i earlier
            · exact more
          refine ih longer ?_
          rw [List.length_append,List.length_singleton,Nat.pow_succ]
          exact rest
      · cases ok
        exact fit

theorem exponentialFit {p : K} {height : Nat} {js : List K} (ok : links.exponentialAncestors p height = .ok js) :
    ∀ i < js.length, 2 ^ (i + 1) ≤ height := by
  unfold Links.exponentialAncestors at ok
  split at ok
  · next tall =>
      simp only [bindOk] at ok
      obtain ⟨grandparent,_,rest⟩ := ok
      have single : ∀ i < [grandparent].length, 2 ^ (i + 1) ≤ height := by
        intro i inside
        cases Nat.lt_one_iff.mp inside
        exact tall
      exact doublingsFit single rest
  · cases ok
    exact fun i inside => absurd inside (Nat.not_lt_zero i)

theorem Sound.extend (sound : links.Sound) (extends_ : links.Extends links') {b : K}
    (others : ∀ c, c ≠ b → links'.height c = links.height c ∧ links'.jumps c = links.jumps c)
    (placed : links'.height b = .ok 0 ∨ ∃ p h, links'.parent b = .ok p ∧ links.height p = .ok h ∧
      links'.height b = .ok (h + 1))
    (stored : ∀ h, links'.height b = .ok h → ∃ js, links'.jumps b = .ok js ∧
      ∀ i, 2 ^ (i + 1) ≤ h → ∃ a, js[i]? = some a ∧ links'.up (2 ^ (i + 1)) b = some a) : links'.Sound := by
  constructor
  · intro c h known
    by_cases here : c = b
    · subst here
      rcases placed with root | ⟨p,k,isParent,parentKnown,height⟩
      · cases root.symm.trans known
      · obtain rfl : k = h := by
          have same := Except.ok.inj (height.symm.trans known)
          omega
        exact ⟨p,isParent,(extends_ _ _ parentKnown).1⟩
    · rw [(others c here).1] at known
      obtain ⟨p,isParent,parentKnown⟩ := sound.step known
      exact ⟨p,(extends_ _ _ known).2.trans isParent,(extends_ _ _ parentKnown).1⟩
  · intro c h known
    by_cases here : c = b
    · subst here
      exact stored h known
    · rw [(others c here).1] at known
      obtain ⟨js,isJumps,jumps⟩ := sound.jump known
      refine ⟨js,(others c here).2.trans isJumps,fun i fits => ?_⟩
      rw [sound.upSame extends_ known fits]
      exact jumps i fits

theorem Sound.extendChild (sound : links.Sound) {middle : Links ε K} (extends_ : links.Extends links')
    (extendsMiddle : links.Extends middle) (keeps : links.KeepsJumps middle) {b p : K} {h : Nat} {js : List K}
    (others : ∀ c, c ≠ b → links'.height c = links.height c ∧ links'.jumps c = links.jumps c)
    (isParent : links'.parent b = .ok p) (known : links.height p = .ok h) (isHeight : links'.height b = .ok (h + 1))
    (found : middle.exponentialAncestors p (h + 1) = .ok js) (isJumps : links'.jumps b = .ok js) : links'.Sound := by
  refine sound.extend extends_ others (.inr ⟨p,h,isParent,known,isHeight⟩) (fun height heightIs => ?_)
  obtain rfl : h + 1 = height := Except.ok.inj (isHeight.symm.trans heightIs)
  obtain ⟨js',found',right⟩ := sound.exponential extendsMiddle keeps known
  obtain rfl : js = js' := Except.ok.inj (found.symm.trans found')
  refine ⟨js,isJumps,fun i fits => ?_⟩
  obtain ⟨a,atIndex,above⟩ := right i fits
  have positive : 0 < 2 ^ (i + 1) := Nat.two_pow_pos _
  refine ⟨a,atIndex,?_⟩
  rw [← Nat.sub_add_cancel positive,up,isParent]
  exact (sound.upSame extends_ known (by omega)).trans above

theorem Sound.extendRoot (sound : links.Sound) (extends_ : links.Extends links') {b : K} {js : List K}
    (others : ∀ c, c ≠ b → links'.height c = links.height c ∧ links'.jumps c = links.jumps c)
    (isHeight : links'.height b = .ok 0) (isJumps : links'.jumps b = .ok js) : links'.Sound := by
  refine sound.extend extends_ others (.inl isHeight) (fun height heightIs => ?_)
  obtain rfl : 0 = height := Except.ok.inj (isHeight.symm.trans heightIs)
  refine ⟨js,isJumps,fun i fits => ?_⟩
  have positive : 0 < 2 ^ (i + 1) := Nat.two_pow_pos _
  omega

theorem Sound.restrict (sound : links.Sound) (extends_ : links'.Extends links) (keeps : links'.KeepsJumps links)
    (closed : ∀ {b p h}, links'.height b = .ok (h + 1) → links'.parent b = .ok p → links'.height p = .ok h) :
    links'.Sound := by
  have step {b : K} {h : Nat} (known : links'.height b = .ok (h + 1)) :
      ∃ p, links'.parent b = .ok p ∧ links'.height p = .ok h := by
    obtain ⟨p,isParent,_⟩ := sound.step (extends_ _ _ known).1
    have isParent' := (extends_ _ _ known).2.symm.trans isParent
    exact ⟨p,isParent',closed known isParent'⟩
  have above {n : Nat} {b : K} {h : Nat} (known : links'.height b = .ok h) (bound : n ≤ h) :
      links'.up n b = links.up n b := by
    induction n generalizing b h with
    | zero => rfl
    | succ n ih =>
        obtain ⟨h,rfl⟩ := Nat.exists_eq_add_of_le' (Nat.lt_of_lt_of_le (Nat.succ_pos n) bound)
        obtain ⟨p,isParent,parentKnown⟩ := step known
        rw [up,up,(extends_ _ _ known).2,isParent]
        exact ih parentKnown (Nat.le_of_succ_le_succ bound)
  refine ⟨step,fun {b h} known => ?_⟩
  obtain ⟨js,isJumps,jumps⟩ := sound.jump (extends_ _ _ known).1
  refine ⟨js,(keeps _ _ known).symm.trans isJumps,fun i fits => ?_⟩
  rw [above known fits]
  exact jumps i fits

end Growth

end Links

end Coinshift.Lineage
