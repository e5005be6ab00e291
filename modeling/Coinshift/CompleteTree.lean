import Mathlib.Data.List.Basic

/-! Complete binary trees, kept level by level in a list of places.
Leaf `i` of `n` stands at place `i + n - 1`, the children of place `i` at places `2 i + 1` and `2 i + 2`. Nothing here is
specific to one program. -/
namespace Coinshift.CompleteTree

variable {α : Type} {merge : α → α → Option α} {leaves later : List α} {k : Nat}

/- The places before those there are; the last one filled is the root. -/
def fill (merge : α → α → Option α) : Nat → List α → Option (List α)
  | 0, later => some later
  | k + 1, later => do
      let left ← later[k]?
      let right ← later[k + 1]?
      let parent ← merge left right
      fill merge k (parent :: later)

def places (merge : α → α → Option α) (leaves : List α) : Option (List α) := fill merge (leaves.length - 1) leaves

def root (merge : α → α → Option α) (leaves : List α) : Option α := (places merge leaves).bind List.head?

structure MergedAt (merge : α → α → Option α) (all : List α) (i : Nat) (l r p : α) : Prop where
  left : all[2 * i + 1]? = some l
  right : all[2 * i + 2]? = some r
  parent : all[i]? = some p
  merged : merge l r = some p

def Merged (merge : α → α → Option α) (all : List α) (i : Nat) : Prop := ∃ left right parent, MergedAt merge all i left right parent

def Inner (merge : α → α → Option α) (all : List α) (left right parent : α) : Prop := ∃ i, MergedAt merge all i left right parent

theorem fillSource {all : List α} (filled : fill merge k later = some all) :
    ∃ front, all = front ++ later ∧ front.length = k ∧ ∀ i < k, Merged merge all i := by
  induction k generalizing later with
  | zero =>
      cases filled
      exact ⟨[],rfl,rfl,fun i low => absurd low (Nat.not_lt_zero i)⟩
  | succ k ih =>
      simp only [fill,Option.bind_eq_bind,Option.bind_eq_some_iff] at filled
      obtain ⟨left,isLeft,right,isRight,parent,merged,rest⟩ := filled
      obtain ⟨front,rfl,count,inner⟩ := ih rest
      refine ⟨front ++ [parent],by rw [List.append_assoc,List.singleton_append],by rw [List.length_append,count]; rfl,fun i low => ?_⟩
      rcases Nat.lt_succ_iff_lt_or_eq.mp low with below | rfl
      · exact inner i below
      · refine ⟨left,right,parent,?_,?_,?_,merged⟩
        · rw [List.getElem?_append_right (by omega),count]
          rw [show 2 * i + 1 - i = i + 1 by omega,List.getElem?_cons_succ]
          exact isLeft
        · rw [List.getElem?_append_right (by omega),count]
          rw [show 2 * i + 2 - i = (i + 1) + 1 by omega,List.getElem?_cons_succ]
          exact isRight
        · rw [List.getElem?_append_right (by omega),count,Nat.sub_self]
          rfl

structure Tree (merge : α → α → Option α) (leaves all : List α) : Prop where
  inner : ∀ i, i + 1 < leaves.length → Merged merge all i
  leaf : ∀ i, i < leaves.length → all[i + leaves.length - 1]? = leaves[i]?

theorem placesTree {all : List α} (built : places merge leaves = some all) : Tree merge leaves all := by
  obtain ⟨front,rfl,count,inner⟩ := fillSource built
  refine ⟨fun i low => inner i (by omega),fun i low => ?_⟩
  rw [List.getElem?_append_right (by omega),count]
  rw [show i + leaves.length - 1 - (leaves.length - 1) = i by omega]

section Descend

variable {fuel fuel' : Nat} {i : Nat} {a b : α}

def descend (merge : α → α → Option α) (leaves : List α) : Nat → Nat → Option α
  | 0, _ => none
  | fuel + 1, i =>
      if i + 1 < leaves.length then do
        let left ← descend merge leaves fuel (2 * i + 1)
        let right ← descend merge leaves fuel (2 * i + 2)
        merge left right
      else leaves[i + 1 - leaves.length]?

theorem descendInner (inner : i + 1 < leaves.length) : descend merge leaves (fuel + 1) i = some a ↔
    ∃ left right, descend merge leaves fuel (2 * i + 1) = some left ∧ descend merge leaves fuel (2 * i + 2) = some right ∧
      merge left right = some a := by
  rw [descend,if_pos inner]
  simp only [Option.bind_eq_bind,Option.bind_eq_some_iff]
  constructor
  · rintro ⟨left,isLeft,right,isRight,merged⟩
    exact ⟨left,right,isLeft,isRight,merged⟩
  · rintro ⟨left,right,isLeft,isRight,merged⟩
    exact ⟨left,isLeft,right,isRight,merged⟩

theorem descendMore (found : descend merge leaves fuel i = some a) (more : fuel ≤ fuel') :
    descend merge leaves fuel' i = some a := by
  induction fuel generalizing fuel' i a with
  | zero => cases found
  | succ fuel ih =>
      obtain ⟨fuel',rfl⟩ := Nat.exists_eq_add_of_le' (Nat.le_trans (Nat.succ_pos fuel) more)
      have fewer : fuel ≤ fuel' := Nat.le_of_succ_le_succ more
      by_cases inner : i + 1 < leaves.length
      · obtain ⟨left,right,isLeft,isRight,merged⟩ := (descendInner inner).mp found
        exact (descendInner inner).mpr ⟨left,right,ih isLeft fewer,ih isRight fewer,merged⟩
      · rw [descend,if_neg inner] at found ⊢
        exact found

theorem descendOne (found : descend merge leaves fuel i = some a) (found' : descend merge leaves fuel' i = some b) : a = b := by
  have first := descendMore found (Nat.le_max_left fuel fuel')
  have second := descendMore found' (Nat.le_max_right fuel fuel')
  exact Option.some.inj (first.symm.trans second)

theorem descendBelow (found : descend merge leaves fuel 0 = some a) (place : i + 1 < 2 * leaves.length) :
    ∃ fuel b, descend merge leaves fuel i = some b := by
  induction i using Nat.strongRecOn with
  | ind i ih =>
      cases i with
      | zero => exact ⟨fuel,a,found⟩
      | succ i =>
          obtain ⟨above,b,isParent⟩ := ih (i / 2) (by omega) (by omega)
          cases above with
          | zero => cases isParent
          | succ above =>
              obtain ⟨left,right,isLeft,isRight,_⟩ := (descendInner (by omega)).mp isParent
              rcases Nat.mod_two_eq_zero_or_one i with even | odd
              · exact ⟨above,left,by rw [show i + 1 = 2 * (i / 2) + 1 by omega]; exact isLeft⟩
              · exact ⟨above,right,by rw [show i + 1 = 2 * (i / 2) + 2 by omega]; exact isRight⟩

theorem fillDescended (found : descend merge leaves fuel 0 = some a) (low : k + 1 ≤ leaves.length)
    (filled : ∀ j, k + j + 1 < 2 * leaves.length → ∃ fuel b, later[j]? = some b ∧ descend merge leaves fuel (k + j) = some b) :
    ∃ all, fill merge k later = some all := by
  induction k generalizing later with
  | zero => exact ⟨later,rfl⟩
  | succ k ih =>
      obtain ⟨fuelL,l,isLeft,left⟩ := filled k (by omega)
      obtain ⟨fuelR,r,isRight,right⟩ := filled (k + 1) (by omega)
      obtain ⟨fuelP,p,parent⟩ := descendBelow found (i := k) (by omega)
      cases fuelP with
      | zero => cases parent
      | succ fuelP =>
          obtain ⟨l',r',isLeft',isRight',merged⟩ := (descendInner (by omega)).mp parent
          rw [show k + 1 + k = 2 * k + 1 by omega] at left
          rw [show k + 1 + (k + 1) = 2 * k + 2 by omega] at right
          obtain rfl := descendOne left isLeft'
          obtain rfl := descendOne right isRight'
          have next : ∀ j, k + j + 1 < 2 * leaves.length →
              ∃ fuel b, (p :: later)[j]? = some b ∧ descend merge leaves fuel (k + j) = some b := by
            intro j place
            cases j with
            | zero => exact ⟨fuelP + 1,p,rfl,parent⟩
            | succ j =>
                obtain ⟨fuelJ,b,isB,here⟩ := filled j (by omega)
                exact ⟨fuelJ,b,isB,by rw [show k + (j + 1) = k + 1 + j by omega]; exact here⟩
          obtain ⟨all,rest⟩ := ih (by omega) next
          refine ⟨all,?_⟩
          rw [fill,isLeft,isRight]
          simp only [Option.bind_eq_bind,Option.bind_some,merged]
          exact rest

theorem treeDescends {all : List α} (tree : Tree merge leaves all) (place : i + 1 < 2 * leaves.length)
    (enough : leaves.length < fuel + i + 1) (some : 0 < fuel) : descend merge leaves fuel i = all[i]? := by
  induction fuel generalizing i with
  | zero => cases some
  | succ fuel ih =>
      by_cases inner : i + 1 < leaves.length
      · obtain ⟨l,r,p,here⟩ := tree.inner i inner
        rw [here.parent]
        refine (descendInner inner).mpr ⟨l,r,?_,?_,here.merged⟩
        · rw [ih (by omega) (by omega) (by omega),here.left]
        · rw [ih (by omega) (by omega) (by omega),here.right]
      · rw [descend,if_neg inner,← tree.leaf (i + 1 - leaves.length) (by omega)]
        rw [show i + 1 - leaves.length + leaves.length - 1 = i by omega]

theorem descendRoot (nonEmpty : leaves ≠ []) : descend merge leaves (leaves.length + 1) 0 = root merge leaves := by
  have count : 0 < leaves.length := List.length_pos_of_ne_nil nonEmpty
  cases built : places merge leaves with
  | some all =>
      rw [root,built,Option.bind_some,List.head?_eq_getElem?]
      exact treeDescends (placesTree built) (by omega) (by omega) (Nat.succ_pos _)
  | none =>
      rw [root,built,Option.bind_none]
      cases found : descend merge leaves (leaves.length + 1) 0 with
      | none => rfl
      | some a =>
          have leafAt : ∀ j, leaves.length - 1 + j + 1 < 2 * leaves.length →
              ∃ fuel b, leaves[j]? = some b ∧ descend merge leaves fuel (leaves.length - 1 + j) = some b := by
            intro j place
            have isLeaf := List.getElem?_eq_getElem (show j < leaves.length by omega)
            refine ⟨1,_,isLeaf,?_⟩
            rw [descend,if_neg (by omega),show leaves.length - 1 + j + 1 - leaves.length = j by omega,isLeaf]
          obtain ⟨all,filled⟩ := fillDescended found (by omega) leafAt
          rw [places,filled] at built
          cases built

end Descend

section Agree

variable {β : Type} {view : α → β} {others all all' : List α}

def Splits (merge : α → α → Option α) (view : α → β) (all all' : List α) : Prop :=
  ∀ l r p l' r' p', Inner merge all l r p → Inner merge all' l' r' p' → view p = view p' → view l = view l' ∧ view r = view r'

theorem agree (tree : Tree merge leaves all) (tree' : Tree merge others all') (splits : Splits merge view all all')
    (top : all.head?.map view = all'.head?.map view) {i : Nat} (low : i + 1 < 2 * min leaves.length others.length) :
    all[i]?.map view = all'[i]?.map view := by
  induction i using Nat.strongRecOn with
  | ind i ih =>
      cases i with
      | zero => rwa [← List.head?_eq_getElem?,← List.head?_eq_getElem?]
      | succ i =>
          -- the parent is an inner place of both
          obtain ⟨l,r,p,here⟩ := tree.inner (i / 2) (by omega)
          obtain ⟨l',r',p',here'⟩ := tree'.inner (i / 2) (by omega)
          have above := ih (i / 2) (by omega) (by omega)
          rw [here.parent,here'.parent,Option.map_some,Option.map_some] at above
          obtain ⟨left,right⟩ := splits l r p l' r' p' ⟨i / 2,here⟩ ⟨i / 2,here'⟩ (Option.some.inj above)
          rcases Nat.mod_two_eq_zero_or_one i with even | odd
          · rw [show i + 1 = 2 * (i / 2) + 1 by omega,here.left,here'.left,Option.map_some,Option.map_some,left]
          · rw [show i + 1 = 2 * (i / 2) + 2 by omega,here.right,here'.right,Option.map_some,Option.map_some,right]

theorem sameLeaves (tree : Tree merge leaves all) (tree' : Tree merge others all') (splits : Splits merge view all all')
    (top : all.head?.map view = all'.head?.map view) (count : leaves.length = others.length) :
    leaves.map view = others.map view := by
  refine List.ext_getElem? (fun i => ?_)
  rw [List.getElem?_map,List.getElem?_map]
  rcases Nat.lt_or_ge i leaves.length with inside | beyond
  · rw [← tree.leaf i inside,← tree'.leaf i (count ▸ inside),← count]
    exact agree tree tree' splits top (by omega)
  · rw [List.getElem?_eq_none beyond,List.getElem?_eq_none (count ▸ beyond)]

theorem firstLeafInner (tree : Tree merge leaves all) (tree' : Tree merge others all') (splits : Splits merge view all all')
    (top : all.head?.map view = all'.head?.map view) {leaf : α} (first : leaves.head? = some leaf)
    (fewer : leaves.length < others.length) :
    ∃ l r p, Inner merge all' l r p ∧ view leaf = view p := by
  have nonEmpty : 0 < leaves.length := by
    cases leaves with
    | nil => cases first
    | cons _ _ => exact Nat.succ_pos _
  obtain ⟨l,r,p,here⟩ := tree'.inner (leaves.length - 1) (by omega)
  have isLeaf : all[leaves.length - 1]? = some leaf := by
    have stands := tree.leaf 0 nonEmpty
    rw [Nat.zero_add,← List.head?_eq_getElem?,first] at stands
    exact stands
  have same := agree tree tree' splits top (i := leaves.length - 1) (by omega)
  rw [isLeaf,here.parent,Option.map_some,Option.map_some] at same
  exact ⟨l,r,p,⟨leaves.length - 1,here⟩,Option.some.inj same⟩

end Agree

end Coinshift.CompleteTree
