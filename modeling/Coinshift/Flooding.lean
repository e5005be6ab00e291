import Mathlib.Logic.Relation

/-! An item that spreads over a network: who gets it tells its neighbours, but for the one it came from.
When nothing is under way any more, all that are joined to a holder hold it. -/
namespace Coinshift.Flooding

variable {N : Type} {linked : N → N → Prop} {held held' : N → Prop} {flying flying' : N → N → Prop} {i j : N}

structure Covered (linked : N → N → Prop) (held : N → Prop) (flying : N → N → Prop) : Prop where
  sender : ∀ i j, flying i j → held i
  told : ∀ i j, linked i j → held i → held j ∨ flying i j

/- What a step may do: nobody gives the item up, a new holder tells its neighbours, and what has been under way has come
to a holder or is still under way. -/
structure Spreads (linked : N → N → Prop) (held : N → Prop) (flying : N → N → Prop) (held' : N → Prop)
    (flying' : N → N → Prop) : Prop where
  keeps : ∀ i, held i → held' i
  sender : ∀ i j, flying' i j → held' i
  tells : ∀ i j, linked i j → held' i → held i ∨ held' j ∨ flying' i j
  arrives : ∀ i j, flying i j → held' j ∨ flying' i j

theorem Covered.step (covered : Covered linked held flying) (spreads : Spreads linked held flying held' flying') :
    Covered linked held' flying' := by
  refine ⟨spreads.sender,fun i j isLinked holds => ?_⟩
  rcases spreads.tells i j isLinked holds with before | told
  · rcases covered.told i j isLinked before with reached | under
    · exact .inl (spreads.keeps j reached)
    · exact spreads.arrives i j under
  · exact told

theorem Covered.reached (covered : Covered linked held flying) (quiet : ∀ i j, ¬ flying i j)
    (path : Relation.ReflTransGen linked i j) (holds : held i) : held j := by
  induction path with
  | refl => exact holds
  | tail _ isLinked ih =>
      rcases covered.told _ _ isLinked ih with reached | under
      · exact reached
      · exact absurd under (quiet _ _)

end Coinshift.Flooding
