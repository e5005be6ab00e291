import Mathlib.Data.List.Forall2

/-! Encodings that can be read off the front of a longer string.
An encoder may fail on some values, or encode them wrongly: only the values that `Fits` admits are
looked at. Nothing here is specific to one program. -/
namespace Coinshift.Delimited

variable {α β S : Type} {Fits : α → Prop} {encode : α → List S} {Same : α → α → Prop}

/- Two strings that begin with encodings are equal only if the encoded values are related and the rests equal. -/
def Delimits (Fits : α → Prop) (encode : α → List S) (Same : α → α → Prop) : Prop :=
  ∀ a b rest rest', Fits a → Fits b → encode a ++ rest = encode b ++ rest' → Same a b ∧ rest = rest'

theorem fixedLength {n : Nat} (length : ∀ a, (encode a).length = n)
    (injective : ∀ a b, encode a = encode b → Same a b) : Delimits (fun _ => True) encode Same := by
  intro a b rest rest' _ _ equal
  obtain ⟨first,tail⟩ := List.append_inj equal ((length a).trans (length b).symm)
  exact ⟨injective a b first,tail⟩

theorem Delimits.append {first second : α → List S} {P Q : α → Prop} {R T : α → α → Prop}
    (left : Delimits P first R) (right : Delimits Q second T) :
    Delimits (fun a => P a ∧ Q a) (fun a => first a ++ second a) (fun a b => R a b ∧ T a b) := by
  intro a b rest rest' fitsA fitsB equal
  rw [List.append_assoc,List.append_assoc] at equal
  obtain ⟨head,tail⟩ := left a b _ _ fitsA.1 fitsB.1 equal
  obtain ⟨last,ends⟩ := right a b _ _ fitsA.2 fitsB.2 tail
  exact ⟨⟨head,last⟩,ends⟩

theorem Delimits.tagged (delimits : Delimits Fits encode Same) (tag : S) :
    Delimits Fits (fun a => tag :: encode a) Same := by
  intro a b rest rest' fitsA fitsB equal
  exact delimits a b rest rest' fitsA fitsB (List.cons.inj equal).2

theorem Delimits.comap (delimits : Delimits Fits encode Same) (part : β → α) :
    Delimits (fun b => Fits (part b)) (fun b => encode (part b)) (fun a b => Same (part a) (part b)) :=
  fun a b => delimits (part a) (part b)

theorem Delimits.imp {Narrower : α → Prop} {Weaker : α → α → Prop} (delimits : Delimits Fits encode Same)
    (narrow : ∀ a, Narrower a → Fits a) (weaken : ∀ a b, Same a b → Weaker a b) :
    Delimits Narrower encode Weaker := by
  intro a b rest rest' fitsA fitsB equal
  obtain ⟨same,tail⟩ := delimits a b rest rest' (narrow a fitsA) (narrow b fitsB) equal
  exact ⟨weaken a b same,tail⟩

theorem Delimits.items (delimits : Delimits Fits encode Same) {xs ys : List α} {rest rest' : List S}
    (count : xs.length = ys.length) (fitsX : ∀ x ∈ xs, Fits x) (fitsY : ∀ y ∈ ys, Fits y)
    (equal : xs.flatMap encode ++ rest = ys.flatMap encode ++ rest') : List.Forall₂ Same xs ys ∧ rest = rest' := by
  induction xs generalizing ys with
  | nil =>
      cases List.eq_nil_of_length_eq_zero count.symm
      exact ⟨.nil,equal⟩
  | cons x xs ih =>
      cases ys with
      | nil => cases count
      | cons y ys =>
          rw [List.flatMap_cons,List.flatMap_cons,List.append_assoc,List.append_assoc] at equal
          obtain ⟨fitsHead,fitsTail⟩ := List.forall_mem_cons.mp fitsX
          obtain ⟨fitsHead',fitsTail'⟩ := List.forall_mem_cons.mp fitsY
          obtain ⟨same,tail⟩ := delimits x y _ _ fitsHead fitsHead' equal
          obtain ⟨others,ends⟩ := ih (Nat.succ.inj count) fitsTail fitsTail' tail
          exact ⟨.cons same others,ends⟩

end Coinshift.Delimited
