import Coinshift.Ancestry
import Mathlib.Data.List.TakeWhile

/-! A walk back from a block as a list: the block, its parent, and so on up to the root.
Every lazy walk takes the first part of it, and it passes no block twice. Nothing here is specific to one program. -/
namespace Coinshift.Lineage
open Checked

variable {ε K β : Type} {next : K → Except ε (Option K)} {start : Option K} {line other : List K} {b : K}

inductive Walk (next : K → Except ε (Option K)) : Option K → List K → Prop
  | ended : Walk next none []
  | step {b following rest} (isNext : next b = .ok following) (walked : Walk next following rest) :
      Walk next (some b) (b :: rest)

theorem Walk.unique (walk : Walk next start line) (again : Walk next start other) : line = other := by
  induction walk generalizing other with
  | ended =>
      cases again
      rfl
  | step isNext _ ih =>
      cases again with
      | step isNext' rest =>
          cases isNext.symm.trans isNext'
          rw [ih rest]

theorem Walk.suffix {front back : List K} (walk : Walk next start (front ++ b :: back)) : Walk next (some b) (b :: back) := by
  induction front generalizing start with
  | nil =>
      cases walk with
      | step isNext rest => exact .step isNext rest
  | cons x front ih =>
      cases walk with
      | step _ rest => exact ih rest

/- A block that came again would begin the same walk. -/
theorem Walk.nodup (walk : Walk next start line) : line.Nodup := by
  induction walk with
  | ended => exact .nil
  | @step b following rest isNext walked ih =>
      refine List.nodup_cons.mpr ⟨fun again => ?_,ih⟩
      obtain ⟨front,back,rfl⟩ := List.append_of_mem again
      have same := (Walk.step isNext walked).unique walked.suffix
      have lengths := congrArg List.length same
      simp only [List.length_cons,List.length_append] at lengths
      omega

theorem Walk.kept {stop : K → Bool} {f : K → Except ε (Option β)} {g : K → Option β} {endless : ε} {fuel : Nat}
    (walk : Walk next start line) (enough : line.length ≤ fuel) (keeps : ∀ b ∈ line, f b = .ok (g b)) :
    walkUntil next stop f endless fuel start = .ok ((line.takeWhile (fun b => !stop b)).filterMap g) := by
  induction walk generalizing fuel with
  | ended => cases fuel <;> rfl
  | @step b following rest isNext walked ih =>
      obtain ⟨fuel,rfl⟩ := Nat.exists_eq_add_of_le' (Nat.lt_of_lt_of_le (Nat.succ_pos _) enough)
      have later := ih (Nat.le_of_succ_le_succ enough) (fun c mem => keeps c (List.mem_cons_of_mem b mem))
      rw [walkUntil,isNext,okBind,List.takeWhile_cons]
      cases stops : stop b with
      | true => rfl
      | false =>
          rw [keeps b List.mem_cons_self,later]
          simp only [Bool.false_eq_true,if_false,Bool.not_false,if_true,okBind,List.filterMap_cons]
          cases g b <;> rfl

theorem Walk.total {stop : K → Bool} {f : K → Except ε (Option β)} {endless : ε} {fuel : Nat}
    (walk : Walk next start line) (enough : line.length ≤ fuel)
    (reads : ∀ b ∈ line.takeWhile (fun b => !stop b), ∃ read, f b = .ok read) :
    ∃ kept, walkUntil next stop f endless fuel start = .ok kept := by
  induction walk generalizing fuel with
  | ended => cases fuel <;> exact ⟨[],rfl⟩
  | @step b following rest isNext walked ih =>
      obtain ⟨fuel,rfl⟩ := Nat.exists_eq_add_of_le' (Nat.lt_of_lt_of_le (Nat.succ_pos _) enough)
      rw [walkUntil,isNext,okBind]
      cases stops : stop b with
      | true => exact ⟨[],rfl⟩
      | false =>
          rw [List.takeWhile_cons,stops] at reads
          obtain ⟨read,isRead⟩ := reads b List.mem_cons_self
          obtain ⟨kept,isKept⟩ := ih (Nat.le_of_succ_le_succ enough) (fun c mem => reads c (List.mem_cons_of_mem b mem))
          simp only [Bool.false_eq_true,if_false,isRead,isKept,okBind]
          exact ⟨_,rfl⟩

theorem Walk.gathered {stop : K → Bool} {f : K → Except ε β} {endless : ε} {fuel : Nat} {kept : List β}
    (walk : Walk next start line) (ok : walkUntil next stop (fun b => (f b).map some) endless fuel start = .ok kept) :
    List.Forall₂ (fun b x => f b = .ok x) (line.takeWhile (fun b => !stop b)) kept := by
  induction walk generalizing fuel kept with
  | ended =>
      cases fuel <;> cases ok <;> exact .nil
  | @step b following rest isNext walked ih =>
      cases fuel with
      | zero => cases ok
      | succ fuel =>
          rw [walkUntil,isNext,okBind] at ok
          rw [List.takeWhile_cons]
          cases stops : stop b with
          | true =>
              rw [stops,if_pos rfl] at ok
              cases ok
              exact .nil
          | false =>
              simp only [stops,Bool.false_eq_true,if_false,bindOk,mapOk,pureOk] at ok
              obtain ⟨_,⟨x,isRead,rfl⟩,later,isLater,rfl⟩ := ok
              exact .cons isRead (ih isLater)

def walkNth (next : K → Except ε (Option K)) : Nat → Option K → Except ε (Option K)
  | _,none => .ok none
  | 0,some b => do
      let _ ← next b
      pure (some b)
  | n + 1,some b => do
      let following ← next b
      walkNth next n following

theorem Walk.nth {n : Nat} (walk : Walk next start line) : walkNth next n start = .ok (line)[n]? := by
  induction walk generalizing n with
  | ended => cases n <;> rfl
  | step isNext _ ih =>
      cases n with
      | zero =>
          rw [walkNth,isNext]
          rfl
      | succ n => rw [walkNth,isNext,okBind,ih,List.getElem?_cons_succ]

theorem Walk.leaves {c : K} (walk : Walk next (some b) line) (mem : c ∈ line) : next c ≠ .ok (some b) := by
  intro back
  obtain ⟨front,rest,rfl⟩ := List.append_of_mem mem
  cases walk.suffix with
  | step isNext again =>
      cases isNext.symm.trans back
      have lengths := congrArg List.length (walk.unique again)
      simp only [List.length_append,List.length_cons] at lengths
      omega

section Trees

variable {links : Links ε K} {h : Nat}

structure Links.Leads (links : Links ε K) (next : K → Except ε (Option K)) : Prop where
  root : ∀ {b}, links.height b = .ok 0 → next b = .ok none
  child : ∀ {b h p}, links.height b = .ok (h + 1) → links.parent b = .ok p → next b = .ok (some p)

theorem Links.Sound.walk (sound : links.Sound) (leads : links.Leads next) (known : links.height b = .ok h) :
    ∃ line, Walk next (some b) line ∧ line.length = h + 1 ∧ ∀ a, a ∈ line ↔ links.Descends a b := by
  induction h generalizing b with
  | zero =>
      refine ⟨[b],.step (leads.root known) .ended,rfl,fun a => ?_⟩
      rw [List.mem_singleton]
      constructor
      · rintro rfl
        exact .refl known
      · intro ⟨h,n,known',bound,above⟩
        cases known.symm.trans known'
        cases Nat.le_zero.mp bound
        exact (Option.some.inj above).symm
  | succ h ih =>
      obtain ⟨p,isParent,parentKnown⟩ := sound.step known
      obtain ⟨line,walk,length,ancestors⟩ := ih parentKnown
      refine ⟨b :: line,.step (leads.child known isParent) walk,congrArg Nat.succ length,fun a => ?_⟩
      rw [List.mem_cons,ancestors]
      constructor
      · intro inside
        rcases inside with rfl | above
        · exact .refl known
        · have up : links.up 1 b = some p := by
            rw [Links.up,isParent]
            rfl
          exact sound.descentTrans above ⟨h + 1,1,known,Nat.le_add_left 1 h,up⟩
      · intro descends
        rcases sound.descendsParent descends with same | ⟨q,isParent',above⟩
        · exact .inl same
        · cases isParent.symm.trans isParent'
          exact .inr above

theorem Links.HighestCommon.apart {x c : K} (common : links.HighestCommon x b c) (stop : K → Bool) (sound : links.Sound)
    (leads : links.Leads next) (walk : Walk next (some c) line) (stops : stop x = true) {y : K}
    (inside : y ∈ line.takeWhile (fun d => !stop d)) : ¬ links.Descends y b := by
  intro shared
  have goesOn := List.mem_takeWhile_imp inside
  obtain ⟨hc,_,known,_⟩ := id common.right
  obtain ⟨whole,isWhole,_,ancestors⟩ := sound.walk leads known
  cases walk.unique isWhole
  have above := (ancestors y).mp (List.takeWhile_subset _ inside)
  obtain ⟨hy,_,knownY,_⟩ := sound.descent above known
  obtain ⟨hx,knownX,bound⟩ := common.highest y hy shared above knownY
  have below := sound.descentLine above common.right knownY knownX bound
  have isInside := (ancestors x).mpr common.right
  rw [← List.takeWhile_append_dropWhile (p := fun d => !stop d) (l := line)] at isInside walk
  have later : x ∈ line.dropWhile (fun d => !stop d) := by
    refine (List.mem_append.mp isInside).resolve_left (fun earlier => ?_)
    have goesOn' := List.mem_takeWhile_imp earlier
    rw [stops] at goesOn'
    cases goesOn'
  obtain ⟨front,back,isSplit⟩ := List.append_of_mem inside
  rw [isSplit,List.append_assoc,List.cons_append] at walk
  obtain ⟨line',isLine,_,ancestors'⟩ := sound.walk leads knownY
  have reaches := (ancestors' x).mp (walk.suffix.unique isLine ▸ List.mem_cons_of_mem y (List.mem_append_right back later))
  cases sound.descentAntisymm below reaches
  rw [stops] at goesOn
  cases goesOn

end Trees

end Coinshift.Lineage
