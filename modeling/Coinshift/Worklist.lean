import Coinshift.Checked
import Mathlib.Data.List.Nodup

/-! A queue of nodes that a round each takes from the front and adds the children of the node to, or nothing.
The nodes form a forest, so no node comes twice and as many rounds as there are nodes are enough.
Nothing here is specific to one program. -/
namespace Coinshift.Worklist
open Checked

variable {ε S K : Type}

/- A queue that outlasts its fuel would not become empty. -/
def drain (round : S → K → Except ε (S × List K)) (endless : ε) : Nat → S → List K → Except ε S
  | _, s, [] => .ok s
  | 0, _, _ :: _ => .error endless
  | fuel + 1, s, k :: queue => do
      let (s,more) ← round s k
      drain round endless fuel s (queue ++ more)

variable {round : S → K → Except ε (S × List K)} {endless : ε} {fuel : Nat} {s s' : S} {queue : List K}

theorem drainInvariant {P : S → List K → Prop}
    (step : ∀ s k queue s' more, P s (k :: queue) → round s k = .ok (s',more) → P s' (queue ++ more))
    (start : P s queue) (ok : drain round endless fuel s queue = .ok s') : P s' [] := by
  induction fuel generalizing s queue with
  | zero =>
      cases queue with
      | nil =>
          cases ok
          exact start
      | cons k queue => cases ok
  | succ fuel ih =>
      cases queue with
      | nil =>
          cases ok
          exact start
      | cons k queue =>
          simp only [drain,bindOk] at ok
          obtain ⟨⟨s',more⟩,done,rest⟩ := ok
          exact ih (step s k queue s' more start done) rest

section Enough

structure Forest (round : S → K → Except ε (S × List K)) (Q : S → Prop) (parent : K → Option K) (rank : K → Nat)
    (nodes : List K) : Prop where
  keeps : ∀ {s k s' more}, Q s → round s k = .ok (s',more) → Q s'
  once : ∀ {s k s' more}, Q s → round s k = .ok (s',more) → more.Nodup
  child : ∀ {s k s' more c}, Q s → round s k = .ok (s',more) → c ∈ more → parent c = some k ∧ c ∈ nodes
  lower : ∀ {c p}, parent c = some p → rank p < rank c

variable {Q : S → Prop} {parent : K → Option K} {rank : K → Nat} {nodes : List K}

structure Progress (parent : K → Option K) (rank : K → Nat) (nodes : List K) (root : K) (seen queue : List K) : Prop where
  once : (seen ++ queue).Nodup
  known : ∀ c ∈ seen ++ queue, c ∈ nodes
  below : ∀ c ∈ seen ++ queue, rank root ≤ rank c
  reached : ∀ c ∈ seen ++ queue, c = root ∨ ∃ p ∈ seen, parent c = some p

theorem Progress.start {root : K} (known : root ∈ nodes) : Progress parent rank nodes root [] [root] := by
  constructor <;> simp [known]

theorem Progress.next (forest : Forest round Q parent rank nodes) {root k : K} {seen more : List K}
    (progress : Progress parent rank nodes root seen (k :: queue)) (holds : Q s) (done : round s k = .ok (s',more)) :
    Progress parent rank nodes root (seen ++ [k]) (queue ++ more) := by
  have split : seen ++ [k] ++ (queue ++ more) = (seen ++ k :: queue) ++ more := by simp
  have mem : k ∈ seen ++ k :: queue := by simp
  have kSeen : k ∉ seen := fun isSeen =>
    (List.nodup_append.mp progress.once).2.2 k isSeen k List.mem_cons_self rfl
  have lower {c : K} (isMore : c ∈ more) : rank root < rank c :=
    Nat.lt_of_le_of_lt (progress.below k mem) (forest.lower (forest.child holds done isMore).1)
  -- a child of the node just taken was never in the queue: it has no other parent
  have fresh {c : K} (isMore : c ∈ more) : c ∉ seen ++ k :: queue := by
    intro isOld
    rcases progress.reached c isOld with rfl | ⟨p,isSeen,isParent⟩
    · exact Nat.lt_irrefl _ (lower isMore)
    · cases isParent.symm.trans (forest.child holds done isMore).1
      exact kSeen isSeen
  constructor
  · rw [split]
    refine List.nodup_append.mpr ⟨progress.once,forest.once holds done,fun a isOld b isMore same => ?_⟩
    exact fresh isMore (same ▸ isOld)
  · rw [split]
    intro c isHere
    rcases List.mem_append.mp isHere with isOld | isMore
    · exact progress.known c isOld
    · exact (forest.child holds done isMore).2
  · rw [split]
    intro c isHere
    rcases List.mem_append.mp isHere with isOld | isMore
    · exact progress.below c isOld
    · exact Nat.le_of_lt (lower isMore)
  · rw [split]
    intro c isHere
    rcases List.mem_append.mp isHere with isOld | isMore
    · rcases progress.reached c isOld with isRoot | ⟨p,isSeen,isParent⟩
      · exact .inl isRoot
      · exact .inr ⟨p,List.mem_append_left [k] isSeen,isParent⟩
    · exact .inr ⟨k,by simp,(forest.child holds done isMore).1⟩

theorem drainEnough (forest : Forest round Q parent rank nodes) {root : K} {seen : List K}
    (progress : Progress parent rank nodes root seen queue) (holds : Q s) {fuel' : Nat}
    (enough : nodes.length ≤ fuel + seen.length) (more : fuel ≤ fuel') :
    drain round endless fuel s queue = drain round endless fuel' s queue := by
  induction fuel generalizing s queue seen fuel' with
  | zero =>
      cases queue with
      | nil => cases fuel' <;> rfl
      | cons k queue =>
          have bound := progress.once.length_le_of_subset progress.known
          simp only [List.length_append,List.length_cons] at bound
          omega
  | succ fuel ih =>
      obtain ⟨fuel',rfl⟩ := Nat.exists_eq_add_of_le' (Nat.lt_of_lt_of_le (Nat.succ_pos fuel) more)
      cases queue with
      | nil => rfl
      | cons k queue =>
          simp only [drain]
          cases done : round s k with
          | error e => rfl
          | ok result =>
              refine ih (progress.next forest holds done) (forest.keeps holds done) ?_ (Nat.le_of_succ_le_succ more)
              simp only [List.length_append,List.length_singleton]
              omega

theorem drainTotal (forest : Forest round Q parent rank nodes) {root : K} {seen : List K}
    (progress : Progress parent rank nodes root seen queue) (holds : Q s)
    (runs : ∀ {s k}, Q s → k ∈ nodes → ∃ s' more, round s k = .ok (s',more))
    (enough : nodes.length ≤ fuel + seen.length) : ∃ s', drain round endless fuel s queue = .ok s' := by
  induction fuel generalizing s queue seen with
  | zero =>
      cases queue with
      | nil => exact ⟨s,rfl⟩
      | cons k queue =>
          have bound := progress.once.length_le_of_subset progress.known
          simp only [List.length_append,List.length_cons] at bound
          omega
  | succ fuel ih =>
      cases queue with
      | nil => exact ⟨s,rfl⟩
      | cons k queue =>
          obtain ⟨s',more,done⟩ := runs holds (progress.known k (by simp))
          have left : nodes.length ≤ fuel + (seen ++ [k]).length := by
            simp only [List.length_append,List.length_singleton]
            omega
          obtain ⟨last,rest⟩ := ih (progress.next forest holds done) (forest.keeps holds done) left
          exact ⟨last,by simpa only [drain,done,okBind] using rest⟩

end Enough

theorem drainPaid {cost : S → Nat}
    (paid : ∀ s k, ∃ s' more, round s k = .ok (s',more) ∧ cost s' + more.length ≤ cost s)
    (enough : cost s + queue.length ≤ fuel) : ∃ s', drain round endless fuel s queue = .ok s' := by
  induction fuel generalizing s queue with
  | zero =>
      have : queue = [] := List.eq_nil_of_length_eq_zero (by omega)
      subst this
      exact ⟨s,rfl⟩
  | succ fuel ih =>
      cases queue with
      | nil => exact ⟨s,rfl⟩
      | cons k queue =>
          obtain ⟨s',more,done,pays⟩ := paid s k
          have left : cost s' + (queue ++ more).length ≤ fuel := by
            simp only [List.length_append,List.length_cons] at enough ⊢
            omega
          obtain ⟨last,rest⟩ := ih left
          exact ⟨last,by simpa only [drain,done,okBind] using rest⟩

section Stack

def unwind (round : S → K → Except ε (S × List K)) (endless : ε) : Nat → S → List K → Except ε S
  | _, s, [] => .ok s
  | 0, _, _ :: _ => .error endless
  | fuel + 1, s, k :: stack => do
      let (s,more) ← round s k
      unwind round endless fuel s (more.reverse ++ stack)

theorem unwindInvariant {P : S → List K → Prop} {stack : List K}
    (step : ∀ s k stack s' more, P s (k :: stack) → round s k = .ok (s',more) → P s' (more.reverse ++ stack))
    (start : P s stack) (ok : unwind round endless fuel s stack = .ok s') : P s' [] := by
  induction fuel generalizing s stack with
  | zero =>
      cases stack with
      | nil =>
          cases ok
          exact start
      | cons k stack => cases ok
  | succ fuel ih =>
      cases stack with
      | nil =>
          cases ok
          exact start
      | cons k stack =>
          simp only [unwind,bindOk] at ok
          obtain ⟨⟨s',more⟩,done,rest⟩ := ok
          exact ih (step s k stack s' more start done) rest

theorem unwindPaid {cost : S → Nat} {stack : List K}
    (paid : ∀ s k, ∃ s' more, round s k = .ok (s',more) ∧ cost s' + more.length ≤ cost s)
    (enough : cost s + stack.length ≤ fuel) : ∃ s', unwind round endless fuel s stack = .ok s' := by
  induction fuel generalizing s stack with
  | zero =>
      have : stack = [] := List.eq_nil_of_length_eq_zero (by omega)
      subst this
      exact ⟨s,rfl⟩
  | succ fuel ih =>
      cases stack with
      | nil => exact ⟨s,rfl⟩
      | cons k stack =>
          obtain ⟨s',more,done,pays⟩ := paid s k
          have left : cost s' + (more.reverse ++ stack).length ≤ fuel := by
            simp only [List.length_append,List.length_reverse,List.length_cons] at enough ⊢
            omega
          obtain ⟨last,rest⟩ := ih left
          exact ⟨last,by simpa only [unwind,done,okBind] using rest⟩

end Stack

end Coinshift.Worklist
