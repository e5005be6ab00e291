import Mathlib.Data.List.Forall2
import Mathlib.Data.List.Induction

/-! Fallible computations and the loops built from them.
The rules invert a successful computation one step at a time, and carry an invariant
or a relation through a fallible fold. Nothing here is specific to one program. -/
namespace Coinshift.Checked

variable {ε α β γ σ τ : Type}

def ensure (p : Prop) [Decidable p] (e : ε) : Except ε Unit :=
  if p then .ok () else .error e

def okOr (o : Option α) (e : ε) : Except ε α :=
  match o with
  | some a => .ok a
  | none => .error e

def ensureSome (o : Option α) (p : α → Prop) [DecidablePred p] (e : α → ε) : Except ε Unit :=
  match o with
  | some a => ensure (p a) (e a)
  | none => .ok ()

@[simp] theorem ensureOk {p : Prop} [Decidable p] {e : ε} {u : Unit} : ensure p e = .ok u ↔ p := by
  unfold ensure
  split <;> simp_all

@[simp] theorem ensureSomeOk {o : Option α} {p : α → Prop} [DecidablePred p] {e : α → ε} {u : Unit} :
    ensureSome o p e = .ok u ↔ ∀ a, o = some a → p a := by
  cases o <;> simp [ensureSome]

@[simp] theorem okOrOk {o : Option α} {e : ε} {a : α} : okOr o e = .ok a ↔ o = some a := by
  cases o <;> simp [okOr]

theorem bindOk {x : Except ε α} {f : α → Except ε β} {b : β} :
    (x >>= f) = .ok b ↔ ∃ a, x = .ok a ∧ f a = .ok b := by
  cases x <;> simp [bind,Except.bind]

@[simp] theorem pureOk {a b : α} : (pure a : Except ε α) = .ok b ↔ a = b := by
  simp [pure,Except.pure]

@[simp] theorem okBind {a : α} {f : α → Except ε β} : ((.ok a : Except ε α) >>= f) = f a := rfl

theorem mapBind {x : Except ε α} {f : α → Except ε β} {g : β → γ} :
    (x >>= f).map g = x >>= fun a => (f a).map g := by
  cases x <;> rfl

theorem mapPure {a : α} {g : α → β} : (pure a : Except ε α).map g = pure (g a) := rfl

theorem bindError {x : Except ε α} {f : α → Except ε β} {e : ε} :
    (x >>= f) = .error e ↔ x = .error e ∨ ∃ a, x = .ok a ∧ f a = .error e := by
  cases x <;> simp [bind,Except.bind]

theorem ensureError {p : Prop} [Decidable p] {e e' : ε} : ensure p e = .error e' ↔ ¬ p ∧ e = e' := by
  unfold ensure
  split <;> simp_all

theorem okOrError {o : Option α} {e e' : ε} : okOr o e = .error e' ↔ o = none ∧ e = e' := by
  cases o <;> simp [okOr]

theorem pureError {a : α} {e : ε} : (pure a : Except ε α) = .error e ↔ False := by
  simp [pure,Except.pure]

theorem mapOk {f : α → β} {x : Except ε α} {b : β} : x.map f = .ok b ↔ ∃ a, x = .ok a ∧ f a = b := by
  cases x <;> simp [Except.map]

theorem mapErrorOk {ε' : Type} {f : ε → ε'} {x : Except ε α} {a : α} :
    x.mapError f = .ok a ↔ x = .ok a := by cases x <;> simp [Except.mapError]

theorem mapErrorError {ε' : Type} {f : ε → ε'} {x : Except ε α} {e' : ε'} :
    x.mapError f = .error e' ↔ ∃ e, x = .error e ∧ f e = e' := by cases x <;> simp [Except.mapError]

theorem toOptionOk {x : Except ε α} {a : α} (ok : x.toOption = some a) : x = .ok a := by
  cases x with
  | error _ => cases ok
  | ok b => exact congrArg Except.ok (Option.some.inj ok)

theorem isOkExists {x : Except ε α} (isOk : x.isOk = true) : ∃ a, x = .ok a := by
  cases x with
  | error e => cases isOk
  | ok a => exact ⟨a,rfl⟩

def checkAll (f : α → Except ε Unit) : List α → Except ε Unit
  | [] => .ok ()
  | x :: xs => do
      f x
      checkAll f xs

theorem checkAllOk {f : α → Except ε Unit} {xs : List α} {u : Unit} :
    checkAll f xs = .ok u ↔ ∀ x ∈ xs, f x = .ok () := by
  induction xs with
  | nil => simp [checkAll]
  | cons x xs ih =>
      simp only [checkAll,bindOk,ih,List.forall_mem_cons]
      exact ⟨fun ⟨_,first,rest⟩ => ⟨first,rest⟩,fun ⟨first,rest⟩ => ⟨(),first,rest⟩⟩

def collect (f : α → Except ε β) : List α → Except ε (List β)
  | [] => .ok []
  | x :: xs => do
      let y ← f x
      let ys ← collect f xs
      pure (y :: ys)

theorem collectOk {f : α → Except ε β} {xs : List α} {ys : List β} :
    collect f xs = .ok ys ↔ List.Forall₂ (fun x y => f x = .ok y) xs ys := by
  induction xs generalizing ys with
  | nil => simp [collect,eq_comm]
  | cons x xs ih =>
      simp only [collect,bindOk,pureOk,List.forall₂_cons_left_iff,ih]
      constructor
      · rintro ⟨y,first,rest,tail,rfl⟩
        exact ⟨y,rest,first,tail,rfl⟩
      · rintro ⟨y,rest,first,tail,rfl⟩
        exact ⟨y,first,rest,tail,rfl⟩

theorem collectTotal {f : α → Except ε β} {xs : List α} (total : ∀ x ∈ xs, ∃ y, f x = .ok y) :
    ∃ ys, collect f xs = .ok ys := by
  induction xs with
  | nil => exact ⟨[],rfl⟩
  | cons x xs ih =>
      obtain ⟨y,first⟩ := total x List.mem_cons_self
      obtain ⟨ys,rest⟩ := ih (fun x mem => total x (List.mem_cons_of_mem _ mem))
      refine ⟨y :: ys,?_⟩
      rw [collect,first,okBind,rest]
      rfl

theorem relatedLeft {R : α → β → Prop} {xs : List α} {ys : List β} (each : List.Forall₂ R xs ys) {x : α}
    (mem : x ∈ xs) : ∃ y ∈ ys, R x y := by
  induction each with
  | nil => cases mem
  | cons head tail ih =>
      rcases List.mem_cons.mp mem with rfl | later
      · exact ⟨_,List.mem_cons_self,head⟩
      · obtain ⟨y,inside,related⟩ := ih later
        exact ⟨y,List.mem_cons_of_mem _ inside,related⟩

theorem relatedRight {R : α → β → Prop} {xs : List α} {ys : List β} (each : List.Forall₂ R xs ys) {y : β}
    (mem : y ∈ ys) : ∃ x ∈ xs, R x y := relatedLeft each.flip mem

theorem relatedAt {R : α → β → Prop} {xs : List α} {ys : List β} (each : List.Forall₂ R xs ys) {i : Nat} {x : α}
    (found : xs[i]? = some x) : ∃ y, ys[i]? = some y ∧ R x y := by
  induction each generalizing i with
  | nil => cases found
  | cons head tail ih =>
      cases i with
      | zero =>
          cases found
          exact ⟨_,rfl,head⟩
      | succ i => exact ih found

theorem foldNilOk {f : σ → α → Except ε σ} {s t : σ} : [].foldlM f s = .ok t ↔ s = t := by simp

theorem foldConsOk {f : σ → α → Except ε σ} {s t : σ} {x : α} {xs : List α} :
    (x :: xs).foldlM f s = .ok t ↔ ∃ m, f s x = .ok m ∧ xs.foldlM f m = .ok t := by
  rw [List.foldlM_cons,bindOk]

theorem foldAppendOk {f : σ → α → Except ε σ} {s t : σ} {xs ys : List α} :
    (xs ++ ys).foldlM f s = .ok t ↔ ∃ m, xs.foldlM f s = .ok m ∧ ys.foldlM f m = .ok t := by
  rw [List.foldlM_append,bindOk]

theorem foldInvariant {f : σ → α → Except ε σ} {P : σ → Prop} {xs : List α} {s t : σ}
    (step : ∀ s x t, x ∈ xs → P s → f s x = .ok t → P t)
    (start : P s) (ok : xs.foldlM f s = .ok t) : P t := by
  induction xs generalizing s with
  | nil => exact foldNilOk.mp ok ▸ start
  | cons x xs ih =>
      obtain ⟨m,first,rest⟩ := foldConsOk.mp ok
      exact ih (fun s y t mem => step s y t (List.mem_cons_of_mem x mem))
        (step s x m List.mem_cons_self start first) rest

theorem foldEstablished {f : σ → α → Except ε σ} {P : σ → Prop} {xs : List α} {s t : σ} {x : α} (mem : x ∈ xs)
    (brings : ∀ u v, f u x = .ok v → P v) (keeps : ∀ u y v, P u → f u y = .ok v → P v)
    (ok : xs.foldlM f s = .ok t) : P t := by
  obtain ⟨before,after,rfl⟩ := List.append_of_mem mem
  obtain ⟨u,_,rest⟩ := foldAppendOk.mp ok
  obtain ⟨v,applied,more⟩ := foldConsOk.mp rest
  exact foldInvariant (fun u y w _ => keeps u y w) (brings u v applied) more

theorem foldApplied {f : σ → α → Except ε σ} {xs : List α} {s t : σ} {x : α} (mem : x ∈ xs)
    (ok : xs.foldlM f s = .ok t) : ∃ u v, f u x = .ok v := by
  obtain ⟨before,after,rfl⟩ := List.append_of_mem mem
  obtain ⟨u,_,rest⟩ := foldAppendOk.mp ok
  obtain ⟨v,applied,_⟩ := foldConsOk.mp rest
  exact ⟨u,v,applied⟩

theorem foldIdle {f : σ → α → Except ε σ} {xs : List α} {s : σ} (idle : ∀ x ∈ xs, f s x = .ok s) :
    xs.foldlM f s = .ok s := by
  induction xs with
  | nil => rfl
  | cons x xs ih =>
      exact foldConsOk.mpr ⟨s,idle x List.mem_cons_self,ih (fun y mem => idle y (List.mem_cons_of_mem _ mem))⟩

theorem foldLearns {f : σ → α → Except ε σ} {Knows : σ → Prop} {Tells : α → Prop} {xs : List α} {s t : σ}
    (step : ∀ s x t, f s x = .ok t → (Knows t ↔ Knows s ∨ Tells x)) (ok : xs.foldlM f s = .ok t) :
    Knows t ↔ Knows s ∨ ∃ x ∈ xs, Tells x := by
  induction xs generalizing s with
  | nil =>
      cases foldNilOk.mp ok
      simp
  | cons x xs ih =>
      obtain ⟨m,first,rest⟩ := foldConsOk.mp ok
      rw [ih rest,step s x m first]
      simp only [List.mem_cons,exists_eq_or_imp,or_assoc]

theorem foldTotal {f : σ → α → Except ε σ} {xs : List α} {s : σ} (total : ∀ s, ∀ x ∈ xs, ∃ t, f s x = .ok t) :
    ∃ t, xs.foldlM f s = .ok t := by
  induction xs generalizing s with
  | nil => exact ⟨s,rfl⟩
  | cons x xs ih =>
      obtain ⟨t,first⟩ := total s x List.mem_cons_self
      obtain ⟨last,rest⟩ := ih (s := t) (fun s y mem => total s y (List.mem_cons_of_mem x mem))
      exact ⟨last,foldConsOk.mpr ⟨t,first,rest⟩⟩

theorem foldHistory {f : σ → α → Except ε σ} {P : List α → σ → Prop} {xs : List α} {s t : σ} (start : P [] s)
    (step : ∀ before x after u v, xs = before ++ x :: after → before.foldlM f s = .ok u → f u x = .ok v →
      P before u → P (before ++ [x]) v)
    (ok : xs.foldlM f s = .ok t) : P xs t := by
  have suffixes (rest before : List α) (u : σ) (split : xs = before ++ rest) (reached : before.foldlM f s = .ok u)
      (holds : P before u) (ok : rest.foldlM f u = .ok t) : P xs t := by
    induction rest generalizing before u with
    | nil =>
        rw [split,List.append_nil]
        exact foldNilOk.mp ok ▸ holds
    | cons x rest ih =>
        obtain ⟨v,applied,more⟩ := foldConsOk.mp ok
        refine ih (before ++ [x]) v ?_ ?_ (step before x rest u v split reached applied holds) more
        · rw [split,List.append_assoc,List.singleton_append]
        · exact foldAppendOk.mpr ⟨u,reached,foldConsOk.mpr ⟨v,applied,rfl⟩⟩
  exact suffixes xs [] s rfl rfl start ok

def every (f : σ → α → Except ε σ) (check : σ → α → Bool) : List α → σ → Bool
  | [], _ => true
  | x :: rest, s =>
      check s x &&
        match f s x with
        | .ok t => every f check rest t
        | .error _ => false

theorem everyTaken {f : σ → α → Except ε σ} {check : σ → α → Bool} {before after : List α} {x : α} {s u : σ}
    (passes : every f check (before ++ x :: after) s = true) (reached : before.foldlM f s = .ok u) : check u x = true := by
  induction before generalizing s with
  | nil =>
      cases foldNilOk.mp reached
      exact (Bool.and_eq_true_iff.mp passes).1
  | cons first before ih =>
      obtain ⟨middle,applied,rest⟩ := foldConsOk.mp reached
      have tail := (Bool.and_eq_true_iff.mp passes).2
      simp only [applied] at tail
      exact ih tail rest

theorem foldlPrefix {f : σ → α → σ} {P : σ → Prop} {xs : List α} {s : σ} (start : P s)
    (step : ∀ before x after, xs = before ++ x :: after → P (before.foldl f s) → P (f (before.foldl f s) x)) :
    P (xs.foldl f s) := by
  induction xs using List.reverseRecOn with
  | nil => exact start
  | append_singleton xs x ih =>
      rw [List.foldl_append]
      refine step xs x [] rfl (ih (fun before y after split => step before y (after ++ [x]) ?_))
      rw [split,List.append_assoc,List.cons_append]

def foldlEvery (f : σ → α → σ) (check : σ → α → Bool) : List α → σ → Bool
  | [], _ => true
  | x :: rest, s => check s x && foldlEvery f check rest (f s x)

theorem foldlEveryTaken {f : σ → α → σ} {check : σ → α → Bool} {before after : List α} {x : α} {s : σ}
    (passes : foldlEvery f check (before ++ x :: after) s = true) : check (before.foldl f s) x = true := by
  induction before generalizing s with
  | nil => exact (Bool.and_eq_true_iff.mp passes).1
  | cons first before ih => exact ih (Bool.and_eq_true_iff.mp passes).2

theorem foldView (view : σ → τ) {f : σ → α → Except ε σ} {g : τ → α → τ} {xs : List α} {s t : σ}
    (step : ∀ s x t, f s x = .ok t → view t = g (view s) x) (ok : xs.foldlM f s = .ok t) :
    view t = xs.foldl g (view s) := by
  induction xs generalizing s with
  | nil => exact congrArg view (foldNilOk.mp ok).symm
  | cons x xs ih =>
      obtain ⟨m,first,rest⟩ := foldConsOk.mp ok
      rw [List.foldl_cons,← step s x m first]
      exact ih rest

theorem foldRelated {f : σ → α → Except ε σ} {g : τ → α → Except ε τ} {R : σ → τ → Prop}
    {xs : List α} {s s' : σ} {t t' : τ}
    (step : ∀ s x s' t t', x ∈ xs → R s t → f s x = .ok s' → g t x = .ok t' → R s' t')
    (start : R s t) (left : xs.foldlM f s = .ok s') (right : xs.foldlM g t = .ok t') : R s' t' := by
  induction xs generalizing s t with
  | nil => exact foldNilOk.mp left ▸ foldNilOk.mp right ▸ start
  | cons x xs ih =>
      obtain ⟨m,first,rest⟩ := foldConsOk.mp left
      obtain ⟨n,first',rest'⟩ := foldConsOk.mp right
      exact ih (fun s y s' t t' mem => step s y s' t t' (List.mem_cons_of_mem x mem))
        (step s x m t n List.mem_cons_self start first first') rest rest'

theorem foldlLast (view : σ → Option β) {f : σ → α → σ} {write : α → Option β} {xs : List α} {s : σ}
    (step : ∀ s x, view (f s x) = (write x).or (view s)) :
    view (xs.foldl f s) = (xs.filterMap write).getLast?.or (view s) := by
  induction xs using List.reverseRecOn with
  | nil => rfl
  | append_singleton xs x ih =>
      rw [List.foldl_append,List.foldl_cons,List.foldl_nil,step,ih,List.filterMap_append]
      cases written : write x with
      | none => simp [written]
      | some v => simp [written]

theorem foldlClear (view : σ → Option β) {f : σ → α → σ} {clears : α → Bool} {xs : List α} {s : σ}
    (step : ∀ s x, view (f s x) = if clears x then none else view s) :
    view (xs.foldl f s) = if xs.any clears then none else view s := by
  induction xs generalizing s with
  | nil => rfl
  | cons x xs ih =>
      rw [List.foldl_cons,ih,step,List.any_cons]
      cases clears x <;> cases xs.any clears <;> rfl

theorem filterMapNodup {pick : α → Option β} {xs : List α} : (xs.filterMap pick).Nodup ↔
    ∀ front x back y, xs = front ++ x :: back → pick x = some y → y ∉ front.filterMap pick := by
  constructor
  · intro distinct front x back y split picked mem
    rw [split,List.filterMap_append,List.filterMap_cons_some picked,List.nodup_append] at distinct
    exact distinct.2.2 y mem y List.mem_cons_self rfl
  · intro fresh
    induction xs using List.reverseRecOn with
    | nil => exact List.nodup_nil
    | append_singleton xs x ih =>
        have before : (xs.filterMap pick).Nodup := by
          refine ih (fun front x' back y split picked => ?_)
          exact fresh front x' (back ++ [x]) y (by rw [split,List.append_assoc,List.cons_append]) picked
        rw [List.filterMap_append]
        cases picked : pick x with
        | none => simpa [picked] using before
        | some y =>
            have new := fresh xs x [] y rfl picked
            rw [List.filterMap_cons_some picked,List.filterMap_nil,List.nodup_append]
            refine ⟨before,by simp,?_⟩
            intro a mem b isLast same
            rw [List.mem_singleton.mp isLast] at same
            exact new (same ▸ mem)

def both (f : σ → α → Except ε σ) (g : τ → α → Except ε τ) (s : σ × τ) (x : α) : Except ε (σ × τ) := do
  let left ← f s.1 x
  let right ← g s.2 x
  pure (left,right)

theorem foldBothOk {f : σ → α → Except ε σ} {g : τ → α → Except ε τ} {xs : List α} {s s' : σ} {t t' : τ} :
    xs.foldlM (both f g) (s,t) = .ok (s',t') ↔ xs.foldlM f s = .ok s' ∧ xs.foldlM g t = .ok t' := by
  induction xs generalizing s t with
  | nil => simp
  | cons x xs ih =>
      simp only [foldConsOk,both,bindOk,pureOk]
      constructor
      · rintro ⟨_,⟨s₁,left,t₁,right,rfl⟩,rest⟩
        obtain ⟨restLeft,restRight⟩ := ih.mp rest
        exact ⟨⟨s₁,left,restLeft⟩,⟨t₁,right,restRight⟩⟩
      · rintro ⟨⟨s₁,left,restLeft⟩,⟨t₁,right,restRight⟩⟩
        exact ⟨(s₁,t₁),⟨s₁,left,t₁,right,rfl⟩,ih.mpr ⟨restLeft,restRight⟩⟩

end Coinshift.Checked
