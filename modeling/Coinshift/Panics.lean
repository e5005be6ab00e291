import Mathlib.Logic.Basic

/-! Programs on a state that may fail and may panic, and what holds when they end.
Nothing here is specific to one program. -/
namespace Coinshift.Panics

variable {ε σ α β : Type}

/- No result is a panic; a failure leaves a state. -/
abbrev Program (ε σ : Type) := ExceptT ε (StateT σ Option)

def crash : Program ε σ α := fun _ => none

def orPanic : Option α → Program ε σ α
  | some a => pure a
  | none => crash

def orFail (e : ε) : Option α → Program ε σ α
  | some a => pure a
  | none => throw e

def orThrow : Except ε α → Program ε σ α
  | .ok a => pure a
  | .error e => throw e

def call (f : σ → σ × Except ε α) : Program ε σ α := fun s => some ((f s).2,(f s).1)

/- The program does not panic from `s`, and where it succeeds its result is right. -/
def Ends (x : Program ε σ α) (s : σ) (right : α → σ → Prop) : Prop :=
  ∃ result next, x s = some (result,next) ∧ ∀ a, result = .ok a → right a next

variable {x : Program ε σ α} {f : α → Program ε σ β} {s : σ} {right : α → σ → Prop} {result : β → σ → Prop}

theorem bindDone {a : α} {t : σ} (done : x s = some (.ok a,t)) : (x >>= f) s = f a t := by
  simp only [bind,ExceptT.bind,ExceptT.mk,StateT.bind,done,Option.bind_some,ExceptT.bindCont]

theorem bindFailed {e : ε} {t : σ} (failed : x s = some (.error e,t)) : (x >>= f) s = some (.error e,t) := by
  simp only [bind,ExceptT.bind,ExceptT.mk,StateT.bind,failed,Option.bind_some,ExceptT.bindCont]
  rfl

theorem endsPure {a : α} (holds : right a s) : Ends (pure a : Program ε σ α) s right :=
  ⟨.ok a,s,rfl,fun _ same => Except.ok.inj same ▸ holds⟩

theorem endsThrow {e : ε} : Ends (throw e : Program ε σ α) s right := ⟨.error e,s,rfl,fun _ same => by cases same⟩

theorem endsAfter {a : α} {t : σ} (done : x s = some (.ok a,t)) (rest : Ends (f a) t result) : Ends (x >>= f) s result := by
  unfold Ends
  rw [bindDone done]
  exact rest

theorem endsFailed {e : ε} {t : σ} (failed : x s = some (.error e,t)) : Ends (x >>= f) s result :=
  ⟨.error e,t,bindFailed failed,fun _ same => by cases same⟩

theorem bindOrPanic {y : Option α} {a : α} (there : y = some a) (rest : Ends (f a) s result) : Ends (orPanic y >>= f) s result := by
  subst there
  exact endsAfter rfl rest

theorem bindOrFail {y : Option α} {e : ε} (rest : ∀ a, y = some a → Ends (f a) s result) : Ends (orFail e y >>= f) s result := by
  cases y with
  | none => exact endsFailed rfl
  | some a => exact endsAfter rfl (rest a rfl)

theorem bindOrThrow {y : Except ε α} (rest : ∀ a, y = .ok a → Ends (f a) s result) : Ends (orThrow y >>= f) s result := by
  cases y with
  | error e => exact endsFailed rfl
  | ok a => exact endsAfter rfl (rest a rfl)

theorem bindCall {g : σ → σ × Except ε α} (rest : ∀ a, (g s).2 = .ok a → Ends (f a) (g s).1 result) :
    Ends (call g >>= f) s result := by
  cases outcome : (g s).2 with
  | error e => exact endsFailed (congrArg (fun r => some (r,(g s).1)) outcome)
  | ok a => exact endsAfter (congrArg (fun r => some (r,(g s).1)) outcome) (rest a outcome)

theorem panicsNot (panics : x s = none) : ¬ Ends x s right := by
  rintro ⟨_,_,done,_⟩
  cases panics.symm.trans done

end Coinshift.Panics
