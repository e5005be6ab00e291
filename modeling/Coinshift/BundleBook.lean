import Coinshift.BundleReports

/-! The bundle tables as the reports of the main chain see them, and the reports of a block taken back.
Taken back they leave what was there before the block, but for records that the block wrote over: those are gone. A
bundle collected at the end of the block is dropped, since no failure of the block stands between. -/
namespace Coinshift
open Checked Function

variable {F : Type} {lib : Externals F} {height : Nat} {event : BlockEvent} {m6id : M6id}

section Book

abbrev BundleRecord := Option WithdrawalBundle × List (HeightStamped WithdrawalBundleStatus)

structure BundleBook where
  seen : M6id → Option BundleRecord
  failures : List (HeightStamped M6id)
  pending : Option (WithdrawalBundle × Nat)

namespace BundleBook

def Live (history : List (HeightStamped WithdrawalBundleStatus)) : Prop :=
  ∃ height, history.getLast? = some ⟨.submitted,height⟩

def newFailures (height : Nat) (bundle : Option WithdrawalBundle) (m6id : M6id) (status : WithdrawalBundleStatus) :
    List (HeightStamped M6id) :=
  if status = .failed ∧ bundle.isSome = true then [⟨m6id,height⟩] else []

/- A submission is of the pending bundle or of an unknown one. -/
inductive Reports (height : Nat) : BlockEvent → BundleBook → BundleBook → Prop
  | idle {event book} : Reports height event book book
  | submitted {m6id bundle book pending}
      (own : bundle = none ∧ pending = book.pending ∨
        ∃ b collectedAt, bundle = some b ∧ book.pending = some (b,collectedAt) ∧ collectedAt + 1 = height ∧ pending = none) :
      Reports height (.withdrawalBundle ⟨m6id,.submitted⟩) book
        { book with seen := update book.seen m6id (some (bundle,[⟨.submitted,height⟩])), pending }
  | settled {m6id status bundle history book} (later : status ≠ .submitted) (found : book.seen m6id = some (bundle,history))
      (live : Live history) :
      Reports height (.withdrawalBundle ⟨m6id,status⟩) book
        { book with
          seen := update book.seen m6id (some (bundle,history ++ [⟨status,height⟩]))
          failures := book.failures ++ newFailures height bundle m6id status }

inductive TakesBack (height : Nat) : BlockEvent → BundleBook → BundleBook → Prop
  | deposited {d book} : TakesBack height (.deposit d) book book
  | earlier {m6id book}
      (other : ∀ bundle history, book.seen m6id = some (bundle,history) → history.getLast? ≠ some ⟨.submitted,height⟩) :
      TakesBack height (.withdrawalBundle ⟨m6id,.submitted⟩) book book
  | deleted {m6id bundle history book} (found : book.seen m6id = some (bundle,history))
      (latest : history.getLast? = some ⟨.submitted,height⟩) :
      TakesBack height (.withdrawalBundle ⟨m6id,.submitted⟩) book
        { book with seen := update book.seen m6id none, pending := (bundle.map (·,height - 1)).or book.pending }
  | again {m6id status bundle history book} (later : status ≠ .submitted) (found : book.seen m6id = some (bundle,history))
      (live : Live history) : TakesBack height (.withdrawalBundle ⟨m6id,status⟩) book book
  | popped {m6id status bundle history failures book} (later : status ≠ .submitted)
      (found : book.seen m6id = some (bundle,history ++ [⟨status,height⟩])) (live : Live history)
      (failed : book.failures = failures ++ newFailures height bundle m6id status) :
      TakesBack height (.withdrawalBundle ⟨m6id,status⟩) book
        { book with seen := update book.seen m6id (some (bundle,history)), failures }

def ReportsAll (height : Nat) : List BlockEvent → BundleBook → BundleBook → Prop
  | [], book, book' => book = book'
  | event :: events, book, book' => ∃ middle, Reports height event book middle ∧ ReportsAll height events middle book'

/- The last event is taken back first. -/
def TakesBackAll (height : Nat) : List BlockEvent → BundleBook → BundleBook → Prop
  | [], book, book' => book = book'
  | event :: events, book, book' => ∃ middle, TakesBackAll height events book middle ∧ TakesBack height event middle book'

theorem takesBackAppend {first second : List BlockEvent} {p q : BundleBook} :
    TakesBackAll height (first ++ second) p q ↔ ∃ m, TakesBackAll height second p m ∧ TakesBackAll height first m q := by
  induction first generalizing q with
  | nil => exact ⟨fun taken => ⟨q,taken,rfl⟩,fun ⟨_,taken,same⟩ => same ▸ taken⟩
  | cons event first ih =>
      constructor
      · rintro ⟨m,taken,last⟩
        obtain ⟨n,second,first⟩ := ih.mp taken
        exact ⟨n,second,m,first,last⟩
      · rintro ⟨n,second,m,first,last⟩
        exact ⟨m,ih.mpr ⟨n,second,first⟩,last⟩

variable {t p q p' q' : BundleBook}

structure Below (book : BundleBook) (n : Nat) : Prop where
  statuses : ∀ {m6id bundle history}, book.seen m6id = some (bundle,history) → ∀ x ∈ history, x.height < n
  failures : ∀ x ∈ book.failures, x.height < n
  pending : ∀ {bundle collectedAt}, book.pending = some (bundle,collectedAt) → collectedAt < n

def WrittenAt (book : BundleBook) (height : Nat) (m6id : M6id) : Prop :=
  ∃ bundle history status, book.seen m6id = some (bundle,history) ∧ history.getLast? = some ⟨status,height⟩

theorem writtenSelf {bundle : Option WithdrawalBundle} {history : List (HeightStamped WithdrawalBundleStatus)}
    {status : WithdrawalBundleStatus} (found : q.seen m6id = some (bundle,history ++ [⟨status,height⟩])) :
    q.WrittenAt height m6id := ⟨bundle,_,status,found,List.getLast?_concat ..⟩

structure Ahead (height : Nat) (t q : BundleBook) : Prop where
  seen : ∀ m6id, q.seen m6id = t.seen m6id ∨ q.WrittenAt height m6id
  failures : ∃ more, q.failures = t.failures ++ more ∧ ∀ x ∈ more, x.height = height ∧ q.WrittenAt height x.value
  pending : q.pending = none ∨ q.pending = t.pending
  submitted : ∀ {m6id bundle history}, q.seen m6id = some (some bundle,history) → ⟨.submitted,height⟩ ∈ history →
    t.pending = some (bundle,height - 1)
  stamps : ∀ {m6id bundle history}, q.seen m6id = some (bundle,history) → ∀ x ∈ history, x.height ≤ height

theorem Below.ahead (below : t.Below height) : Ahead height t t := by
  refine ⟨fun _ => .inl rfl,⟨[],(List.append_nil _).symm,fun x mem => absurd mem List.not_mem_nil⟩,.inr rfl,?_,?_⟩
  · intro m6id bundle history found mem
    exact absurd (below.statuses found _ mem) (Nat.lt_irrefl _)
  · intro m6id bundle history found x mem
    exact Nat.le_of_lt (below.statuses found x mem)

theorem Ahead.below (ahead : Ahead height t q) (below : t.Below height) : q.Below (height + 1) := by
  refine ⟨fun found x mem => Nat.lt_succ_of_le (ahead.stamps found x mem),fun x mem => ?_,fun {bundle collectedAt} found => ?_⟩
  · obtain ⟨more,isMore,stamped⟩ := ahead.failures
    rw [isMore] at mem
    rcases List.mem_append.mp mem with earlier | new
    · exact Nat.lt_succ_of_lt (below.failures x earlier)
    · exact (stamped x new).1 ▸ Nat.lt_succ_self _
  · rcases ahead.pending with none | same
    · cases none.symm.trans found
    · exact Nat.lt_succ_of_lt (below.pending (same.symm.trans found))

theorem newFailuresAre {bundle : Option WithdrawalBundle} {status : WithdrawalBundleStatus} :
    ∀ x ∈ newFailures height bundle m6id status, x = ⟨m6id,height⟩ := by
  intro x mem
  unfold newFailures at mem
  split at mem
  · exact List.mem_singleton.mp mem
  · cases mem

theorem updatedSeen {seen : M6id → Option BundleRecord} {record found : Option BundleRecord} {m : M6id}
    (isFound : update seen m6id record m = found) : (m = m6id ∧ found = record) ∨ (m ≠ m6id ∧ seen m = found) := by
  by_cases here : m = m6id
  · subst here
    exact .inl ⟨rfl,isFound.symm.trans (update_self ..)⟩
  · exact .inr ⟨here,(update_of_ne here _ _).symm.trans isFound⟩

theorem Ahead.write {bundle : Option WithdrawalBundle} {history : List (HeightStamped WithdrawalBundleStatus)}
    {status : WithdrawalBundleStatus} {new : List (HeightStamped M6id)} (ahead : Ahead height t q)
    (seen : q'.seen = update q.seen m6id (some (bundle,history ++ [⟨status,height⟩])))
    (failures : q'.failures = q.failures ++ new) (own : ∀ x ∈ new, x = ⟨m6id,height⟩)
    (pending : q'.pending = none ∨ q'.pending = q.pending) (stamps : ∀ x ∈ history, x.height ≤ height)
    (submitted : ∀ b, bundle = some b → ⟨.submitted,height⟩ ∈ history ++ [⟨status,height⟩] → t.pending = some (b,height - 1)) :
    Ahead height t q' := by
  have here : q'.WrittenAt height m6id := writtenSelf (by rw [seen,update_self])
  have written (m : M6id) : (q'.seen m = t.seen m ∨ q'.WrittenAt height m) ∧
      (q.WrittenAt height m → q'.WrittenAt height m) := by
    by_cases isOwn : m = m6id
    · subst isOwn
      exact ⟨.inr here,fun _ => here⟩
    · have same : q'.seen m = q.seen m := by rw [seen,update_of_ne isOwn]
      rw [WrittenAt,same]
      exact ⟨ahead.seen m,id⟩
  have rewritten {m : M6id} {record : BundleRecord} (found : q'.seen m = some record) :
      record = (bundle,history ++ [⟨status,height⟩]) ∨ q.seen m = some record := by
    rw [seen] at found
    rcases updatedSeen found with ⟨_,same⟩ | ⟨_,before⟩
    · exact .inl (Option.some.inj same)
    · exact .inr before
  obtain ⟨more,isMore,stamped⟩ := ahead.failures
  refine ⟨fun m => (written m).1,⟨more ++ new,?_,fun x mem => ?_⟩,?_,fun found mem => ?_,fun found x mem => ?_⟩
  · rw [failures,isMore,List.append_assoc]
  · rcases List.mem_append.mp mem with earlier | isNew
    · exact ⟨(stamped x earlier).1,(written _).2 (stamped x earlier).2⟩
    · rw [own x isNew]
      exact ⟨rfl,here⟩
  · rcases pending with none | same
    · exact .inl none
    · exact same ▸ ahead.pending
  · rcases rewritten found with same | before
    · cases same
      exact submitted _ rfl mem
    · exact ahead.submitted before mem
  · rcases rewritten found with same | before
    · cases same
      rcases List.mem_append.mp mem with before | new
      · exact stamps x before
      · cases List.mem_singleton.mp new
        exact Nat.le_refl _
    · exact ahead.stamps before x mem

theorem Ahead.step (ahead : Ahead height t q) (reports : Reports height event q q') : Ahead height t q' := by
  cases reports with
  | idle => exact ahead
  | submitted own =>
      refine ahead.write (show _ = update q.seen _ (some (_,[] ++ [_])) from rfl) (List.append_nil _).symm
        (fun x mem => absurd mem List.not_mem_nil) ?_ (fun x mem => absurd mem List.not_mem_nil) (fun b isBundle _ => ?_)
      · rcases own with ⟨_,rfl⟩ | ⟨_,_,_,_,_,rfl⟩
        · exact .inr rfl
        · exact .inl rfl
      · rcases own with ⟨none,_⟩ | ⟨_,collectedAt,same,isPending,next,_⟩
        · cases none.symm.trans isBundle
        · cases same.symm.trans isBundle
          rcases ahead.pending with none | same
          · cases none.symm.trans isPending
          · rw [← same,isPending,← next]
            rfl
  | settled later found live =>
      refine ahead.write rfl rfl newFailuresAre (.inr rfl) (fun x mem => ahead.stamps found x mem) (fun b isBundle mem => ?_)
      subst isBundle
      rcases List.mem_append.mp mem with before | new
      · exact ahead.submitted found before
      · cases List.mem_singleton.mp new
        exact absurd rfl later

/- A record while its block is taken back: gone, as it was, or without the status that settled it. -/
inductive Trails (height : Nat) (dropped : List (HeightStamped M6id)) (m6id : M6id) :
    Option BundleRecord → Option BundleRecord → Prop
  | gone {record} : Trails height dropped m6id none record
  | same {record} : Trails height dropped m6id record record
  | unsettled {bundle history status} (live : Live history) (failed : newFailures height bundle m6id status ⊆ dropped) :
      Trails height dropped m6id (some (bundle,history)) (some (bundle,history ++ [⟨status,height⟩]))

structure Behind (height : Nat) (start late : Option (WithdrawalBundle × Nat)) (dropped : List (HeightStamped M6id))
    (p q : BundleBook) : Prop where
  seen : ∀ m6id, Trails height dropped m6id (p.seen m6id) (q.seen m6id)
  failures : q.failures = p.failures ++ dropped
  stamped : ∀ x ∈ dropped, x.height = height
  pending : p.pending = none ∨ p.pending = start ∨ p.pending = late

variable {start late : Option (WithdrawalBundle × Nat)} {dropped dropped' : List (HeightStamped M6id)}
  {bundle : Option WithdrawalBundle} {history : List (HeightStamped WithdrawalBundleStatus)} {status : WithdrawalBundleStatus}

theorem notLive {n : Nat} (later : status ≠ .submitted) : ¬ Live (history ++ [⟨status,n⟩]) := by
  rintro ⟨_,isLast⟩
  rw [List.getLast?_concat] at isLast
  cases isLast
  exact later rfl

theorem Trails.mono {before after : Option BundleRecord} (trails : Trails height dropped m6id before after)
    (more : ∀ b s, newFailures height b m6id s ⊆ dropped → newFailures height b m6id s ⊆ dropped') :
    Trails height dropped' m6id before after := by
  cases trails with
  | gone => exact .gone
  | same => exact .same
  | unsettled live failed => exact .unsettled live (more _ _ failed)

theorem Trails.found {after : Option BundleRecord} (trails : Trails height dropped m6id (some (bundle,history)) after) :
    ∃ later, after = some (bundle,later) ∧ history ⊆ later := by
  cases trails with
  | same => exact ⟨history,rfl,List.Subset.refl _⟩
  | unsettled live failed => exact ⟨_,rfl,List.subset_append_left ..⟩

theorem Trails.settled {before : Option BundleRecord}
    (trails : Trails height dropped m6id before (some (bundle,history ++ [⟨status,height⟩]))) :
    before = none ∨ before = some (bundle,history ++ [⟨status,height⟩]) ∨
      before = some (bundle,history) ∧ Live history ∧ newFailures height bundle m6id status ⊆ dropped := by
  generalize isAfter : some (bundle,history ++ [⟨status,height⟩]) = after at trails
  cases trails with
  | gone => exact .inl rfl
  | same => exact .inr (.inl rfl)
  | unsettled live failed =>
      simp only [Option.some.injEq,Prod.mk.injEq] at isAfter
      obtain ⟨rfl,same⟩ := isAfter
      obtain ⟨rfl,isStatus⟩ := List.append_inj' same rfl
      cases isStatus
      exact .inr (.inr ⟨rfl,live,failed⟩)

theorem Behind.deletes (behind : Behind height start late dropped p q)
    (started : ∀ {b h}, q.seen m6id = some (some b,h) → ⟨.submitted,height⟩ ∈ h → start = some (b,height - 1))
    (found : p.seen m6id = some (bundle,history)) (latest : history.getLast? = some ⟨.submitted,height⟩) :
    (bundle.map (·,height - 1)).or p.pending = none ∨ (bundle.map (·,height - 1)).or p.pending = start ∨
      (bundle.map (·,height - 1)).or p.pending = late := by
  cases bundle with
  | none => exact behind.pending
  | some b =>
      have trails := behind.seen m6id
      rw [found] at trails
      obtain ⟨later,isFound,subset⟩ := trails.found
      exact .inr (.inl (started isFound (subset (List.mem_of_getLast? latest))).symm)

/- An event that wrote nothing may take back what another one wrote. -/
theorem Behind.idle (behind : Behind height start late dropped p q)
    (started : ∀ {m6id b h}, q.seen m6id = some (some b,h) → ⟨.submitted,height⟩ ∈ h → start = some (b,height - 1))
    (back : TakesBack height event p p') : ∃ dropped', Behind height start late dropped' p' q := by
  cases back with
  | deposited => exact ⟨dropped,behind⟩
  | earlier other => exact ⟨dropped,behind⟩
  | again later found live => exact ⟨dropped,behind⟩
  | @deleted m6id bundle history _ found latest =>
      refine ⟨dropped,fun m => ?_,behind.failures,behind.stamped,behind.deletes started found latest⟩
      show Trails height dropped m (update p.seen m6id none m) (q.seen m)
      by_cases here : m = m6id
      · rw [here,update_self]
        exact .gone
      · rw [update_of_ne here]
        exact behind.seen m
  | @popped m6id status bundle history failures _ later found live failed =>
      refine ⟨newFailures height bundle m6id status ++ dropped,fun m => ?_,?_,fun x mem => ?_,behind.pending⟩
      · show Trails height _ m (update p.seen m6id (some (bundle,history)) m) (q.seen m)
        have trails := behind.seen m
        by_cases here : m = m6id
        · subst here
          rw [found] at trails
          rw [update_self]
          generalize q.seen m = after at trails
          cases trails with
          | same => exact .unsettled live (List.subset_append_left ..)
          | unsettled again _ => exact absurd again (notLive later)
        · rw [update_of_ne here]
          exact trails.mono (fun _ _ inside => List.subset_append_of_subset_right _ inside)
      · rw [behind.failures,failed,List.append_assoc]
      · rcases List.mem_append.mp mem with new | before
        · rw [newFailuresAre x new]
        · exact behind.stamped x before

theorem Behind.submitted (behind : Behind height start late dropped p q')
    (seen : q'.seen = update q.seen m6id (some (bundle,[⟨.submitted,height⟩]))) (failures : q'.failures = q.failures)
    (started : ∀ b, bundle = some b → start = some (b,height - 1))
    (back : TakesBack height (.withdrawalBundle ⟨m6id,.submitted⟩) p p') : Behind height start late dropped p' q := by
  have written := behind.seen m6id
  rw [seen,update_self,← List.nil_append [_]] at written
  have others {m : M6id} (other : m ≠ m6id) : Trails height dropped m (p.seen m) (q.seen m) := by
    have trails := behind.seen m
    rwa [seen,update_of_ne other] at trails
  have same := failures.symm.trans behind.failures
  cases back with
  | again later _ _ => exact absurd rfl later
  | popped later _ _ _ => exact absurd rfl later
  | earlier other =>
      refine ⟨fun m => ?_,same,behind.stamped,behind.pending⟩
      by_cases here : m = m6id
      · subst here
        rcases written.settled with none | same | ⟨_,⟨_,isLast⟩,_⟩
        · rw [none]
          exact .gone
        · exact absurd rfl (other _ _ same)
        · cases isLast
      · exact others here
  | @deleted _ bundle' history _ found latest =>
      refine ⟨fun m => ?_,same,behind.stamped,behind.deletes (fun isFound _ => ?_) found latest⟩
      · show Trails height dropped m (update p.seen m6id none m) (q.seen m)
        by_cases here : m = m6id
        · rw [here,update_self]
          exact .gone
        · rw [update_of_ne here]
          exact others here
      · rw [seen,update_self] at isFound
        exact started _ (congrArg Prod.fst (Option.some.inj isFound))

theorem splitFailures {xs ys new : List (HeightStamped M6id)} (same : xs ++ new = ys ++ dropped) (inside : new ⊆ dropped)
    (short : new.length ≤ 1) : ∃ rest, dropped = rest ++ new ∧ xs = ys ++ rest := by
  rcases List.eq_nil_or_concat dropped with rfl | ⟨rest,last,rfl⟩
  · rw [List.subset_nil.mp inside,List.append_nil,List.append_nil] at same
    exact ⟨[],(List.subset_nil.mp inside).symm,same.trans (List.append_nil _).symm⟩
  · cases new with
    | nil => exact ⟨_,(List.append_nil _).symm,(List.append_nil _).symm.trans same⟩
    | cons x more =>
        cases more with
        | cons y more => exact absurd short (by simp)
        | nil =>
            rw [List.concat_eq_append,← List.append_assoc] at same
            obtain ⟨rfl,isLast⟩ := List.append_inj' same rfl
            cases isLast
            exact ⟨rest,List.concat_eq_append ..,rfl⟩

theorem newFailuresShort {b : Option WithdrawalBundle} : (newFailures height b m6id status).length ≤ 1 := by
  unfold newFailures
  split
  · exact Nat.le_refl 1
  · exact Nat.zero_le 1

theorem Behind.settled (behind : Behind height start late dropped p q') (later : status ≠ .submitted)
    (isFound : q.seen m6id = some (bundle,history))
    (seen : q'.seen = update q.seen m6id (some (bundle,history ++ [⟨status,height⟩])))
    (failures : q'.failures = q.failures ++ newFailures height bundle m6id status)
    (back : TakesBack height (.withdrawalBundle ⟨m6id,status⟩) p p') :
    ∃ dropped', Behind height start late dropped' p' q := by
  have written := behind.seen m6id
  rw [seen,update_self] at written
  have same := failures.symm.trans behind.failures
  have others {m : M6id} {all rest : List (HeightStamped M6id)} (other : m ≠ m6id) (inside : dropped ⊆ all)
      (split : all = rest ++ newFailures height bundle m6id status) : Trails height rest m (p.seen m) (q.seen m) := by
    have trails := behind.seen m
    rw [seen,update_of_ne other] at trails
    refine trails.mono (fun b s within x mem => ?_)
    have isAll := inside (within mem)
    rw [split] at isAll
    rcases List.mem_append.mp isAll with isRest | isNew
    · exact isRest
    · have one := newFailuresAre x mem
      rw [newFailuresAre x isNew] at one
      exact absurd (congrArg HeightStamped.value one).symm other
  cases back with
  | earlier _ => exact absurd rfl later
  | deleted _ _ => exact absurd rfl later
  | again _ found live =>
      rw [found] at written
      rcases written.settled with none | settled | ⟨unsettled,_,inside⟩
      · cases none
      · simp only [Option.some.injEq,Prod.mk.injEq] at settled
        exact absurd (settled.2 ▸ live) (notLive later)
      · obtain ⟨rest,split,isRest⟩ := splitFailures same inside newFailuresShort
        refine ⟨rest,fun m => ?_,isRest,fun x mem => behind.stamped x (split ▸ List.mem_append_left _ mem),behind.pending⟩
        by_cases here : m = m6id
        · subst here
          rw [found,unsettled,isFound]
          exact .same
        · exact others here (List.Subset.refl _) split
  | @popped _ _ bundle' history' remain _ _ found live failed =>
      rw [found] at written
      rcases written.settled with none | settled | ⟨unsettled,again,_⟩
      · cases none
      · simp only [Option.some.injEq,Prod.mk.injEq] at settled
        obtain ⟨rfl,same'⟩ := settled
        obtain ⟨rfl,_⟩ := List.append_inj' same' rfl
        rw [failed,List.append_assoc] at same
        obtain ⟨rest,split,isRest⟩ := splitFailures same (List.subset_append_left ..) newFailuresShort
        refine ⟨rest,fun m => ?_,isRest,fun x mem => ?_,behind.pending⟩
        · show Trails height rest m (update p.seen m6id (some (bundle',history')) m) (q.seen m)
          by_cases here : m = m6id
          · subst here
            rw [update_self,isFound]
            exact .same
          · rw [update_of_ne here]
            exact others here (List.subset_append_right ..) split
        · have inside : x ∈ newFailures height bundle' m6id status ++ dropped := split ▸ List.mem_append_left _ mem
          rcases List.mem_append.mp inside with isNew | before
          · rw [newFailuresAre x isNew]
          · exact behind.stamped x before
      · simp only [Option.some.injEq,Prod.mk.injEq] at unsettled
        exact absurd (unsettled.2 ▸ again) (notLive later)

theorem Behind.step (behind : Behind height t.pending late dropped p q') (ahead : Ahead height t q')
    (reports : Reports height event q q') (back : TakesBack height event p p') :
    ∃ dropped', Behind height t.pending late dropped' p' q := by
  cases reports with
  | idle => exact behind.idle ahead.submitted back
  | submitted own =>
      refine ⟨dropped,behind.submitted rfl rfl (fun b isBundle => ?_) back⟩
      subst isBundle
      exact ahead.submitted (update_self ..) List.mem_cons_self
  | settled later found live => exact behind.settled later found rfl rfl back

variable {events : List BlockEvent} {after posted middle : BundleBook} {n : Nat}

theorem Ahead.reports (ahead : Ahead height t q) (reports : ReportsAll height events q q') : Ahead height t q' := by
  induction events generalizing q with
  | nil => exact reports ▸ ahead
  | cons event events ih =>
      obtain ⟨middle,first,rest⟩ := reports
      exact ih (ahead.step first) rest

theorem Behind.block (behind : Behind height t.pending late dropped p q') (ahead : Ahead height t q)
    (reports : ReportsAll height events q q') (back : TakesBackAll height events p p') :
    ∃ dropped', Behind height t.pending late dropped' p' q := by
  induction events generalizing q p' with
  | nil =>
      cases reports
      cases back
      exact ⟨dropped,behind⟩
  | cons event events ih =>
      obtain ⟨middle,first,rest⟩ := reports
      obtain ⟨left,more,last⟩ := back
      obtain ⟨_,continues⟩ := ih (ahead.step first) rest more
      exact continues.step (ahead.step first) first last

theorem lowerIdle (low : ∀ {m6id bundle history}, p.seen m6id = some (bundle,history) → ∀ x ∈ history, x.height < height)
    (back : TakesBackAll height events p p') : p' = p := by
  induction events generalizing p' with
  | nil => exact back.symm
  | cons event events ih =>
      obtain ⟨middle,more,last⟩ := back
      cases ih more
      cases last with
      | deposited => rfl
      | earlier _ => rfl
      | again _ _ _ => rfl
      | deleted found latest => exact absurd (low found _ (List.mem_of_getLast? latest)) (Nat.lt_irrefl _)
      | popped _ found _ _ => exact absurd (low found _ List.mem_concat_self) (Nat.lt_irrefl _)

/- Nothing but whole records, or the pending bundle, is missing. -/
structure Keeps (p t : BundleBook) : Prop where
  seen : ∀ m6id, p.seen m6id = none ∨ p.seen m6id = t.seen m6id
  failures : p.failures = t.failures
  pending : p.pending = none ∨ p.pending = t.pending

theorem Keeps.trans (first : Keeps p q) (second : Keeps q t) : Keeps p t := by
  refine ⟨fun m => ?_,first.failures.trans second.failures,?_⟩
  · rcases first.seen m with gone | same
    · exact .inl gone
    · exact same ▸ second.seen m
  · rcases first.pending with gone | same
    · exact .inl gone
    · exact same ▸ second.pending

theorem Keeps.below (keeps : Keeps p t) (below : t.Below n) : p.Below n := by
  refine ⟨fun {m6id _ _} found => ?_,keeps.failures ▸ below.failures,fun found => ?_⟩
  · rcases keeps.seen m6id with gone | same
    · cases gone.symm.trans found
    · exact below.statuses (same.symm.trans found)
  · rcases keeps.pending with gone | same
    · cases gone.symm.trans found
    · exact below.pending (same.symm.trans found)

theorem Behind.ends (behind : Behind height start late dropped p t) (below : t.Below height) :
    (∀ m6id, p.seen m6id = none ∨ p.seen m6id = t.seen m6id) ∧ p.failures = t.failures := by
  refine ⟨fun m => ?_,?_⟩
  · have trails := behind.seen m
    generalize isSeen : t.seen m = record at trails
    generalize p.seen m = before at trails
    cases trails with
    | gone => exact .inl rfl
    | same => exact .inr rfl
    | unsettled live failed => exact absurd (below.statuses isSeen _ List.mem_concat_self) (Nat.lt_irrefl _)
  · have none : dropped = [] := by
      refine List.eq_nil_iff_forall_not_mem.mpr (fun x mem => ?_)
      have low := below.failures x (behind.failures ▸ List.mem_append_right _ mem)
      exact absurd (behind.stamped x mem ▸ low) (Nat.lt_irrefl _)
    rw [behind.failures,none,List.append_nil]

def LatestFailure (book : BundleBook) (failed : Nat) : Prop :=
  (book.failures = [] ∧ failed = 0) ∨ ∃ x bundle history, book.failures.getLast? = some x ∧
    book.seen x.value = some (bundle,history) ∧ history.getLast? = some ⟨.failed,failed⟩

def PastGap (book : BundleBook) (height : Nat) : Prop :=
  ∃ failed, book.LatestFailure failed ∧ withdrawalBundleFailureGap ≤ height - failed

/- A block after which a bundle is collected has no failure, so the gap is there as well when it is taken back. -/
theorem Ahead.gap (ahead : Ahead height t q) (gap : q.PastGap height)
    (seen : ∀ m6id, p.seen m6id = none ∨ p.seen m6id = t.seen m6id) (failures : p.failures = t.failures) {failed : Nat}
    (latest : p.LatestFailure failed) : withdrawalBundleFailureGap ≤ height - failed := by
  obtain ⟨failed',isFailed,wide⟩ := gap
  obtain ⟨more,isMore,stamped⟩ := ahead.failures
  have early (m : M6id) (bundle : Option WithdrawalBundle) (history : List (HeightStamped WithdrawalBundleStatus))
      (found : q.seen m = some (bundle,history)) (isLast : history.getLast? = some ⟨.failed,failed'⟩) :
      ¬ q.WrittenAt height m := by
    rintro ⟨_,_,_,isFound,isWritten⟩
    cases found.symm.trans isFound
    cases isLast.symm.trans isWritten
    rw [Nat.sub_self] at wide
    exact absurd wide (by decide)
  have none : more = [] := by
    rcases List.eq_nil_or_concat more with none | ⟨front,last,rfl⟩
    · exact none
    · simp only [List.concat_eq_append] at stamped isMore
      rw [← List.append_assoc] at isMore
      rcases isFailed with ⟨isNil,_⟩ | ⟨x,bundle,history,isTop,found,isLast⟩
      · rw [isNil] at isMore
        exact absurd isMore.symm (List.concat_ne_nil _ _)
      · rw [isMore,List.getLast?_concat] at isTop
        cases isTop
        exact absurd (stamped last List.mem_concat_self).2 (early _ _ _ found isLast)
  rw [none,List.append_nil,← failures] at isMore
  rcases isFailed with ⟨isNil,rfl⟩ | ⟨x,bundle,history,isTop,found,isLast⟩
  · rcases latest with ⟨_,rfl⟩ | ⟨y,_,_,isTop,_,_⟩
    · exact wide
    · rw [← isMore,isNil] at isTop
      cases isTop
  · rw [isMore] at isTop
    rcases latest with ⟨isNil,_⟩ | ⟨y,_,_,isTop',found',isLast'⟩
    · rw [isNil] at isTop
      cases isTop
    · cases isTop.symm.trans isTop'
      rcases seen x.value with gone | same
      · cases gone.symm.trans found'
      · rcases ahead.seen x.value with kept | written
        · cases (same.trans (kept.symm.trans found)).symm.trans found'
          cases isLast.symm.trans isLast'
          exact wide
        · exact absurd written (early _ _ _ found isLast)

structure Posted (height : Nat) (after posted : BundleBook) : Prop where
  seen : posted.seen = after.seen
  failures : posted.failures = after.failures
  pending : posted.pending = after.pending ∨ after.PastGap height ∧ ∃ bundle, posted.pending = some (bundle,height)

structure Dropped (height : Nat) (before after : BundleBook) : Prop where
  seen : after.seen = before.seen
  failures : after.failures = before.failures
  pending : ∃ failed, before.LatestFailure failed ∧ after.pending =
    if withdrawalBundleFailureGap ≤ height - failed then before.pending.filter (fun pending => pending.2 ≠ height)
    else before.pending

theorem Posted.below (isPosted : Posted height after posted) (below : after.Below (height + 1)) :
    posted.Below (height + 1) := by
  refine ⟨fun found => below.statuses (isPosted.seen ▸ found),isPosted.failures ▸ below.failures,fun found => ?_⟩
  rcases isPosted.pending with same | ⟨_,bundle,isBundle⟩
  · exact below.pending (same.symm.trans found)
  · cases isBundle.symm.trans found
    exact Nat.lt_succ_self _

theorem takenBack {earlier : List BlockEvent} (below : t.Below height) (reports : ReportsAll height events t after)
    (isPosted : Posted height after posted) (keeps : Keeps p posted) (back : TakesBackAll height (earlier ++ events) p middle)
    (drops : Dropped height middle p') : Keeps p' t := by
  have ahead := below.ahead.reports reports
  have starts : Behind height t.pending posted.pending [] p after := by
    refine ⟨fun m => ?_,?_,fun x mem => absurd mem List.not_mem_nil,keeps.pending.imp_right .inr⟩
    · rcases keeps.seen m with gone | same
      · rw [gone]
        exact .gone
      · rw [same,isPosted.seen]
        exact .same
    · rw [List.append_nil,keeps.failures,isPosted.failures]
  obtain ⟨left,first,rest⟩ := takesBackAppend.mp back
  obtain ⟨_,behind⟩ := starts.block below.ahead reports first
  obtain ⟨seen,failures⟩ := behind.ends below
  have idle : middle = left := by
    refine lowerIdle (fun {m _ _} found => ?_) rest
    rcases seen m with gone | same
    · cases gone.symm.trans found
    · exact below.statuses (same.symm.trans found)
  subst idle
  refine ⟨drops.seen ▸ seen,drops.failures.trans failures,?_⟩
  obtain ⟨failed,latest,isPending⟩ := drops.pending
  have kept : p'.pending = none ∨ p'.pending = middle.pending := by
    rw [isPending]
    split
    · cases middle.pending with
      | none => exact .inl rfl
      | some pending =>
          rw [Option.filter_some]
          split
          · exact .inr rfl
          · exact .inl rfl
    · exact .inr rfl
  rcases kept with gone | same
  · exact .inl gone
  · rw [same]
    rcases behind.pending with gone | same | late
    · exact .inl gone
    · exact .inr same
    · rcases isPosted.pending with still | ⟨gap,bundle,isBundle⟩
      · rw [late,still]
        exact ahead.pending
      · rw [if_pos (ahead.gap gap seen failures latest),late,isBundle,Option.filter_some,if_neg (by simp)] at isPending
        exact .inl (same.symm.trans isPending)

end BundleBook

end Book

section Tables

variable {t t' : PegTables} {utxos : Table OutPoint Output} {ops : List PegOp} {info : WithdrawalBundleInfo}
  {history previous : RollBack WithdrawalBundleStatus} {status : WithdrawalBundleStatus} {p p' : PegProgress}
  {seen : M6id → Option BundleRecord} {failures : List (HeightStamped M6id)} {pending : Option (WithdrawalBundle × Nat)}

def WithdrawalBundleInfo.bundle : WithdrawalBundleInfo → Option WithdrawalBundle
  | .known bundle => some bundle
  | _ => none

def PegTables.book (t : PegTables) : BundleBook where
  seen m6id := (t.withdrawalBundles.tryGet m6id).map (fun record => (record.1.bundle,record.2.toList))
  failures := t.failures
  pending := t.pendingWithdrawalBundle

theorem bookIs (isSeen : t.book.seen = seen) (isFailures : t.failures = failures)
    (isPending : t.pendingWithdrawalBundle = pending) : t.book = ⟨seen,failures,pending⟩ := by
  subst isSeen isFailures isPending
  rfl

theorem bookSeen (bundles : t'.withdrawalBundles = t.withdrawalBundles) : t'.book.seen = t.book.seen := by
  simp only [PegTables.book,bundles]

theorem bookFound (found : t.withdrawalBundles.tryGet m6id = some (info,history)) :
    t.book.seen m6id = some (info.bundle,history.toList) := congrArg (Option.map _) found

theorem bookPut (bundles : t'.withdrawalBundles = t.withdrawalBundles.put m6id (info,history)) :
    t'.book.seen = update t.book.seen m6id (some (info.bundle,history.toList)) := by
  funext m
  show (t'.withdrawalBundles.tryGet m).map _ = _
  rw [bundles,Table.tryGetPut,update_apply]
  split
  · rfl
  · rfl

theorem bookDelete (bundles : t'.withdrawalBundles = t.withdrawalBundles.delete m6id) :
    t'.book.seen = update t.book.seen m6id none := by
  funext m
  show (t'.withdrawalBundles.tryGet m).map _ = _
  rw [bundles,Table.tryGetDelete,update_apply]
  split
  · rfl
  · rfl

theorem latestLast {T : Type} {r : RollBack T} : r.toList.getLast? = some r.latest := by
  obtain ⟨before,x,ends⟩ := r.listSplit
  rw [ends,List.getLast?_concat,RollBack.latestOf ends]

theorem liveHistory (live : history.latest.value = .submitted) : BundleBook.Live history.toList :=
  ⟨history.latest.height,by rw [latestLast,← live]⟩

theorem bundleUnknown (unknown : ∀ bundle, info ≠ .known bundle) : info.bundle = none := by
  cases info with
  | known bundle => exact absurd rfl (unknown bundle)
  | unknown => rfl
  | unknownConfirmed spendUtxos => rfl

theorem reportsSubmitted (bundles : t'.withdrawalBundles = t.withdrawalBundles.put m6id (info,RollBack.new .submitted height))
    (failures : t'.failures = t.failures)
    (own : info.bundle = none ∧ t'.pendingWithdrawalBundle = t.pendingWithdrawalBundle ∨ ∃ b collectedAt,
      info.bundle = some b ∧ t.pendingWithdrawalBundle = some (b,collectedAt) ∧ collectedAt + 1 = height ∧
        t'.pendingWithdrawalBundle = none) :
    BundleBook.Reports height (.withdrawalBundle ⟨m6id,.submitted⟩) t.book t'.book := by
  rw [bookIs (bookPut bundles) failures rfl]
  exact .submitted own

theorem reportsSettled {info' : WithdrawalBundleInfo} {pushed : RollBack WithdrawalBundleStatus} (later : status ≠ .submitted)
    (found : t.withdrawalBundles.tryGet m6id = some (info,history)) (live : history.latest.value = .submitted)
    (push : history.push status height = some pushed)
    (bundles : t'.withdrawalBundles = t.withdrawalBundles.put m6id (info',pushed)) (same : info'.bundle = info.bundle)
    (failures : t'.failures = t.failures ++ BundleBook.newFailures height info.bundle m6id status)
    (pending : t'.pendingWithdrawalBundle = t.pendingWithdrawalBundle) :
    BundleBook.Reports height (.withdrawalBundle ⟨m6id,status⟩) t.book t'.book := by
  rw [bookIs (bookPut bundles) failures pending,same,RollBack.pushList push]
  exact .settled later (bookFound found) (liveHistory live)

theorem noFailure (none : status ≠ .failed ∨ info.bundle = none) :
    BundleBook.newFailures height info.bundle m6id status = [] := by
  refine if_neg (fun failed => ?_)
  rcases none with other | unknown
  · exact other failed.1
  · rw [unknown] at failed
    cases failed.2

theorem eventReports (happened : EventCase lib height utxos t event ops t') :
    BundleBook.Reports height event t.book t'.book := by
  have kept {m6id : M6id} {info : WithdrawalBundleInfo} {status : WithdrawalBundleStatus}
      (none : status ≠ .failed ∨ info.bundle = none) :
      t.failures = t.failures ++ BundleBook.newFailures height info.bundle m6id status := by
    rw [noFailure none,List.append_nil]
  cases happened with
  | deposited d => exact .idle
  | submittedAgain other recorded first => exact .idle
  | confirmedAgain recorded already => exact .idle
  | failedAgain recorded already => exact .idle
  | submitted pending own next => exact reportsSubmitted rfl rfl (.inr ⟨_,_,rfl,pending,next,rfl⟩)
  | submittedUnknown other missing => exact reportsSubmitted rfl rfl (.inl ⟨rfl,rfl⟩)
  | confirmed recorded live push =>
      exact reportsSettled WithdrawalBundleStatus.noConfusion recorded live push rfl rfl
        (kept (.inl WithdrawalBundleStatus.noConfusion)) rfl
  | confirmedUnknown recorded unknown genesis live push =>
      exact reportsSettled WithdrawalBundleStatus.noConfusion recorded live push rfl (bundleUnknown unknown).symm
        (kept (.inl WithdrawalBundleStatus.noConfusion)) rfl
  | failed recorded live push failures =>
      exact reportsSettled WithdrawalBundleStatus.noConfusion recorded live push rfl rfl (pushedFailures failures) rfl
  | failedUnknown recorded unknown live push =>
      exact reportsSettled WithdrawalBundleStatus.noConfusion recorded live push rfl rfl
        (kept (.inr (bundleUnknown unknown))) rfl

theorem popStatusTold (ok : popStatus height history status = .ok previous) :
    history.toList = previous.toList ++ [⟨status,height⟩] ∧ previous.latest.value = .submitted := by
  obtain ⟨isPrevious,popped⟩ := popStatusSource ok
  simp only [popStatus,bindOk,ensureOk,okOrOk,pureOk] at ok
  obtain ⟨_,_,_,_,_,_,_,live,rfl⟩ := ok
  obtain ⟨before,x,ends⟩ := history.listSplit
  obtain ⟨isLast,rest⟩ := RollBack.popOf ends
  rw [isPrevious] at rest
  refine ⟨?_,live⟩
  rw [ends,← isLast,popped,← rest]
  rfl

theorem popFailedTold {latest latest' : Option (RollBack M6id)} (ok : popLatestFailed height latest m6id = .ok latest') :
    (latest.map RollBack.toList).getD [] = (latest'.map RollBack.toList).getD [] ++ [⟨m6id,height⟩] := by
  simp only [popLatestFailed,bindOk,ensureOk,okOrOk,pureOk] at ok
  obtain ⟨failures,rfl,_,value,_,isHeight,rfl⟩ := ok
  obtain ⟨before,x,ends⟩ := failures.listSplit
  obtain ⟨isLast,rest⟩ := RollBack.popOf ends
  have top : x = ⟨m6id,height⟩ := by rw [← isLast,← value,← isHeight]
  rw [rest,← top]
  exact ends

theorem backSettled {info' : WithdrawalBundleInfo} (later : status ≠ .submitted)
    (found : t.withdrawalBundles.tryGet m6id = some (info,history)) (popped : popStatus height history status = .ok previous)
    (bundles : t'.withdrawalBundles = t.withdrawalBundles.put m6id (info',previous)) (same : info'.bundle = info.bundle)
    (failures : t.failures = t'.failures ++ BundleBook.newFailures height info.bundle m6id status)
    (pending : t'.pendingWithdrawalBundle = t.pendingWithdrawalBundle) :
    BundleBook.TakesBack height (.withdrawalBundle ⟨m6id,status⟩) t.book t'.book := by
  obtain ⟨list,live⟩ := popStatusTold popped
  have isFound := bookFound found
  rw [list] at isFound
  rw [bookIs (bookPut bundles) rfl pending,same]
  exact .popped later isFound (liveHistory live) failures

theorem poppedLive (live : history.pop.2.value = .submitted) : BundleBook.Live history.toList := by
  obtain ⟨before,x,ends⟩ := history.listSplit
  refine liveHistory ?_
  rw [RollBack.latestOf ends,← (RollBack.popOf ends).1]
  exact live

theorem backDeleted (found : t.withdrawalBundles.tryGet m6id = some (info,history))
    (latest : history.latest = ⟨.submitted,height⟩) (bundles : t'.withdrawalBundles = t.withdrawalBundles.delete m6id) (failures : t'.failures = t.failures)
    (pending : t'.pendingWithdrawalBundle = (info.bundle.map (·,height - 1)).or t.pendingWithdrawalBundle) :
    BundleBook.TakesBack height (.withdrawalBundle ⟨m6id,.submitted⟩) t.book t'.book := by
  rw [bookIs (bookDelete bundles) failures pending]
  exact .deleted (bookFound found) (latest ▸ latestLast)

theorem submittedBack (ok : disconnectWithdrawalBundleSubmitted lib height p m6id = .ok p') :
    BundleBook.TakesBack height (.withdrawalBundle ⟨m6id,.submitted⟩) p.book p'.book := by
  unfold disconnectWithdrawalBundleSubmitted at ok
  split at ok
  · next missing =>
      simp only [bindOk,ensureOk,pureOk] at ok
      obtain ⟨_,_,rfl⟩ := ok
      refine .earlier (fun bundle history found => ?_)
      rw [show p.book.seen m6id = none from congrArg (Option.map _) missing] at found
      cases found
  · next info history found =>
      simp only [bindOk,ensureOk] at ok
      obtain ⟨_,_,ok⟩ := ok
      split at ok
      · next written =>
          have latest : history.latest = ⟨.submitted,height⟩ := by rw [← written.1,← written.2]
          cases info with
          | known bundle =>
              simp only [bindOk,pureOk] at ok
              obtain ⟨q,outputs,_,rfl,rfl⟩ := ok
              have same := restoreKeeps outputs
              have bundles : q.withdrawalBundles = p.withdrawalBundles := congrArg PegTables.withdrawalBundles same
              have failures : q.failures = p.failures := congrArg PegTables.failures same
              exact backDeleted found latest (congrArg (Table.delete · m6id) bundles) failures (by rw [latest]; rfl)
          | unknown =>
              cases ok
              exact backDeleted found latest rfl rfl rfl
          | unknownConfirmed spendUtxos =>
              cases ok
              exact backDeleted found latest rfl rfl rfl
      · next other =>
          cases ok
          refine .earlier (fun bundle list isFound isLast => other ?_)
          cases (bookFound found).symm.trans isFound
          rw [Option.some.inj (latestLast.symm.trans isLast)]
          exact ⟨rfl,rfl⟩

theorem confirmedBack (ok : disconnectWithdrawalBundleConfirmed lib height p m6id = .ok p') :
    BundleBook.TakesBack height (.withdrawalBundle ⟨m6id,.confirmed⟩) p.book p'.book := by
  simp only [disconnectWithdrawalBundleConfirmed,bindOk,okOrOk] at ok
  obtain ⟨⟨info,history⟩,found,ok⟩ := ok
  split at ok
  · next live =>
      cases ok
      exact .again WithdrawalBundleStatus.noConfusion (bookFound found) (poppedLive live)
  · simp only [bindOk] at ok
    obtain ⟨previous,popped,ok⟩ := ok
    have none {bundle : Option WithdrawalBundle} : BundleBook.newFailures height bundle m6id .confirmed = [] :=
      if_neg (fun failed => WithdrawalBundleStatus.noConfusion failed.1)
    cases info with
    | unknownConfirmed spendUtxos =>
        simp only [bindOk,pureOk] at ok
        obtain ⟨q,outputs,_,rfl,rfl⟩ := ok
        have same := restoreKeeps outputs
        have bundles : q.withdrawalBundles = p.withdrawalBundles := congrArg PegTables.withdrawalBundles same
        have failures : q.failures = p.failures := congrArg PegTables.failures same
        have pending : q.pendingWithdrawalBundle = p.pendingWithdrawalBundle := congrArg PegTables.pendingWithdrawalBundle same
        refine backSettled WithdrawalBundleStatus.noConfusion found popped (congrArg (Table.put · m6id _) bundles) rfl ?_ pending
        rw [none,List.append_nil]
        exact failures.symm
    | known bundle =>
        cases ok
        exact backSettled WithdrawalBundleStatus.noConfusion found popped rfl rfl (by rw [none,List.append_nil]; rfl) rfl
    | unknown =>
        cases ok
        exact backSettled WithdrawalBundleStatus.noConfusion found popped rfl rfl (by rw [none,List.append_nil]; rfl) rfl

theorem failedBack (ok : disconnectWithdrawalBundleFailed lib height p m6id = .ok p') :
    BundleBook.TakesBack height (.withdrawalBundle ⟨m6id,.failed⟩) p.book p'.book := by
  simp only [disconnectWithdrawalBundleFailed,bindOk,okOrOk] at ok
  obtain ⟨⟨info,history⟩,found,ok⟩ := ok
  split at ok
  · next live =>
      cases ok
      exact .again WithdrawalBundleStatus.noConfusion (bookFound found) (poppedLive live)
  · simp only [bindOk] at ok
    obtain ⟨previous,popped,ok⟩ := ok
    cases info with
    | known bundle =>
        simp only [bindOk,pureOk] at ok
        obtain ⟨q,outputs,latest,isLatest,_,rfl,rfl⟩ := ok
        have same := refailKeeps outputs
        have bundles : q.withdrawalBundles = p.withdrawalBundles := congrArg PegTables.withdrawalBundles same
        have failures : q.failures = p.failures := congrArg PegTables.failures same
        have pending : q.pendingWithdrawalBundle = p.pendingWithdrawalBundle := congrArg PegTables.pendingWithdrawalBundle same
        exact backSettled WithdrawalBundleStatus.noConfusion found popped (congrArg (Table.put · m6id _) bundles) rfl
          (failures.symm.trans (popFailedTold isLatest)) pending
    | unknown =>
        cases ok
        exact backSettled WithdrawalBundleStatus.noConfusion found popped rfl rfl
          (by rw [noFailure (.inr rfl),List.append_nil]; rfl) rfl
    | unknownConfirmed spendUtxos =>
        cases ok
        exact backSettled WithdrawalBundleStatus.noConfusion found popped rfl rfl
          (by rw [noFailure (.inr rfl),List.append_nil]; rfl) rfl

theorem eventTakenBack {event : Hash × BlockEvent} (ok : disconnectEvent lib height p event = .ok p') :
    BundleBook.TakesBack height event.2 p.book p'.book := by
  obtain ⟨blockHash,event⟩ := event
  cases event with
  | deposit d =>
      simp only [disconnectEvent,bindOk,ensureOk,pureOk] at ok
      obtain ⟨_,_,rfl⟩ := ok
      exact .deposited
  | withdrawalBundle report =>
      obtain ⟨m6id,status⟩ := report
      simp only [disconnectEvent,bindOk,pureOk] at ok
      obtain ⟨middle,reported,rfl⟩ := ok
      have back : BundleBook.TakesBack height (.withdrawalBundle ⟨m6id,status⟩) p.book middle.book := by
        cases status with
        | submitted => exact submittedBack reported
        | confirmed => exact confirmedBack reported
        | failed => exact failedBack reported
      exact back

theorem reportsEach {events : List (Hash × BlockEvent)} (ok : events.foldlM (connectEvent lib height) p = .ok p') :
    BundleBook.ReportsAll height (events.map (·.2)) p.book p'.book := by
  induction events generalizing p with
  | nil => exact congrArg (fun q : PegProgress => q.book) (foldNilOk.mp ok)
  | cons event events ih =>
      obtain ⟨middle,first,rest⟩ := foldConsOk.mp ok
      obtain ⟨ops,effect⟩ := eventEffect first
      exact ⟨middle.book,eventReports effect.cases,ih rest⟩

theorem takesBackEach {events : List (Hash × BlockEvent)} (ok : events.reverse.foldlM (disconnectEvent lib height) p = .ok p') :
    BundleBook.TakesBackAll height (events.map (·.2)) p.book p'.book := by
  induction events generalizing p' with
  | nil => exact congrArg (fun q : PegProgress => q.book) (foldNilOk.mp ok)
  | cons event events ih =>
      rw [List.reverse_cons] at ok
      obtain ⟨middle,rest,last⟩ := foldAppendOk.mp ok
      obtain ⟨_,taken,same⟩ := foldConsOk.mp last
      cases foldNilOk.mp same
      exact ⟨middle.book,ih rest,eventTakenBack taken⟩

theorem latestFailure {failed : Option (Nat × M6id)} (ok : t.getLatestFailedWithdrawalBundle = .ok failed) :
    t.book.LatestFailure ((failed.map (·.1)).getD 0) := by
  unfold PegTables.getLatestFailedWithdrawalBundle at ok
  split at ok
  · next none =>
      cases ok
      refine .inl ⟨?_,rfl⟩
      show (t.latestFailedWithdrawalBundle.map RollBack.toList).getD [] = []
      rw [none]
      rfl
  · next latest isLatest =>
      simp only [bindOk,okOrOk,ensureOk,pureOk] at ok
      obtain ⟨⟨info,history⟩,found,_,isFailed,rfl⟩ := ok
      refine .inr ⟨latest.latest,info.bundle,history.toList,?_,bookFound found,?_⟩
      · show ((t.latestFailedWithdrawalBundle.map RollBack.toList).getD []).getLast? = _
        rw [isLatest]
        exact latestLast
      · rw [latestLast,← isFailed]
        rfl

variable {s s' : State F} {data : TwoWayPegData}

theorem PegConnectSource.book (source : PegConnectSource lib s data s' height p) :
    BundleBook.ReportsAll height (data.events.map (·.2)) s.book p.book ∧ BundleBook.Posted height p.book s'.book := by
  refine ⟨reportsEach source.events,?_,?_,?_⟩
  · exact bookSeen source.bundles
  · exact congrArg (fun failures : Option (RollBack M6id) => (failures.map RollBack.toList).getD []) source.failures
  · have collected := source.pending
    simp only [collectPending,bindOk] at collected
    obtain ⟨failed,isFailed,_,_,collected⟩ := collected
    split at collected
    · next due =>
        simp only [bindOk,pureOk] at collected
        obtain ⟨bundle,_,isPending⟩ := collected
        cases bundle with
        | none => exact .inl (isPending.symm.trans (Option.isNone_iff_eq_none.mp due.2).symm)
        | some bundle => exact .inr ⟨⟨_,latestFailure isFailed,due.1⟩,bundle,isPending.symm⟩
    · rw [pureOk] at collected
      exact .inl collected.symm

theorem PegDisconnectSource.book (source : PegDisconnectSource lib s data s' height p) :
    BundleBook.TakesBackAll height (data.events.map (·.2)) s.book p.book ∧ BundleBook.Dropped height p.book s'.book := by
  refine ⟨takesBackEach source.events,?_,?_,?_⟩
  · exact bookSeen source.bundles
  · exact congrArg (fun failures : Option (RollBack M6id) => (failures.map RollBack.toList).getD []) source.failures
  · have dropped := source.pending
    simp only [dropPending,bindOk] at dropped
    obtain ⟨failed,isFailed,_,_,dropped⟩ := dropped
    refine ⟨_,latestFailure isFailed,?_⟩
    split at dropped
    · next wide =>
        rw [pureOk] at dropped
        rw [if_pos wide]
        exact dropped.symm
    · next narrow =>
        rw [pureOk] at dropped
        rw [if_neg narrow]
        exact dropped.symm

end Tables

end Coinshift
