import Std.Data.ExtTreeMap
import Mathlib.Data.Nat.Digits.Lemmas

/-! Ordered key-value tables, as an embedded database keeps them.
A key stands for the bytes it is stored under, read as a number: tables are equal when
their lookups are, and entries are listed in the order of those numbers. -/
namespace Coinshift

class DbKey (K : Type) where
  rank : K → Nat
  rankInjective : Function.Injective rank

def keyOrder {K : Type} [DbKey K] (a b : K) : Ordering := compare (DbKey.rank a) (DbKey.rank b)

instance {K : Type} [DbKey K] : Std.TransCmp (keyOrder (K := K)) :=
  inferInstanceAs (Std.TransCmp (compareOn DbKey.rank))

instance {K : Type} [DbKey K] : Std.LawfulEqCmp (keyOrder (K := K)) where
  compare_self := by simp [keyOrder]
  eq_of_compare h := DbKey.rankInjective (Std.LawfulEqCmp.eq_of_compare h)

theorem keyOrderEq {K : Type} [DbKey K] {a b : K} : keyOrder a b = .eq ↔ b = a :=
  Std.LawfulEqCmp.compare_eq_iff_eq.trans eq_comm

structure Table (K V : Type) [DbKey K] where
  map : Std.ExtTreeMap K V keyOrder

namespace Table

variable {K V : Type} [DbKey K]

def empty : Table K V := ⟨∅⟩

instance : EmptyCollection (Table K V) := ⟨empty⟩

def tryGet (t : Table K V) (k : K) : Option V := t.map[k]?

def put (t : Table K V) (k : K) (v : V) : Table K V := ⟨t.map.insert k v⟩

def delete (t : Table K V) (k : K) : Table K V := ⟨t.map.erase k⟩

def entries (t : Table K V) : List (K × V) := t.map.toList

def last (t : Table K V) : Option (K × V) := t.entries.getLast?

@[simp] theorem tryGetEmpty {k : K} : (∅ : Table K V).tryGet k = none := by
  show (∅ : Std.ExtTreeMap K V keyOrder)[k]? = none
  simp

theorem tryGetPut {t : Table K V} {k k' : K} {v : V} [DecidableEq K] :
    (t.put k v).tryGet k' = if k' = k then some v else t.tryGet k' := by
  simp only [tryGet,put,Std.ExtTreeMap.getElem?_insert,keyOrderEq]

theorem tryGetDelete {t : Table K V} {k k' : K} [DecidableEq K] :
    (t.delete k).tryGet k' = if k' = k then none else t.tryGet k' := by
  simp only [tryGet,delete,Std.ExtTreeMap.getElem?_erase,keyOrderEq]

@[simp] theorem tryGetPutSelf {t : Table K V} {k : K} {v : V} : (t.put k v).tryGet k = some v := by
  classical simp [tryGetPut]

@[simp] theorem tryGetDeleteSelf {t : Table K V} {k : K} : (t.delete k).tryGet k = none := by
  classical simp [tryGetDelete]

theorem tryGetPutOther {t : Table K V} {k k' : K} {v : V} (other : k' ≠ k) :
    (t.put k v).tryGet k' = t.tryGet k' := by
  classical simp [tryGetPut,other]

theorem tryGetDeleteOther {t : Table K V} {k k' : K} (other : k' ≠ k) :
    (t.delete k).tryGet k' = t.tryGet k' := by
  classical simp [tryGetDelete,other]

theorem ext {t u : Table K V} (same : ∀ k, t.tryGet k = u.tryGet k) : t = u := by
  cases t
  cases u
  exact congrArg _ (Std.ExtTreeMap.ext_getElem? same)

theorem memEntries {t : Table K V} {k : K} {v : V} : (k,v) ∈ t.entries ↔ t.tryGet k = some v :=
  Std.ExtTreeMap.mem_toList_iff_getElem?_eq_some

theorem entriesDistinct {t : Table K V} : (t.entries.map (·.1)).Nodup := by
  rw [List.nodup_iff_pairwise_ne,List.pairwise_map]
  refine Std.ExtTreeMap.distinct_keys_toList.imp (fun {a b} different same => different ?_)
  exact keyOrderEq.mpr same.symm

theorem putEntries {t : Table K V} {k : K} {v : V} : (t.put k v).entries.Perm ((k,v) :: (t.delete k).entries) := by
  classical
  have fresh : k ∉ (t.delete k).entries.map (·.1) := by
    intro inside
    obtain ⟨⟨k',w⟩,mem,rfl⟩ := List.mem_map.mp inside
    cases tryGetDeleteSelf.symm.trans (memEntries.mp mem)
  have distinct : ((k,v) :: (t.delete k).entries).Nodup := by
    refine List.Nodup.of_map (·.1) ?_
    exact List.nodup_cons.mpr ⟨fresh,entriesDistinct⟩
  refine (List.perm_ext_iff_of_nodup entriesDistinct.of_map distinct).mpr ?_
  rintro ⟨k',w⟩
  rw [memEntries,tryGetPut,List.mem_cons,memEntries,tryGetDelete]
  by_cases here : k' = k
  · simp [here,eq_comm]
  · simp [here]

theorem foundEntries {t : Table K V} {k : K} {v : V} (found : t.tryGet k = some v) :
    t.entries.Perm ((k,v) :: (t.delete k).entries) := by
  classical
  have same : t.put k v = t := by
    refine ext (fun k' => ?_)
    rw [tryGetPut]
    split
    · next here => rw [here,found]
    · rfl
  have perm := putEntries (t := t) (k := k) (v := v)
  rw [same] at perm
  exact perm

theorem deleteAbsent {t : Table K V} {k : K} (absent : t.tryGet k = none) : t.delete k = t := by
  classical
  refine ext (fun k' => ?_)
  rw [tryGetDelete]
  split
  · next here => rw [here,absent]
  · rfl

theorem putDelete {t : Table K V} {k : K} {v : V} (absent : t.tryGet k = none) : (t.put k v).delete k = t := by
  classical
  refine ext (fun k' => ?_)
  rw [tryGetDelete]
  split
  · next here => rw [here,absent]
  · next other => rw [tryGetPutOther other]

def Grows (t u : Table K V) : Prop := ∀ k v, t.tryGet k = some v → u.tryGet k = some v

theorem putGrows {t : Table K V} {k : K} {v : V} (again : ∀ w, t.tryGet k = some w → w = v) : t.Grows (t.put k v) := by
  classical
  intro k' w found
  rw [tryGetPut]
  split
  · next here =>
      subst here
      rw [again w found]
  · exact found

theorem lastNone {t : Table K V} (none : t.last = none) (k : K) : t.tryGet k = Option.none := by
  rw [last,List.getLast?_eq_none_iff] at none
  refine Option.eq_none_iff_forall_ne_some.mpr (fun v found => ?_)
  have mem := memEntries.mpr found
  rw [none] at mem
  cases mem

theorem lastRanks {t : Table K V} {k k' : K} {v v' : V} (isLast : t.last = some (k,v)) (found : t.tryGet k' = some v') :
    DbKey.rank k' ≤ DbKey.rank k := by
  rw [last] at isLast
  obtain ⟨before,split⟩ := List.getLast?_eq_some_iff.mp isLast
  have mem := memEntries.mpr found
  have sorted : t.entries.Pairwise (fun a b => keyOrder a.1 b.1 = .lt) := Std.ExtTreeMap.ordered_keys_toList
  rw [split] at mem sorted
  rcases List.mem_append.mp mem with early | late
  · have less := (List.pairwise_append.mp sorted).2.2 _ early _ List.mem_cons_self
    exact Nat.le_of_lt (compare_lt_iff_lt.mp less)
  · cases List.mem_singleton.mp late
    exact Nat.le_refl _

theorem lastFound {t : Table K V} {k : K} {v : V} (isLast : t.last = some (k,v)) : t.tryGet k = some v := by
  rw [last] at isLast
  exact memEntries.mp (List.mem_of_getLast? isLast)

/- The last entry with a property, in the order of the ranks. -/
theorem findLast {t : Table K V} {k : K} {v : V} {p : V → Bool} (found : t.tryGet k = some v) (passes : p v = true)
    (above : ∀ l w, t.tryGet l = some w → DbKey.rank k < DbKey.rank l → p w = false) :
    (t.entries.reverse.map (·.2)).find? p = some v := by
  have sorted : t.entries.Pairwise (fun a b => keyOrder a.1 b.1 = .lt) := Std.ExtTreeMap.ordered_keys_toList
  obtain ⟨front,back,split⟩ := List.append_of_mem (memEntries.mpr found)
  rw [split] at sorted
  have none : (back.reverse.map (·.2)).find? p = Option.none := by
    rw [List.find?_eq_none]
    intro w mem
    obtain ⟨⟨l,w⟩,inside,rfl⟩ := List.mem_map.mp mem
    have later : (l,w) ∈ back := List.mem_reverse.mp inside
    have less := List.rel_of_pairwise_cons (List.pairwise_append.mp sorted).2.1 later
    have stored : t.tryGet l = some w :=
      memEntries.mp (split ▸ List.mem_append_right front (List.mem_cons_of_mem (k,v) later))
    rw [above l w stored (compare_lt_iff_lt.mp less)]
    exact Bool.false_ne_true
  rw [split,List.reverse_append,List.reverse_cons,List.append_assoc,List.map_append,List.find?_append,none,Option.none_or]
  exact List.find?_cons_of_pos passes

def weigh (weight : K → V → Nat) (t : Table K V) : Nat := (t.entries.map (fun entry => weight entry.1 entry.2)).sum

def weightAt (weight : K → V → Nat) (t : Table K V) (k : K) : Nat := (t.tryGet k).elim 0 (weight k)

theorem weighDelete {weight : K → V → Nat} {t : Table K V} {k : K} :
    (t.delete k).weigh weight + t.weightAt weight k = t.weigh weight := by
  unfold weightAt
  cases found : t.tryGet k with
  | none =>
      rw [deleteAbsent found]
      rfl
  | some v =>
      have perm := ((foundEntries found).map (fun entry => weight entry.1 entry.2)).sum_eq
      rw [List.map_cons,List.sum_cons] at perm
      unfold weigh
      rw [perm,Nat.add_comm]
      rfl

theorem weighPut {weight : K → V → Nat} {t : Table K V} {k : K} {v : V} :
    (t.put k v).weigh weight + t.weightAt weight k = t.weigh weight + weight k v := by
  have more : (t.put k v).weigh weight = weight k v + (t.delete k).weigh weight := by
    have perm := (putEntries (t := t) (k := k) (v := v)).map (fun entry => weight entry.1 entry.2)
    exact perm.sum_eq.trans List.sum_cons
  have less : (t.delete k).weigh weight + t.weightAt weight k = t.weigh weight := weighDelete
  omega

theorem weighElsewhere {weight : K → V → Nat} {t u : Table K V} {k : K} (same : ∀ k', k' ≠ k → u.tryGet k' = t.tryGet k') :
    u.weigh weight + t.weightAt weight k = t.weigh weight + u.weightAt weight k := by
  classical
  cases found : u.tryGet k with
  | none =>
      have isDelete : u = t.delete k := by
        refine ext (fun k' => ?_)
        rw [tryGetDelete]
        split
        · next here => rw [here,found]
        · next other => exact same k' other
      have less : (t.delete k).weigh weight + t.weightAt weight k = t.weigh weight := weighDelete
      simp only [weightAt,found,Option.elim_none]
      rw [isDelete]
      exact less
  | some v =>
      have isPut : u = t.put k v := by
        refine ext (fun k' => ?_)
        rw [tryGetPut]
        split
        · next here => rw [here,found]
        · next other => exact same k' other
      have more : (t.put k v).weigh weight + t.weightAt weight k = t.weigh weight + weight k v := weighPut
      simp only [weightAt,found,Option.elim_some] at more ⊢
      rw [isPut]
      exact more

@[simp] theorem weighEmpty {weight : K → V → Nat} : (∅ : Table K V).weigh weight = 0 := by
  have none : (∅ : Table K V).entries = [] := by
    refine List.eq_nil_iff_forall_not_mem.mpr (fun entry mem => ?_)
    cases tryGetEmpty.symm.trans (memEntries.mp mem)
  simp [weigh,none]

theorem tryGetDeletes [DecidableEq K] {t : Table K V} {ks : List K} {k : K} :
    (ks.foldl delete t).tryGet k = if k ∈ ks then none else t.tryGet k := by
  induction ks generalizing t with
  | nil => simp
  | cons first rest ih =>
      rw [List.foldl_cons,ih,tryGetDelete]
      by_cases here : k = first <;> simp [here]

end Table

/- A byte string as a number: the closing 1 keeps strings of different lengths apart. -/
def bytesRank (bytes : List UInt8) : Nat := Nat.ofDigits 256 (bytes.map UInt8.toNat ++ [1])

theorem bytesRankInjective : Function.Injective bytesRank := by
  intro xs ys same
  have digits (zs : List UInt8) : Nat.digits 256 (bytesRank zs) = zs.map UInt8.toNat ++ [1] := by
    apply Nat.digits_ofDigits 256 (by norm_num)
    · intro d mem
      rcases List.mem_append.mp mem with byte | one
      · obtain ⟨b,_,rfl⟩ := List.mem_map.mp byte
        exact b.toNat_lt
      · simp_all
    · simp
  have lists : xs.map UInt8.toNat = ys.map UInt8.toNat :=
    List.append_cancel_right ((digits xs).symm.trans ((congrArg _ same).trans (digits ys)))
  exact List.map_injective_iff.mpr (fun _ _ h => UInt8.toNat_inj.mp h) lists

instance : DbKey Nat := ⟨id,fun _ _ same => same⟩

end Coinshift
