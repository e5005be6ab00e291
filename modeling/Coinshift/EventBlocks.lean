import Coinshift.NetTask
import Coinshift.PegMarks

/-! The tables of event blocks, with an entry for each connected block that brought an event of a kind.
The entries are numbered in turn, but the database lists the numbers by their little-endian bytes: entry 255 stays the
last one, and whatever comes after it gets the number 256. -/
namespace Coinshift

section Sequence

variable {xs : List (Hash × Nat)} {x v : Hash × Nat} {t : Table UInt32 (Hash × Nat)} {k : UInt32}

def seqAt (xs : List (Hash × Nat)) (k : UInt32) : Option (Hash × Nat) :=
  if k.toNat < 256 then xs[k.toNat]?
  else if k.toNat = 256 ∧ 256 < xs.length then xs.getLast? else none

def Sequenced (xs : List (Hash × Nat)) (t : Table UInt32 (Hash × Nat)) : Prop := ∀ k, t.tryGet k = seqAt xs k

theorem Sequenced.empty : Sequenced [] ∅ := by
  intro k
  rw [Table.tryGetEmpty,seqAt]
  split
  · rfl
  · exact (if_neg (fun more => Nat.not_lt_zero _ more.2)).symm

theorem seqAtSome (found : seqAt xs k = some v) : k.toNat < 256 ∧ xs[k.toNat]? = some v ∨
    k.toNat = 256 ∧ 256 < xs.length ∧ xs[xs.length - 1]? = some v := by
  unfold seqAt at found
  split at found
  · next small => exact .inl ⟨small,found⟩
  · split at found
    · next more => exact .inr ⟨more.1,more.2,List.getLast?_eq_getElem? ▸ found⟩
    · cases found

theorem seqAtMem (found : seqAt xs k = some v) : v ∈ xs := by
  rcases seqAtSome found with ⟨_,here⟩ | ⟨_,_,here⟩
  · exact List.mem_of_getElem? here
  · exact List.mem_of_getElem? here

theorem numberIs {i : Nat} (small : i < 256) : (UInt32.ofNat i).toNat = i :=
  UInt32.toNat_ofNat_of_lt' (Nat.lt_trans small (by decide))

theorem smallRank (small : k.toNat < 256) : DbKey.rank k = k.toNat * 16777216 := by
  show swapBytes k = _
  unfold swapBytes
  dsimp only
  omega

theorem largeRank (large : k.toNat = 256) : DbKey.rank k = 65536 := by
  show swapBytes k = _
  unfold swapBytes
  dsimp only
  omega

theorem Sequenced.entry (sequenced : Sequenced xs t) {i : Nat} (small : i < 256) : t.tryGet (UInt32.ofNat i) = xs[i]? := by
  rw [sequenced,seqAt,numberIs small,if_pos small]

theorem Sequenced.last (sequenced : Sequenced xs t) (isLast : t.last = some (k,v)) : k.toNat + 1 = min xs.length 256 := by
  have found := Table.lastFound isLast
  have highest {i : Nat} (small : i < 256) (inside : i < xs.length) : i * 16777216 ≤ DbKey.rank k := by
    have there := sequenced.entry small
    rw [List.getElem?_eq_getElem inside] at there
    have ranks := Table.lastRanks isLast there
    rwa [smallRank (by rwa [numberIs small]),numberIs small] at ranks
  rw [sequenced] at found
  rcases seqAtSome found with ⟨small,here⟩ | ⟨large,more,_⟩
  · have inside := (List.getElem?_eq_some_iff.mp here).1
    by_contra other
    have ranks := @highest (k.toNat + 1) (by omega) (by omega)
    rw [smallRank small] at ranks
    omega
  · have ranks := @highest 1 (by omega) (by omega)
    rw [largeRank large] at ranks
    omega

theorem Sequenced.next (sequenced : Sequenced xs t) : (nextSeqIdx t).toNat = min xs.length 256 := by
  unfold nextSeqIdx
  cases isLast : t.last with
  | none =>
      have first := sequenced.entry (show 0 < 256 by omega)
      rw [Table.lastNone isLast] at first
      cases List.length_eq_zero_iff.mp (Nat.le_zero.mp (List.getElem?_eq_none_iff.mp first.symm))
      rfl
  | some entry =>
      obtain ⟨k,v⟩ := entry
      have isNumber := sequenced.last isLast
      show (k + 1).toNat = _
      rw [UInt32.toNat_add,← isNumber]
      exact Nat.mod_eq_of_lt (by show k.toNat + 1 < 2 ^ 32; omega)

theorem Sequenced.push (sequenced : Sequenced xs t) : Sequenced (xs ++ [x]) (t.put (nextSeqIdx t) x) := by
  intro k
  have next := sequenced.next
  rw [Table.tryGetPut]
  split
  · next here =>
      subst here
      unfold seqAt
      split
      · next small =>
          have isLength : (nextSeqIdx t).toNat = xs.length := by omega
          rw [isLength,List.getElem?_concat_length]
      · next large =>
          rw [List.length_append,List.length_singleton,if_pos (by omega),List.getLast?_concat]
  · next other =>
      have apart : k.toNat ≠ (nextSeqIdx t).toNat := fun same => other (UInt32.toNat_inj.mp same)
      have longer : (xs ++ [x]).length = xs.length + 1 := List.length_append
      rw [sequenced]
      unfold seqAt
      split
      · by_cases inside : k.toNat < xs.length
        · rw [List.getElem?_append_left inside]
        · rw [List.getElem?_eq_none (by omega),List.getElem?_eq_none (by omega)]
      · rw [if_neg (by omega),if_neg (by omega)]

theorem Sequenced.pop (sequenced : Sequenced (xs ++ [x]) t) (few : xs.length < 256) (isLast : t.last = some (k,v)) :
    Sequenced xs (t.delete k) := by
  have isNumber := sequenced.last isLast
  rw [List.length_append,List.length_singleton] at isNumber
  intro l
  rw [Table.tryGetDelete]
  split
  · next here =>
      subst here
      unfold seqAt
      rw [if_pos (by omega),List.getElem?_eq_none (by omega)]
  · next other =>
      have apart : l.toNat ≠ k.toNat := fun same => other (UInt32.toNat_inj.mp same)
      have longer : (xs ++ [x]).length = xs.length + 1 := List.length_append
      rw [sequenced]
      unfold seqAt
      split
      · by_cases inside : l.toNat < xs.length
        · rw [List.getElem?_append_left inside]
        · rw [List.getElem?_eq_none (by omega),List.getElem?_eq_none (by omega)]
      · rw [if_neg (by omega),if_neg (by omega)]

theorem Sequenced.find {p : Hash × Nat → Bool} (sequenced : Sequenced xs t)
    (falls : xs.Pairwise (fun a b => p b = true → p a = true)) :
    (t.entries.reverse.map (·.2)).find? p = ((xs.take 256).filter p).getLast? := by
  have fails {i j : Nat} {a b : Hash × Nat} (order : i ≤ j) (isA : xs[i]? = some a) (isB : xs[j]? = some b)
      (none : p a = false) : p b = false := by
    obtain ⟨insideA,rfl⟩ := List.getElem?_eq_some_iff.mp isA
    obtain ⟨insideB,rfl⟩ := List.getElem?_eq_some_iff.mp isB
    rcases Nat.eq_or_lt_of_le order with rfl | less
    · exact none
    · refine Bool.eq_false_iff.mpr (fun passes => ?_)
      cases none.symm.trans (List.pairwise_iff_getElem.mp falls i j insideA insideB less passes)
  cases isLast : ((xs.take 256).filter p).getLast? with
  | none =>
      rw [List.getLast?_eq_none_iff,List.filter_eq_nil_iff] at isLast
      have low {i : Nat} {a : Hash × Nat} (small : i < 256) (isA : xs[i]? = some a) : p a = false := by
        refine Bool.eq_false_iff.mpr (isLast a (List.mem_of_getElem? (i := i) ?_))
        rw [List.getElem?_take,if_pos small,isA]
      rw [List.find?_eq_none]
      intro v mem
      obtain ⟨⟨k,v⟩,inside,rfl⟩ := List.mem_map.mp mem
      have found := Table.memEntries.mp (List.mem_reverse.mp inside)
      rw [sequenced] at found
      refine Bool.eq_false_iff.mp ?_
      rcases seqAtSome found with ⟨small,here⟩ | ⟨_,more,here⟩
      · exact low small here
      · have first := List.getElem?_eq_getElem (show 0 < xs.length by omega)
        exact fails (Nat.zero_le _) first here (low (by omega) first)
  | some v =>
      obtain ⟨front,split⟩ := List.getLast?_eq_some_iff.mp isLast
      obtain ⟨early,late,isTake,_,isLate⟩ := List.filter_eq_append_iff.mp split
      obtain ⟨before,after,rfl,_,passes,noneAfter⟩ := List.filter_eq_cons_iff.mp isLate
      rw [← List.append_assoc] at isTake
      have here : (xs.take 256)[(early ++ before).length]? = some v := by
        rw [isTake,List.getElem?_append_right (Nat.le_refl _),Nat.sub_self]
        rfl
      have later {j : Nat} {a : Hash × Nat} (above : (early ++ before).length < j) (small : j < 256)
          (isA : xs[j]? = some a) : p a = false := by
        have inTake : (xs.take 256)[j]? = some a := by rw [List.getElem?_take,if_pos small,isA]
        rw [isTake,List.getElem?_append_right (Nat.le_of_lt above),List.getElem?_cons,
          if_neg (Nat.sub_ne_zero_of_lt above)] at inTake
        exact Bool.eq_false_iff.mpr (List.filter_eq_nil_iff.mp noneAfter a (List.mem_of_getElem? inTake))
      rw [List.getElem?_take] at here
      split at here
      · next small =>
          have stored := (sequenced.entry small).trans here
          refine Table.findLast stored passes (fun l w found ranks => ?_)
          rw [smallRank (by rwa [numberIs small]),numberIs small] at ranks
          rw [sequenced] at found
          rcases seqAtSome found with ⟨smallL,isW⟩ | ⟨large,more,isW⟩
          · rw [smallRank smallL] at ranks
            exact later (by omega) smallL isW
          · -- number 256 comes before number 1 only
            rw [largeRank large] at ranks
            have second := List.getElem?_eq_getElem (show 1 < xs.length by omega)
            exact fails (by omega) second isW (later (by omega) (by omega) second)
      · cases here

end Sequence

namespace NetTask
open Checked

section Marks

variable {kind : Hash × BlockEvent → Option Hash} {connected upper lower below : List Connected} {c : Connected}
  {m : Hash × Nat} {table table' : Table UInt32 (Hash × Nat)} {data : TwoWayPegData}

/- The last event block of each connected block that has one, with the height of the block; first block first. -/
def marks (kind : Hash × BlockEvent → Option Hash) : List Connected → List (Hash × Nat)
  | [] => []
  | c :: below => marks kind below ++ ((c.twoWayPegData.lastOf kind).map (·,below.length)).toList

theorem ownMark (mem : m ∈ ((c.twoWayPegData.lastOf kind).map (·,below.length)).toList) :
    c.twoWayPegData.lastOf kind = some m.1 ∧ m.2 = below.length := by
  obtain ⟨x,isLast,rfl⟩ := Option.map_eq_some_iff.mp (Option.mem_toList.mp mem)
  exact ⟨isLast,rfl⟩

theorem marksLow (mem : m ∈ marks kind connected) : m.2 < connected.length := by
  induction connected with
  | nil => cases mem
  | cons c below ih =>
      rcases List.mem_append.mp mem with earlier | own
      · exact Nat.lt_succ_of_lt (ih earlier)
      · exact (ownMark own).2 ▸ Nat.lt_succ_self _

theorem marksBelow (mem : m ∈ marks kind (c :: below)) (low : m.2 < below.length) : m ∈ marks kind below := by
  rcases List.mem_append.mp mem with earlier | own
  · exact earlier
  · exact absurd (ownMark own).2 (Nat.ne_of_lt low)

theorem marksOf (mem : m ∈ marks kind connected) : ∃ c ∈ connected, c.twoWayPegData.lastOf kind = some m.1 := by
  induction connected with
  | nil => cases mem
  | cons c below ih =>
      rcases List.mem_append.mp mem with earlier | own
      · obtain ⟨d,inside,isLast⟩ := ih earlier
        exact ⟨d,List.mem_cons_of_mem c inside,isLast⟩
      · exact ⟨c,List.mem_cons_self,(ownMark own).1⟩

theorem marksRise : (marks kind connected).Pairwise (fun a b => a.2 < b.2) := by
  induction connected with
  | nil => exact .nil
  | cons c below ih =>
      refine List.pairwise_append.mpr ⟨ih,?_,fun a earlier b own => ?_⟩
      · cases c.twoWayPegData.lastOf kind with
        | none => exact .nil
        | some x => exact List.pairwise_singleton ..
      · rw [(ownMark own).2]
        exact marksLow earlier

theorem marksQuiet (none : c.twoWayPegData.lastOf kind = none) : marks kind (c :: below) = marks kind below := by
  rw [marks,none]
  exact List.append_nil _

theorem marksOver : ∃ more, marks kind (upper ++ lower) = marks kind lower ++ more ∧ ∀ m ∈ more, lower.length ≤ m.2 := by
  induction upper with
  | nil => exact ⟨[],(List.append_nil _).symm,fun _ mem => absurd mem List.not_mem_nil⟩
  | cons c upper ih =>
      obtain ⟨more,same,high⟩ := ih
      refine ⟨more ++ ((c.twoWayPegData.lastOf kind).map (·,(upper ++ lower).length)).toList,?_,fun m mem => ?_⟩
      · rw [List.cons_append,marks,same,List.append_assoc]
      · rcases List.mem_append.mp mem with earlier | own
        · exact high m earlier
        · rw [(ownMark own).2,List.length_append]
          exact Nat.le_add_left _ _

theorem sequencedConnect (sequenced : Sequenced (marks kind below) table) :
    Sequenced (marks kind (c :: below)) (pushEventBlock table (c.twoWayPegData.lastOf kind) below.length) := by
  cases isLast : c.twoWayPegData.lastOf kind with
  | none =>
      rw [marksQuiet isLast]
      exact sequenced
  | some x =>
      rw [marks,isLast]
      exact sequenced.push

theorem sequencedDisconnect (sequenced : Sequenced (marks kind (c :: below)) table) {missing : Error}
    (whole : c.twoWayPegData.lastOf kind ≠ none → data.lastOf kind ≠ none)
    (ok : popEventBlock table (data.lastOf kind) below.length missing = .ok table') :
    Sequenced (marks kind below) table' := by
  cases isLast : data.lastOf kind with
  | none =>
      rw [isLast] at ok
      cases ok
      rwa [marksQuiet (by_contra (fun some => whole some isLast))] at sequenced
  | some y =>
      rw [isLast] at ok
      simp only [popEventBlock,bindOk,okOrOk,ensureOk,pureOk] at ok
      obtain ⟨⟨k,x,j⟩,isTop,_,_,_,rfl,rfl⟩ := ok
      have found := Table.lastFound isTop
      have isNumber := sequenced.last isTop
      rw [sequenced] at found
      -- what is taken is stamped with the height of the tip, so it is its own
      cases own : c.twoWayPegData.lastOf kind with
      | none =>
          rw [marksQuiet own] at found
          exact absurd (marksLow (seqAtMem found)) (Nat.lt_irrefl _)
      | some m =>
          rw [marks,own] at sequenced found isNumber
          refine sequenced.pop ?_ isTop
          by_contra many
          rw [List.length_append] at isNumber
          rcases seqAtSome found with ⟨small,here⟩ | ⟨large,_,_⟩
          · rw [List.getElem?_append_left (by omega)] at here
            exact Nat.lt_irrefl _ (marksLow (List.mem_of_getElem? here))
          · omega

theorem lastOfQuiet (none : data.events = []) : data.lastOf kind = Option.none := by
  rw [TwoWayPegData.lastOf,none]
  rfl

/- The last of the first 256: a search down the table finds it first. -/
def lastMark (kind : Hash × BlockEvent → Option Hash) (connected : List Connected) : Option (Hash × Nat) :=
  ((marks kind connected).take 256).getLast?

theorem lastApplied (upper : List Connected) (sequenced : Sequenced (marks kind (upper ++ lower)) table) {bound : Nat} (low : lower.length ≤ bound)
    (high : upper = [] ∨ bound ≤ lower.length) : lastAppliedBelow table bound = lastMark kind lower := by
  have falls : (marks kind (upper ++ lower)).Pairwise
      (fun a b => decide (b.2 < bound) = true → decide (a.2 < bound) = true) :=
    marksRise.imp (fun rises passes => decide_eq_true (Nat.lt_trans rises (of_decide_eq_true passes)))
  have below : ((marks kind lower).take 256).filter (fun m => decide (m.2 < bound)) = (marks kind lower).take 256 :=
    List.filter_eq_self.mpr (fun m mem => decide_eq_true (Nat.lt_of_lt_of_le (marksLow (List.mem_of_mem_take mem)) low))
  refine (sequenced.find falls).trans (congrArg List.getLast? ?_)
  rcases high with rfl | high
  · exact below
  · obtain ⟨more,same,above⟩ := @marksOver kind upper lower
    rw [same,List.take_append,List.filter_append,below,List.append_right_eq_self]
    refine List.filter_eq_nil_iff.mpr (fun m mem passes => ?_)
    exact Nat.not_lt.mpr (Nat.le_trans high (above m (List.mem_of_mem_take mem))) (of_decide_eq_true passes)

end Marks

end NetTask

end Coinshift
