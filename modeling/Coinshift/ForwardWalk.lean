import Coinshift.Ancestry

/-! Chains walked forwards.
Blocks know their parents only, so a walk towards a block finds an ancestor, goes back from it to fill a buffer, and
gives the buffer out from its end. -/
namespace Coinshift.Lineage
open Checked

/- How a walk reads its chain. `begins` and `follows` are the walk back, over at none. -/
structure Forward (ε K I : Type) where
  endHeight : K → Except ε Nat
  nth : K → Nat → Except ε K
  begins : K → Option K
  item : K → Except ε I
  follows : I → Option K
  -- the greatest height that can be told
  limit : Nat

/- Newer to older. -/
structure Batch (I : Type) where
  endHeight : Nat
  buffer : List I

/- No start height is left when the walk is done. -/
structure Position (K I : Type) where
  batchStartHeight : Option Nat
  endBlock : K
  inner : Option (Batch I)

variable {ε K I : Type}

def Position.new (endBlock : K) (startHeight : Nat) : Position K I := ⟨some startHeight,endBlock,none⟩

def maxBatchSize : Nat := 32

namespace Forward

variable (walk : Forward ε K I)

def takeBack : Nat → Option K → Except ε (List I)
  | 0, _ => pure []
  | _ + 1, none => pure []
  | count + 1, some b => do
      let item ← walk.item b
      let rest ← takeBack count (walk.follows item)
      pure (item :: rest)

def batchOf (at_ : Position K I) : Except ε (Batch I) :=
  match at_.inner with
  | some batch => pure batch
  | none => do
      let endHeight ← walk.endHeight at_.endBlock
      pure ⟨endHeight,[]⟩

def fill (endBlock : K) (endHeight batchStartHeight : Nat) : Except ε (List I × Option Nat) := do
  let heightDiff := endHeight - batchStartHeight
  let ancestorOffset := min heightDiff (maxBatchSize - 1)
  let batchSize := ancestorOffset + 1
  let ancestor ← walk.nth endBlock (heightDiff - ancestorOffset)
  let buffer ← walk.takeBack batchSize (walk.begins ancestor)
  let next := batchStartHeight + batchSize
  pure (buffer,if next ≤ walk.limit ∧ next ≤ endHeight then some next else none)

def next (at_ : Position K I) : Except ε (Position K I × Option I) := do
  let batch ← walk.batchOf at_
  match batch.buffer.getLast? with
  | some item => pure ({ at_ with inner := some ⟨batch.endHeight,batch.buffer.dropLast⟩ },some item)
  | none =>
      match at_.batchStartHeight with
      | none => pure ({ at_ with inner := some batch },none)
      | some start =>
          if batch.endHeight < start then pure ({ at_ with inner := some batch },none)
          else do
            let (buffer,batchStartHeight) ← walk.fill at_.endBlock batch.endHeight start
            pure (⟨batchStartHeight,at_.endBlock,some ⟨batch.endHeight,buffer.dropLast⟩⟩,buffer.getLast?)

def take : Nat → Position K I → Except ε (List I)
  | 0, _ => pure []
  | count + 1, at_ => do
      let (at_,item) ← walk.next at_
      match item with
      | none => pure []
      | some item => do
          let rest ← take count at_
          pure (item :: rest)

variable {walk}

section Items

theorem takeBackItems {count : Nat} {start : Option K} {items : List I} (ok : walk.takeBack count start = .ok items) :
    ∀ item ∈ items, ∃ b, walk.item b = .ok item := by
  induction count generalizing start items with
  | zero =>
      cases ok
      exact fun _ mem => nomatch mem
  | succ count ih =>
      cases start with
      | none =>
          cases ok
          exact fun _ mem => nomatch mem
      | some b =>
          simp only [takeBack,bindOk,pureOk] at ok
          obtain ⟨first,isFirst,rest,isRest,rfl⟩ := ok
          intro item mem
          rcases List.mem_cons.mp mem with rfl | later
          · exact ⟨b,isFirst⟩
          · exact ih isRest item later

def Read (walk : Forward ε K I) (at_ : Position K I) : Prop :=
  ∀ batch, at_.inner = some batch → ∀ item ∈ batch.buffer, ∃ b, walk.item b = .ok item

theorem nextItems {at_ at' : Position K I} {given : Option I} (read : Read walk at_) (ok : walk.next at_ = .ok (at',given)) :
    Read walk at' ∧ ∀ item, given = some item → ∃ b, walk.item b = .ok item := by
  simp only [next,bindOk] at ok
  obtain ⟨batch,isBatch,ok⟩ := ok
  have own : ∀ item ∈ batch.buffer, ∃ b, walk.item b = .ok item := by
    unfold batchOf at isBatch
    split at isBatch
    · next batch' isInner =>
        cases isBatch
        exact read batch isInner
    · simp only [bindOk,pureOk] at isBatch
      obtain ⟨_,_,rfl⟩ := isBatch
      exact fun _ mem => absurd mem List.not_mem_nil
  split at ok
  · next last isLast =>
      cases ok
      refine ⟨fun batch' same item mem => ?_,fun item same => ?_⟩
      · cases same
        exact own item ((List.dropLast_sublist _).mem mem)
      · cases same
        exact own last (List.mem_of_getLast? isLast)
  · have nothing {at' : Position K I} (same : at'.inner = some batch) : Read walk at' := by
      intro batch' same' item mem
      cases same.symm.trans same'
      exact own item mem
    split at ok
    · cases ok
      exact ⟨nothing rfl,fun _ isSome => absurd isSome.symm (Option.some_ne_none _)⟩
    · split at ok
      · cases ok
        exact ⟨nothing rfl,fun _ isSome => absurd isSome.symm (Option.some_ne_none _)⟩
      · simp only [bindOk,pureOk] at ok
        obtain ⟨⟨buffer,start⟩,isFilled,same⟩ := ok
        cases same
        simp only [fill,bindOk,pureOk] at isFilled
        obtain ⟨_,_,taken,isTaken,same⟩ := isFilled
        cases same
        have items := takeBackItems isTaken
        refine ⟨fun batch' same item mem => ?_,fun item isLast => items item (List.mem_of_getLast? isLast)⟩
        cases same
        exact items item ((List.dropLast_sublist _).mem mem)

theorem takeItems {count : Nat} {at_ : Position K I} {items : List I} (read : Read walk at_)
    (ok : walk.take count at_ = .ok items) : ∀ item ∈ items, ∃ b, walk.item b = .ok item := by
  induction count generalizing at_ items with
  | zero =>
      cases ok
      exact fun _ mem => nomatch mem
  | succ count ih =>
      simp only [take,bindOk] at ok
      obtain ⟨⟨at',given⟩,isNext,ok⟩ := ok
      obtain ⟨readNext,isGiven⟩ := nextItems read isNext
      cases given with
      | none =>
          cases ok
          exact fun _ mem => nomatch mem
      | some first =>
          simp only [bindOk,pureOk] at ok
          obtain ⟨rest,isRest,rfl⟩ := ok
          intro item mem
          rcases List.mem_cons.mp mem with rfl | later
          · exact isGiven item rfl
          · exact ih readNext isRest item later

end Items

section Lines

/- The walk reads the chain of `links`: over at a root, at the parent otherwise. -/
structure Reads (walk : Forward ε K I) (links : Links ε K) : Prop where
  nth : walk.nth = links.nthAncestor
  block : ∀ {b h}, links.height b = .ok h → walk.begins b = some b ∧ ∃ item, walk.item b = .ok item ∧
    (h = 0 → walk.follows item = none) ∧ ∀ k, h = k + 1 → ∃ p, links.parent b = .ok p ∧ walk.follows item = some p

structure Line (walk : Forward ε K I) (links : Links ε K) (b : K) (h : Nat) (ancestry : List I) : Prop where
  length : ancestry.length = h + 1
  items : ∀ n ≤ h, ∃ a item, links.up n b = some a ∧ walk.item a = .ok item ∧ ancestry[n]? = some item
  back : ∀ n ≤ h, ∀ a, links.up n b = some a → ∀ count, walk.takeBack count (some a) = .ok ((ancestry.drop n).take count)

variable {links : Links ε K}

theorem Reads.line (reads : Reads walk links) (sound : links.Sound) {b : K} {h : Nat} (known : links.height b = .ok h) :
    ∃ line, Line walk links b h line := by
  induction h generalizing b with
  | zero =>
      obtain ⟨_,item,isItem,root,_⟩ := reads.block known
      refine ⟨[item],rfl,fun n bound => ?_,fun n bound a above count => ?_⟩
      · cases Nat.le_zero.mp bound
        exact ⟨b,item,rfl,isItem,rfl⟩
      · cases Nat.le_zero.mp bound
        cases above
        cases count with
        | zero => rfl
        | succ count =>
            rw [takeBack,isItem,okBind,root rfl]
            cases count <;> rfl
  | succ h ih =>
      obtain ⟨p,isParent,parentKnown⟩ := sound.step known
      obtain ⟨line,length,items,back⟩ := ih parentKnown
      obtain ⟨_,item,isItem,_,inner⟩ := reads.block known
      obtain ⟨p',isParent',follows⟩ := inner h rfl
      obtain rfl : p = p' := Except.ok.inj (isParent.symm.trans isParent')
      refine ⟨item :: line,by rw [List.length_cons,length],fun n bound => ?_,fun n bound a above count => ?_⟩
      · cases n with
        | zero => exact ⟨b,item,rfl,isItem,rfl⟩
        | succ n =>
            obtain ⟨a,x,above,isX,atIndex⟩ := items n (Nat.le_of_succ_le_succ bound)
            exact ⟨a,x,by rw [Links.up,isParent]; exact above,isX,atIndex⟩
      · cases n with
        | zero =>
            cases above
            cases count with
            | zero => rfl
            | succ count =>
                rw [takeBack,isItem,okBind,follows,back 0 (Nat.zero_le h) p rfl count]
                rfl
        | succ n =>
            rw [Links.up,isParent] at above
            exact back n (Nat.le_of_succ_le_succ bound) a above count

end Lines

section Batches

variable {links : Links ε K} {b : K} {h e : Nat} {line : List I}

def ahead (line : List I) (endHeight : Nat) : Option Nat → List I
  | none => []
  | some start => (line.take (endHeight + 1 - start)).reverse

theorem takeReverse (line : List I) (n k : Nat) :
    (line.take (n + k)).reverse = ((line.drop n).take k).reverse ++ (line.take n).reverse := by
  rw [List.take_add,List.reverse_append]

/- A batch that ends at most 31 blocks before the root of the chain is a part of it, and the next one goes on there. -/
theorem Reads.fill (reads : Reads walk links) (sound : links.Sound) (known : links.height b = .ok h)
    (isLine : Line walk links b h line) (fits : e ≤ walk.limit) {start : Nat} (before : start ≤ e)
    (reach : e - start < h + maxBatchSize) : ∃ buffer next, walk.fill b e start = .ok (buffer,next) ∧ buffer ≠ [] ∧
      buffer.reverse ++ ahead line e next = ahead line e (some start) ∧
      ∀ start', next = some start' → e - start' < h + maxBatchSize := by
  have depth : e - start - min (e - start) (maxBatchSize - 1) ≤ h := by
    unfold maxBatchSize at reach ⊢
    omega
  obtain ⟨a,found,above,height⟩ := sound.nth known depth
  obtain ⟨begins,_⟩ := reads.block height
  have back := isLine.back _ depth a above (min (e - start) (maxBatchSize - 1) + 1)
  refine ⟨_,_,by rw [Forward.fill,reads.nth,found,okBind,begins,back]; rfl,?_,?_,?_⟩
  · intro empty
    have length := congrArg List.length empty
    rw [List.length_take,List.length_drop,isLine.length,List.length_nil] at length
    omega
  · split
    · next more =>
        have split : e + 1 - start = (e + 1 - (start + (min (e - start) (maxBatchSize - 1) + 1))) +
            (min (e - start) (maxBatchSize - 1) + 1) := by omega
        have rest : e - start - min (e - start) (maxBatchSize - 1) =
            e + 1 - (start + (min (e - start) (maxBatchSize - 1) + 1)) := by omega
        rw [ahead,ahead,split,rest]
        exact (takeReverse line _ _).symm
    · next last =>
        have whole : min (e - start) (maxBatchSize - 1) = e - start := by omega
        rw [ahead,ahead,whole,Nat.sub_self,List.drop_zero,List.append_nil,Nat.sub_add_comm before]
  · intro start' isNext
    split at isNext
    · next more =>
        cases isNext
        unfold maxBatchSize at depth ⊢
        omega
    · cases isNext

structure Going (walk : Forward ε K I) (b : K) (h e : Nat) (line : List I) (at_ : Position K I) (left : List I) : Prop where
  endBlock : at_.endBlock = b
  batch : ∃ buffer, walk.batchOf at_ = .ok ⟨e,buffer⟩ ∧ left = buffer.reverse ++ ahead line e at_.batchStartHeight
  reach : ∀ start, at_.batchStartHeight = some start → e - start < h + maxBatchSize

theorem goingNew (endHeight : walk.endHeight b = .ok e) {start : Nat} (reach : e - start < h + maxBatchSize) :
    Going walk b h e line (Position.new b start) (line.take (e + 1 - start)).reverse := by
  refine ⟨rfl,⟨[],?_,rfl⟩,fun start' isStart => ?_⟩
  · simp only [batchOf,Position.new,endHeight,okBind]
    rfl
  · cases isStart
    exact reach

theorem popLast {buffer : List I} (filled : buffer ≠ []) : ∃ item, buffer.getLast? = some item ∧
    buffer.reverse = item :: buffer.dropLast.reverse := by
  refine ⟨buffer.getLast filled,List.getLast?_eq_getLast_of_ne_nil filled,?_⟩
  have whole := List.dropLast_append_getLast filled
  calc buffer.reverse = (buffer.dropLast ++ [buffer.getLast filled]).reverse := by rw [whole]
    _ = buffer.getLast filled :: buffer.dropLast.reverse := List.reverse_append

theorem Going.next (reads : Reads walk links) (sound : links.Sound) (known : links.height b = .ok h)
    (isLine : Line walk links b h line) (fits : e ≤ walk.limit) {at_ : Position K I} {left : List I}
    (going : Going walk b h e line at_ left) :
    left = [] ∧ (∃ at', walk.next at_ = .ok (at',none)) ∨ ∃ item rest at', left = item :: rest ∧
      walk.next at_ = .ok (at',some item) ∧ Going walk b h e line at' rest := by
  obtain ⟨endBlock,⟨buffer,isBatch,rfl⟩,reach⟩ := going
  by_cases filled : buffer = []
  · subst filled
    cases isStart : at_.batchStartHeight with
    | none =>
        refine .inl ⟨rfl,{ at_ with inner := some ⟨e,[]⟩ },?_⟩
        rw [Forward.next,isBatch,okBind,isStart]
        rfl
    | some start =>
        rcases Nat.lt_or_ge e start with later | before
        · refine .inl ⟨?_,{ at_ with inner := some ⟨e,[]⟩ },?_⟩
          · rw [ahead,Nat.sub_eq_zero_of_le later]
            rfl
          · rw [Forward.next,isBatch,okBind,isStart]
            simp only [List.getLast?_nil,if_pos later]
            rfl
        · obtain ⟨buffer,next,isFilled,some',parts,further⟩ :=
            reads.fill sound known isLine fits before (reach start isStart)
          obtain ⟨item,isLast,reversed⟩ := popLast some'
          refine .inr ⟨item,buffer.dropLast.reverse ++ ahead line e next,⟨next,b,some ⟨e,buffer.dropLast⟩⟩,?_,?_,rfl,
            ⟨buffer.dropLast,rfl,rfl⟩,further⟩
          · rw [List.reverse_nil,List.nil_append,← parts,reversed]
            rfl
          · rw [Forward.next,isBatch,okBind,isStart]
            simp only [List.getLast?_nil,if_neg (Nat.not_lt.mpr before),endBlock,isFilled,okBind,isLast]
            rfl
  · obtain ⟨item,isLast,reversed⟩ := popLast filled
    refine .inr ⟨item,buffer.dropLast.reverse ++ ahead line e at_.batchStartHeight,
      { at_ with inner := some ⟨e,buffer.dropLast⟩ },?_,?_,endBlock,⟨buffer.dropLast,rfl,rfl⟩,reach⟩
    · rw [reversed]
      rfl
    · rw [Forward.next,isBatch,okBind]
      simp only [isLast]
      rfl

theorem Going.take (reads : Reads walk links) (sound : links.Sound) (known : links.height b = .ok h)
    (isLine : Line walk links b h line) (fits : e ≤ walk.limit) (count : Nat) {at_ : Position K I} {left : List I}
    (going : Going walk b h e line at_ left) : walk.take count at_ = .ok (left.take count) := by
  induction count generalizing at_ left with
  | zero => rfl
  | succ count ih =>
      rcases going.next reads sound known isLine fits with ⟨rfl,at',isNext⟩ | ⟨item,rest,at',rfl,isNext,goes⟩
      · rw [Forward.take,isNext,okBind]
        rfl
      · rw [Forward.take,isNext,okBind]
        simp only [ih goes,okBind]
        rfl

theorem Reads.take (reads : Reads walk links) (sound : links.Sound) (known : links.height b = .ok h)
    (isLine : Line walk links b h line) (endHeight : walk.endHeight b = .ok e) (fits : e ≤ walk.limit) {start : Nat}
    (reach : e - start < h + maxBatchSize) (count : Nat) :
    walk.take count (Position.new b start) = .ok ((line.take (e + 1 - start)).reverse.take count) :=
  (goingNew endHeight reach).take reads sound known isLine fits count

theorem Reads.tooHigh (reads : Reads walk links) (known : links.height b = .ok h) (endHeight : walk.endHeight b = .ok e)
    {start : Nat} (high : h + maxBatchSize ≤ e - start) (count : Nat) :
    ∃ err, walk.take (count + 1) (Position.new b start) = .error err := by
  have depth : h < e - start - min (e - start) (maxBatchSize - 1) := by
    unfold maxBatchSize at high ⊢
    omega
  have before : ¬ e < start := by
    unfold maxBatchSize at high
    omega
  refine ⟨links.noAncestor b (e - start - min (e - start) (maxBatchSize - 1)),?_⟩
  simp only [Forward.take,Forward.next,batchOf,Position.new,endHeight,okBind,pure,Except.pure,List.getLast?_nil,
    if_neg before,Forward.fill,reads.nth,Links.nthBeyond known depth]
  rfl

end Batches

end Forward

end Coinshift.Lineage
