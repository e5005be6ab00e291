import Coinshift.PegEffectRuns
import Coinshift.SyncReach
import Coinshift.ArrivalOrder

/-! The task that follows the main chain.
It fetches blocks back to one that is stored, and stores them oldest first in one go; whatever the main-chain node sends,
no header is ever stored without its parent and its contents. What it has told the net task is how the tip came about. -/
namespace Coinshift
open Checked Lineage Archive

variable {F : Type} {lib : Externals F} {world : World}

abbrev MainBlock := BlockHeaderInfo × BlockInfo

inductive MainchainRpcError where
  | grpc
  | invalidRepeatedValue (info : BlockHeaderInfo)
  deriving DecidableEq, Repr

inductive AncestorError where
  | mainchain (source : MainchainRpcError)
  | archive (source : ArchiveError)
  deriving DecidableEq, Repr

/- What the main-chain node answers, at one call, about a block and at most so many ancestors of it. -/
abbrev Enforcer := MainHash → Nat → Except MainchainRpcError (List MainBlock)

section Fetch

def checkSequential (expected : MainHash) : List MainBlock → Except MainchainRpcError Unit
  | [] => .ok ()
  | block :: blocks =>
      if block.1.blockHash = expected then checkSequential block.1.prevBlockHash blocks
      else .error (.invalidRepeatedValue block.1)

/- Nothing when the block is not available; that the first one is the block asked about is not checked. -/
def getBlockInfos (enforcer : Enforcer) (blockHash : MainHash) (maxAncestors : Nat) :
    Except MainchainRpcError (Option (MainBlock × List MainBlock)) := do
  let infos ← enforcer blockHash maxAncestors
  match infos with
  | [] => pure none
  | head :: tail => do
      checkSequential head.1.prevBlockHash tail
      pure (some (head,tail))

def batchRequestSize : Nat := 20000

def lastOf (head : MainBlock) (tail : List MainBlock) : MainBlock := tail.getLastD head

def knownBelow (archive : Archive F) (prevBlockHash : MainHash) : Bool :=
  prevBlockHash = MainHash.allZeros || (archive.mainHeaderInfos.tryGet prevBlockHash).isSome

/- One answer for each call; none as long as an answer is missing. Newest blocks first. -/
def fetchInfos (archive : Archive F) : List Enforcer → MainHash → List MainBlock →
    Option (Except AncestorError (Option (List MainBlock)))
  | [], _, _ => none
  | enforcer :: later, current, blocks =>
      match getBlockInfos enforcer current (batchRequestSize - 1) with
      | .error err => some (.error (.mainchain err))
      | .ok none => some (.ok none)
      | .ok (some (head,tail)) =>
          let current := (lastOf head tail).1.prevBlockHash
          let blocks := blocks ++ head :: tail
          if knownBelow archive current then some (.ok (some blocks)) else fetchInfos archive later current blocks

def storeInfos (archive : Archive F) (blocks : List MainBlock) : Except ArchiveError (Archive F) :=
  blocks.reverse.foldlM (fun archive block => NetTask.storeMainBlock archive block.1 block.2) archive

/- False when the block is not available. -/
def requestAncestorInfos (archive : Archive F) (enforcers : List Enforcer) (blockHash : MainHash) :
    Option (Except AncestorError (Archive F × Bool)) :=
  if knownBelow archive blockHash then some (.ok (archive,true))
  else
    (fetchInfos archive enforcers blockHash []).map (fun fetched => do
      match ← fetched with
      | none => pure (archive,false)
      | some blocks => do
          let archive ← (storeInfos archive blocks).mapError .archive
          pure (archive,true))

end Fetch

section Task

inductive TaskEvent where
  | block (event : MainchainEvent)
  | response (mainHash : MainHash) (result : Except AncestorError Bool)

structure MainchainTask (F : Type) where
  archive : Archive F
  -- from the first sync on, until an error
  running : Bool
  -- with a receiver of its own or not, first come first
  requests : List (MainHash × Bool)
  -- to the net task, oldest first
  events : List TaskEvent
  -- to receivers of their own, oldest first
  answers : List (MainHash × Except AncestorError Bool)

def MainchainTask.new (F : Type) : MainchainTask F := ⟨Archive.new F,false,[],[],[]⟩

inductive TaskStep where
  | request (mainHash : MainHash) (oneshot : Bool)
  | start (chainTip : MainHash) (enforcers : List Enforcer)
  | blockEvent (event : MainchainEvent)
  | serve (enforcers : List Enforcer) (listening : Bool)
  -- the event stream has closed or failed
  | stop
  | other (op : { op : ArchiveOp // NetTask.storesMainHeader op = false ∧ ∀ event, op ≠ .handleBlockEvent event })

def MainchainTask.sync (task : MainchainTask F) (chainTip : MainHash) : MainchainTask F :=
  match task.archive.syncSideTipsToTip chainTip with
  | .ok (archive,events) => { task with archive, running := true, events := task.events ++ events.map .block }
  | .error _ => task

/- `run_once`, until it waits for events and requests. -/
def MainchainTask.start (task : MainchainTask F) (chainTip : MainHash) (enforcers : List Enforcer) : MainchainTask F :=
  match requestAncestorInfos task.archive enforcers chainTip with
  | some (.ok (archive,true)) => { task with archive }.sync chainTip
  | some (.ok (archive,false)) => { task with archive }
  | _ => task

/- An error ends the run. -/
def MainchainTask.blockEvent (task : MainchainTask F) (event : MainchainEvent) : MainchainTask F :=
  match task.archive.handleBlockEvent event with
  | .ok archive => { task with archive, events := task.events ++ [.block event] }
  | .error _ => { task with running := false }

def MainchainTask.respond (task : MainchainTask F) (mainHash : MainHash) (oneshot listening : Bool)
    (result : Except AncestorError Bool) : MainchainTask F :=
  if oneshot then
    if listening then { task with answers := task.answers ++ [(mainHash,result)] } else { task with running := false }
  else { task with events := task.events ++ [.response mainHash result] }

def MainchainTask.serve (task : MainchainTask F) (enforcers : List Enforcer) (listening : Bool) : MainchainTask F :=
  match task.requests with
  | [] => task
  | (mainHash,oneshot) :: requests =>
      match requestAncestorInfos task.archive enforcers mainHash with
      | none => task
      | some (.ok (archive,found)) => { task with archive, requests }.respond mainHash oneshot listening (.ok found)
      | some (.error err) => { task with requests }.respond mainHash oneshot listening (.error err)

variable (lib : Externals F)

def TaskStep.apply (task : MainchainTask F) : TaskStep → MainchainTask F
  | .request mainHash oneshot => { task with requests := task.requests ++ [(mainHash,oneshot)] }
  | .start chainTip enforcers => if task.running then task else task.start chainTip enforcers
  | .blockEvent event => if task.running then task.blockEvent event else task
  | .serve enforcers listening => if task.running then task.serve enforcers listening else task
  | .stop => { task with running := false }
  | .other op =>
      match op.1.apply lib task.archive with
      | .ok archive => { task with archive }
      | .error _ => task

def runTask (steps : List TaskStep) : MainchainTask F := steps.foldl (TaskStep.apply lib) (.new F)

/- The answers are about what was asked, and hashes name their blocks. -/
def Enforcer.Answers (world : World) (enforcer : Enforcer) : Prop :=
  ∀ m n blocks, enforcer m n = .ok blocks →
    (∀ block ∈ blocks, world.NamesMain block.1 ∧ block.2 = world.mainInfo block.1.blockHash) ∧
    ∀ block ∈ blocks.head?, block.1.blockHash = m

def TaskStep.Names (world : World) : TaskStep → Prop
  | .start _ enforcers | .serve enforcers _ => ∀ enforcer ∈ enforcers, enforcer.Answers world
  | .blockEvent event => (ArchiveOp.handleBlockEvent event).Names lib world
  | .other op => op.1.Names lib world
  | _ => True

end Task

variable {archive archive' : Archive F} {m n : MainHash} {info : BlockHeaderInfo} {blockInfo : BlockInfo}
  {blocks : List MainBlock} {enforcers : List Enforcer}

section Filled

def NamesBlocks (world : World) (blocks : List MainBlock) : Prop :=
  ∀ block ∈ blocks, world.NamesMain block.1 ∧ block.2 = world.mainInfo block.1.blockHash

def MainStored (archive : Archive F) (m : MainHash) : Prop := (archive.mainHeaderInfos.tryGet m).isSome = true

structure Filled (lib : Externals F) (world : World) (archive : Archive F) : Prop where
  steady : Steady lib world archive
  complete : NetTask.Complete archive

theorem addedRefl : Added archive archive :=
  ⟨.bodies,fun _ _ found => found,fun _ _ found => found,rfl,rfl⟩

theorem growsStored (grows : archive.mainHeaderInfos.Grows archive'.mainHeaderInfos) (stored : MainStored archive m) :
    MainStored archive' m := by
  obtain ⟨info,found⟩ := Option.isSome_iff_exists.mp stored
  exact Option.isSome_iff_exists.mpr ⟨info,grows _ _ found⟩

theorem Archive.Added.keeps (added : Added archive archive') (stored : MainStored archive m) : MainStored archive' m :=
  growsStored added.grown.mainHeaders stored

theorem knownIff : knownBelow archive m = true ↔ m = MainHash.allZeros ∨ MainStored archive m := by
  rw [knownBelow,Bool.or_eq_true,decide_eq_true_iff,MainStored]

theorem Archive.MainTree.prevKnown (tree : MainTree world archive) (stored : archive.mainHeaderInfos.tryGet m = some info) :
    knownBelow archive info.prevBlockHash = true := by
  refine knownIff.mpr ?_
  obtain ⟨_,_,count⟩ := tree.heights.counted stored
  rcases mainCounts count with ⟨zero,_⟩ | ⟨k,_,known,_⟩
  · exact .inl zero
  · obtain ⟨parent,found⟩ := tree.heights.only known
    exact .inr (Option.isSome_iff_exists.mpr ⟨parent,found⟩)

structure StoreSource (lib : Externals F) (world : World) (archive : Archive F) (m : MainHash) (archive' : Archive F) : Prop where
  filled : Filled lib world archive'
  added : Added archive archive'
  stored : MainStored archive' m

theorem Filled.storeMain (filled : Filled lib world archive) (names : world.NamesMain info)
    (contents : blockInfo = world.mainInfo info.blockHash)
    (ok : NetTask.storeMainBlock archive info blockInfo = .ok archive') : StoreSource lib world archive info.blockHash archive' := by
  simp only [NetTask.storeMainBlock,bindOk] at ok
  obtain ⟨first,isFirst,isSecond⟩ := ok
  have trees := filled.steady.trees.putMainHeader names isFirst
  have addedFirst := filled.steady.trees.addsMainHeader names isFirst
  have addedSecond := trees.addsMainInfo contents isSecond
  have stored : MainStored first info.blockHash := by
    obtain ⟨_,_,_,_,_,_,_,_,_,rfl⟩ := putMainHeaderSource isFirst
    exact Option.isSome_iff_exists.mpr ⟨info,Table.tryGetPutSelf⟩
  exact ⟨⟨(filled.steady.added addedFirst trees).added addedSecond (trees.putMainInfo contents isSecond),
    NetTask.storedComplete filled.complete isFirst isSecond⟩,addedFirst.trans addedSecond,addedSecond.keeps stored⟩

structure StoredAll (lib : Externals F) (world : World) (archive : Archive F) (blocks : List MainBlock)
    (archive' : Archive F) : Prop where
  filled : Filled lib world archive'
  added : Added archive archive'
  stored : ∀ block ∈ blocks, MainStored archive' block.1.blockHash

theorem Filled.storeInfos (filled : Filled lib world archive) (names : NamesBlocks world blocks)
    (ok : storeInfos archive blocks = .ok archive') : StoredAll lib world archive blocks archive' := by
  have kept : StoredAll lib world archive blocks.reverse archive' := by
    refine foldHistory (P := fun before now => StoredAll lib world archive before now)
      ⟨filled,addedRefl,fun _ mem => absurd mem List.not_mem_nil⟩ ?_ ok
    intro before block after now next split _ stored kept
    have mem : block ∈ blocks.reverse := split ▸ List.mem_append_right before List.mem_cons_self
    obtain ⟨named,contents⟩ := names block (List.mem_reverse.mp mem)
    have source := kept.filled.storeMain named contents stored
    refine ⟨source.filled,kept.added.trans source.added,fun other inside => ?_⟩
    rcases List.mem_append.mp inside with earlier | here
    · exact source.added.keeps (kept.stored other earlier)
    · cases List.mem_singleton.mp here
      exact source.stored
  exact ⟨kept.filled,kept.added,fun block mem => kept.stored block (List.mem_reverse.mpr mem)⟩

end Filled

section Fetched

theorem blockInfosSource {enforcer : Enforcer} {head : MainBlock} {tail : List MainBlock} {max : Nat} (answers : enforcer.Answers world)
    (ok : getBlockInfos enforcer m max = .ok (some (head,tail))) :
    NamesBlocks world (head :: tail) ∧ head.1.blockHash = m := by
  simp only [getBlockInfos,bindOk] at ok
  obtain ⟨infos,answered,ok⟩ := ok
  obtain ⟨named,isFirst⟩ := answers _ _ _ answered
  split at ok
  · cases ok
  · simp only [bindOk,pureOk] at ok
    obtain ⟨_,_,same⟩ := ok
    cases same
    exact ⟨named,isFirst _ rfl⟩

theorem fetchedFirst {fetched : List MainBlock} (answers : ∀ enforcer ∈ enforcers, enforcer.Answers world)
    (names : NamesBlocks world blocks) (ok : fetchInfos archive enforcers m blocks = some (.ok (some fetched))) :
    NamesBlocks world fetched ∧ ∃ head more, fetched = blocks ++ head :: more ∧ head.1.blockHash = m := by
  induction enforcers generalizing m blocks with
  | nil => cases ok
  | cons enforcer later ih =>
      unfold fetchInfos at ok
      split at ok
      · cases ok
      · cases ok
      · next head tail answered =>
          obtain ⟨named,isFirst⟩ := blockInfosSource (answers enforcer List.mem_cons_self) answered
          have together : NamesBlocks world (blocks ++ head :: tail) := by
            intro block mem
            rcases List.mem_append.mp mem with earlier | here
            · exact names block earlier
            · exact named block here
          dsimp only at ok
          split at ok
          · cases ok
            exact ⟨together,head,tail,rfl,isFirst⟩
          · obtain ⟨all,first,more,rfl,_⟩ := ih (fun other mem => answers other (List.mem_cons_of_mem _ mem)) together ok
            exact ⟨all,head,tail ++ first :: more,by rw [List.append_assoc]; rfl,isFirst⟩

structure RequestSource (lib : Externals F) (world : World) (archive : Archive F) (m : MainHash) (archive' : Archive F)
    (found : Bool) : Prop where
  filled : Filled lib world archive'
  added : Added archive archive'
  stored : found = true → m = MainHash.allZeros ∨ MainStored archive' m
  kept : found = false → archive' = archive

theorem Filled.request {found : Bool} (filled : Filled lib world archive)
    (answers : ∀ enforcer ∈ enforcers, enforcer.Answers world)
    (ok : requestAncestorInfos archive enforcers m = some (.ok (archive',found))) :
    RequestSource lib world archive m archive' found := by
  unfold requestAncestorInfos at ok
  split at ok
  · next known =>
      cases ok
      refine ⟨filled,addedRefl,fun _ => ?_,fun no => (by cases no)⟩
      exact (Bool.or_eq_true_iff.mp known).imp of_decide_eq_true id
  · obtain ⟨fetched,isFetched,done⟩ := Option.map_eq_some_iff.mp ok
    simp only [bindOk] at done
    obtain ⟨result,rfl,done⟩ := done
    cases result with
    | none =>
        cases done
        exact ⟨filled,addedRefl,fun no => (by cases no),fun _ => rfl⟩
    | some all =>
        simp only [bindOk,mapErrorOk,pureOk] at done
        obtain ⟨next,stored,same⟩ := done
        cases same
        obtain ⟨names,head,more,rfl,rfl⟩ := fetchedFirst answers (fun _ mem => absurd mem List.not_mem_nil) isFetched
        have all := filled.storeInfos names stored
        exact ⟨all.filled,all.added,fun _ => .inr (all.stored head List.mem_cons_self),fun no => (by cases no)⟩

end Fetched

section Served

inductive BackFrom : MainHash → List MainBlock → Prop
  | first : BackFrom MainHash.allZeros []
  | block {block : MainBlock} {blocks : List MainBlock} (rest : BackFrom block.1.prevBlockHash blocks) :
      BackFrom block.1.blockHash (block :: blocks)

def Enforcer.Serves (enforcer : Enforcer) (line : List MainBlock) : Prop :=
  ∀ before head after, line = before ++ head :: after → ∀ maxAncestors,
    enforcer head.1.blockHash maxAncestors = .ok (head :: after.take maxAncestors)

theorem checkTake (line : BackFrom m blocks) (k : Nat) : checkSequential m (blocks.take k) = .ok () := by
  induction line generalizing k with
  | first =>
      rw [List.take_nil]
      rfl
  | block _ ih =>
      cases k with
      | zero => rfl
      | succ k =>
          rw [List.take_succ_cons,checkSequential,if_pos rfl]
          exact ih k

theorem BackFrom.rest {head : MainBlock} {tail : List MainBlock} (line : BackFrom head.1.prevBlockHash tail) (k : Nat) :
    BackFrom (lastOf head (tail.take k)).1.prevBlockHash (tail.drop k) := by
  induction tail generalizing head k with
  | nil =>
      rw [List.take_nil,List.drop_nil]
      exact line
  | cons next tail ih =>
      cases k with
      | zero => exact line
      | succ k =>
          have last : lastOf head ((next :: tail).take (k + 1)) = lastOf next (tail.take k) := by
            rw [List.take_succ_cons,lastOf,List.getLastD_cons]
            rfl
          rw [last,List.drop_succ_cons]
          generalize head.1.prevBlockHash = p at line
          cases line with
          | block rest => exact ih rest k

theorem fetchedLine {line before rest : List MainBlock} (serves : ∀ enforcer ∈ enforcers, enforcer.Serves line)
    (split : line = before ++ rest) (back : BackFrom m rest) (nonEmpty : rest ≠ [])
    (enough : rest.length ≤ batchRequestSize * enforcers.length) :
    ∃ more left stop, fetchInfos archive enforcers m blocks = some (.ok (some (blocks ++ more))) ∧ rest = more ++ left ∧
      BackFrom stop left ∧ knownBelow archive stop = true := by
  induction enforcers generalizing m before rest blocks with
  | nil => exact absurd (List.length_eq_zero_iff.mp (Nat.le_zero.mp enough)) nonEmpty
  | cons enforcer later ih =>
      cases back with
      | first => exact absurd rfl nonEmpty
      | @block head tail below =>
          have answered : getBlockInfos enforcer head.1.blockHash (batchRequestSize - 1) =
              .ok (some (head,tail.take (batchRequestSize - 1))) := by
            rw [getBlockInfos,serves enforcer List.mem_cons_self before head tail split,okBind]
            dsimp only
            rw [checkTake below,okBind]
            rfl
          have goesOn := below.rest (batchRequestSize - 1)
          rw [fetchInfos,answered]
          dsimp only
          split
          · next known =>
              refine ⟨head :: tail.take (batchRequestSize - 1),_,_,rfl,?_,goesOn,known⟩
              rw [List.cons_append,List.take_append_drop]
          · next unknown =>
              have whole : line = (before ++ head :: tail.take (batchRequestSize - 1)) ++ tail.drop (batchRequestSize - 1) := by
                rw [split,List.append_assoc,List.cons_append,List.take_append_drop]
              have notDone : tail.drop (batchRequestSize - 1) ≠ [] := by
                intro done
                rw [done] at goesOn
                generalize (lastOf head (tail.take (batchRequestSize - 1))).1.prevBlockHash = stop at goesOn unknown
                cases goesOn
                exact unknown (knownIff.mpr (.inl rfl))
              have fewer : (tail.drop (batchRequestSize - 1)).length ≤ batchRequestSize * later.length := by
                rw [List.length_cons,List.length_cons,Nat.mul_succ] at enough
                rw [List.length_drop]
                unfold batchRequestSize at *
                omega
              obtain ⟨more,left,stop,fetched,parts,ends,known⟩ :=
                ih (fun other mem => serves other (List.mem_cons_of_mem _ mem)) whole goesOn notDone fewer
              refine ⟨head :: tail.take (batchRequestSize - 1) ++ more,left,stop,?_,?_,ends,known⟩
              · rw [fetched,List.append_assoc]
              · rw [List.append_assoc,← parts,List.cons_append,List.take_append_drop]

theorem Filled.storable (filled : Filled lib world archive) (names : world.NamesMain info)
    (ready : knownBelow archive info.prevBlockHash = true) : ∃ archive', NetTask.storeMainBlock archive info blockInfo = .ok archive' := by
  have below := knownIff.mp ready
  have trees := filled.steady.trees
  obtain ⟨first,isFirst⟩ := trees.main.putHeaderTotal names below.symm
  have added := trees.addsMainHeader names isFirst
  have treesFirst := trees.putMainHeader names isFirst
  have stored : first.mainHeaderInfos.tryGet info.blockHash = some info := by
    obtain ⟨_,_,_,_,_,_,_,_,_,rfl⟩ := putMainHeaderSource isFirst
    exact Table.tryGetPutSelf
  have closed : info.prevBlockHash = MainHash.allZeros ∨ (first.mainBlockInfos.tryGet info.prevBlockHash).isSome = true := by
    refine below.imp id (fun isStored => ?_)
    obtain ⟨held,found⟩ := Option.isSome_iff_exists.mp (filled.complete _ isStored)
    exact Option.isSome_iff_exists.mpr ⟨held,added.grown.mainInfos _ _ found⟩
  have puts : ∃ archive', first.putMainBlockInfo info.blockHash blockInfo = .ok archive' :=
    treesFirst.putMainInfoTotal ⟨info,stored,closed⟩
  obtain ⟨archive',isSecond⟩ := puts
  exact ⟨archive',bindOk.mpr ⟨first,isFirst,isSecond⟩⟩

theorem storeConsOk {block : MainBlock} : storeInfos archive (block :: blocks) = .ok archive' ↔
    ∃ middle, storeInfos archive blocks = .ok middle ∧ NetTask.storeMainBlock middle block.1 block.2 = .ok archive' := by
  simp only [storeInfos,List.reverse_cons,List.foldlM_append,bindOk,List.foldlM_cons,List.foldlM_nil,pureOk]
  constructor
  · rintro ⟨middle,first,_,second,rfl⟩
    exact ⟨middle,first,second⟩
  · rintro ⟨middle,first,second⟩
    exact ⟨middle,first,archive',second,rfl⟩

theorem storedLine {more left : List MainBlock} (filled : Filled lib world archive) (back : BackFrom m (more ++ left))
    (ends : BackFrom n left) (known : knownBelow archive n = true) (names : NamesBlocks world more) :
    ∃ archive', storeInfos archive more = .ok archive' ∧ StoredAll lib world archive more archive' ∧
      knownBelow archive' m = true := by
  induction more generalizing m with
  | nil =>
      have same : m = n := by
        cases ends with
        | first => cases back with | first => rfl
        | block _ => cases back with | block _ => rfl
      exact ⟨archive,rfl,⟨filled,addedRefl,fun _ mem => absurd mem List.not_mem_nil⟩,same ▸ known⟩
  | cons block more ih =>
      cases back with
      | block rest =>
          obtain ⟨named,_⟩ := names block List.mem_cons_self
          obtain ⟨middle,isMiddle,all,reached⟩ := ih rest (fun other mem => names other (List.mem_cons_of_mem _ mem))
          obtain ⟨archive',stored⟩ := all.filled.storable named reached
          have isStored := storeConsOk.mpr ⟨middle,isMiddle,stored⟩
          have here := filled.storeInfos names isStored
          exact ⟨archive',isStored,here,knownIff.mpr (.inr (here.stored block List.mem_cons_self))⟩

theorem wholeLine (tree : MainTree world archive) (back : BackFrom m blocks) (names : NamesBlocks world blocks)
    (known : knownBelow archive m = true) : ∀ block ∈ blocks, MainStored archive block.1.blockHash := by
  induction back with
  | first => exact fun _ mem => absurd mem List.not_mem_nil
  | @block block blocks _ ih =>
      obtain ⟨⟨named,nonZero⟩,_⟩ := names block List.mem_cons_self
      have stored := (knownIff.mp known).resolve_left nonZero
      obtain ⟨info,found⟩ := Option.isSome_iff_exists.mp stored
      obtain ⟨⟨isNamed,_⟩,same⟩ := tree.named found
      have sameInfo : info = block.1 := by rw [isNamed,same,← named]
      have below := tree.prevKnown found
      rw [sameInfo] at below
      intro other mem
      rcases List.mem_cons.mp mem with rfl | later
      · exact stored
      · exact ih (fun inner isInner => names inner (List.mem_cons_of_mem _ isInner)) below other later

theorem requestReaches (filled : Filled lib world archive) (back : BackFrom m blocks) (names : NamesBlocks world blocks)
    (serves : ∀ enforcer ∈ enforcers, enforcer.Serves blocks) (enough : blocks.length ≤ batchRequestSize * enforcers.length) :
    ∃ archive', requestAncestorInfos archive enforcers m = some (.ok (archive',true)) ∧
      ∀ block ∈ blocks, MainStored archive' block.1.blockHash := by
  unfold requestAncestorInfos
  split
  · next known => exact ⟨archive,rfl,wholeLine filled.steady.trees.main back names known⟩
  · next unknown =>
      have nonEmpty : blocks ≠ [] := by
        rintro rfl
        cases back
        exact unknown (knownIff.mpr (.inl rfl))
      have parts : blocks = [] ++ blocks := rfl
      have fetches : ∃ more left stop, fetchInfos archive enforcers m [] = some (.ok (some ([] ++ more))) ∧
          blocks = more ++ left ∧ BackFrom stop left ∧ knownBelow archive stop = true :=
        fetchedLine serves parts back nonEmpty enough
      obtain ⟨more,left,stop,fetched,rfl,ends,known⟩ := fetches
      have upper : NamesBlocks world more := fun block mem => names block (List.mem_append_left _ mem)
      obtain ⟨archive',stored,all,reached⟩ := storedLine filled back ends known upper
      refine ⟨archive',?_,wholeLine all.filled.steady.trees.main back names reached⟩
      rw [fetched,List.nil_append,Option.map_some,okBind]
      dsimp only
      rw [stored]
      rfl

end Served

section Heard

inductive Heard (archive : Archive F) : MainHash → List MainchainEvent → MainHash → Prop
  | here {m : MainHash} : Heard archive m [] m
  | connect {info : BlockHeaderInfo} {blockInfo : BlockInfo} {events : List MainchainEvent} {m n : MainHash}
      (parent : info.prevBlockHash = m) (rest : Heard archive info.blockHash events n) :
      Heard archive m (.connectBlock info blockInfo :: events) n
  | disconnect {b m n : MainHash} {info tipInfo : BlockHeaderInfo} {events : List MainchainEvent}
      (isTip : archive.mainHeaderInfos.tryGet m = some tipInfo) (named : archive.mainHeaderInfos.tryGet b = some info)
      (same : info.prevBlockHash = tipInfo.prevBlockHash) (rest : Heard archive tipInfo.prevBlockHash events n) :
      Heard archive m (.disconnectBlock b :: events) n

theorem Heard.append {events more : List MainchainEvent} {k : MainHash} (first : Heard archive m events n)
    (second : Heard archive n more k) : Heard archive m (events ++ more) k := by
  induction first with
  | here => exact second
  | connect parent _ ih => exact .connect parent (ih second)
  | disconnect isTip named same _ ih => exact .disconnect isTip named same (ih second)

theorem Heard.grow {events : List MainchainEvent} (followed : Heard archive m events n)
    (grows : archive.mainHeaderInfos.Grows archive'.mainHeaderInfos) : Heard archive' m events n := by
  induction followed with
  | here => exact .here
  | connect parent _ ih => exact .connect parent ih
  | disconnect isTip named same _ ih => exact .disconnect (grows _ _ isTip) (grows _ _ named) same ih

theorem followedConnect (ok : archive.connectMainBlock info blockInfo = .ok archive') :
    Heard archive archive.mainTip [.connectBlock info blockInfo] archive'.mainTip := by
  obtain ⟨_,tips,_,connected,rfl⟩ := connectMainSource ok
  obtain ⟨parent,listed,rfl,_⟩ := connectMainchainSource connected
  exact .connect parent .here

theorem followedDisconnect (steady : Steady lib world archive) (ok : archive.handleBlockEvent (.disconnectBlock m) = .ok archive') :
    Heard archive archive.mainTip [.disconnectBlock m] archive'.mainTip := by
  obtain ⟨info,blockInfo,parent,tips,stored,_,isParent,disconnected,rfl⟩ := disconnectEventSource ok
  rw [disconnectParts] at disconnected
  simp only [bindOk,okOrOk,pureOk] at disconnected
  obtain ⟨tipInfo,isTip,newTip,isNew,_,_,rfl⟩ := disconnected
  have tipStored : archive.mainHeaderInfos.tryGet archive.mainTip = some tipInfo := by
    rw [mainTip,MainchainTip.blockHash,isTip]
    exact (steady.tip.known isTip).1
  unfold mainParentHeaderInfo at isParent
  split at isParent
  · next zero =>
      cases isParent
      simp only [newTipFor,bindOk,ensureOk,pureOk] at isNew
      obtain ⟨_,tipZero,rfl⟩ := isNew
      have ends : Heard archive tipInfo.prevBlockHash [] MainHash.allZeros := tipZero ▸ .here
      exact .disconnect tipStored stored (zero.trans tipZero.symm) ends
  · next inner =>
      obtain ⟨parentInfo,found,rfl⟩ := mapOk.mp isParent
      have isNamed := (steady.trees.main.named (okOrOk.mp found)).2
      simp only [newTipFor,bindOk,ensureOk,pureOk] at isNew
      obtain ⟨_,parent,_,_,rfl⟩ := isNew
      have same : info.prevBlockHash = tipInfo.prevBlockHash := isNamed.symm.trans parent
      have ends : Heard archive tipInfo.prevBlockHash [] parentInfo.blockHash := parent ▸ .here
      refine .disconnect tipStored stored same ?_
      rw [if_pos (same ▸ inner)]
      exact ends

theorem followedEvent {event : MainchainEvent} (steady : Steady lib world archive)
    (names : (ArchiveOp.handleBlockEvent event).Names lib world) (ok : archive.handleBlockEvent event = .ok archive') :
    Heard archive' archive.mainTip [event] archive'.mainTip := by
  have grown := steady.trees.stepGrown names ok
  cases event with
  | connectBlock info blockInfo =>
      obtain ⟨stored,block,connected⟩ := steady.connectEvent names.1 names.2 ok
      have same : stored.mainTip = archive.mainTip := by rw [mainTip,mainTip,block.added.sideTips]
      have followed := followedConnect connected
      rw [same] at followed
      refine followed.grow ?_
      obtain ⟨_,_,_,_,rfl⟩ := connectMainSource connected
      exact fun _ _ found => found
  | disconnectBlock m => exact (followedDisconnect steady ok).grow grown.mainHeaders

theorem followedSync {events : List MainchainEvent} (steady : Steady lib world archive) (recorded : KnownBlocks archive events)
    (ok : events.foldlM syncEvent archive = .ok archive') : Heard archive' archive.mainTip events archive'.mainTip := by
  have kept : (Steady lib world archive' ∧ SameButTips archive archive') ∧
      Heard archive archive.mainTip events archive'.mainTip := by
    refine foldHistory (P := fun before now => (Steady lib world now ∧ SameButTips archive now) ∧
      Heard archive archive.mainTip before now.mainTip) ⟨⟨steady,.refl⟩,.here⟩ ?_ ok
    rintro before event after now next split ran done ⟨_,followed⟩
    have here : KnownBlocks archive (before ++ [event]) := by
      intro info blockInfo mem
      refine recorded info blockInfo (split ▸ ?_)
      rcases List.mem_append.mp mem with earlier | last
      · exact List.mem_append_left _ earlier
      · exact List.mem_append_right _ (List.mem_singleton.mp last ▸ List.mem_cons_self)
    have steadyNow := steady.replay (fun info blockInfo mem => here info blockInfo (List.mem_append_left _ mem)) ran
    have steadyNext := steady.replay here (foldAppendOk.mpr ⟨now,ran,foldConsOk.mpr ⟨next,done,rfl⟩⟩)
    obtain ⟨tips,rfl⟩ := steadyNow.2
    refine ⟨steadyNext,followed.append ?_⟩
    cases event with
    | connectBlock info blockInfo => exact (followedConnect done).grow (fun _ _ found => found)
    | disconnectBlock m => exact (followedDisconnect steadyNow.1 done).grow (fun _ _ found => found)
  obtain ⟨⟨_,tips,rfl⟩,followed⟩ := kept
  exact followed.grow (fun _ _ found => found)

end Heard

section Runs

variable {task : MainchainTask F} {steps : List TaskStep}

def blocksSent (events : List TaskEvent) : List MainchainEvent :=
  events.filterMap (fun event => match event with
    | .block event => some event
    | .response _ _ => none)

def Answered (task : MainchainTask F) (m : MainHash) : Prop :=
  .response m (.ok true) ∈ task.events ∨ (m,.ok true) ∈ task.answers

structure TaskKept (lib : Externals F) (world : World) (task : MainchainTask F) : Prop where
  filled : Filled lib world task.archive
  followed : Heard task.archive MainHash.allZeros (blocksSent task.events) task.archive.mainTip
  answered : ∀ m, Answered task m → m = MainHash.allZeros ∨ MainStored task.archive m

theorem TaskKept.grow {requests : List (MainHash × Bool)} {running : Bool} (kept : TaskKept lib world task)
    (filled : Filled lib world archive) (grows : task.archive.mainHeaderInfos.Grows archive.mainHeaderInfos)
    (same : archive.mainTip = task.archive.mainTip) : TaskKept lib world { task with archive,requests,running } := by
  refine ⟨filled,?_,fun m answered => ?_⟩
  · show Heard archive MainHash.allZeros (blocksSent task.events) archive.mainTip
    rw [same]
    exact kept.followed.grow grows
  · exact (kept.answered m answered).imp id (growsStored grows)

theorem TaskKept.add {requests : List (MainHash × Bool)} {running : Bool} (kept : TaskKept lib world task)
    (filled : Filled lib world archive) (added : Added task.archive archive) :
    TaskKept lib world { task with archive,requests,running } := by
  have same : archive.mainTip = task.archive.mainTip := by rw [mainTip,mainTip,added.sideTips]
  exact kept.grow filled added.grown.mainHeaders same

theorem TaskKept.respond {oneshot listening : Bool} {result : Except AncestorError Bool} (kept : TaskKept lib world task)
    (stored : result = .ok true → m = MainHash.allZeros ∨ MainStored task.archive m) :
    TaskKept lib world (task.respond m oneshot listening result) := by
  unfold MainchainTask.respond
  split
  · split
    · refine ⟨kept.filled,kept.followed,fun n answered => ?_⟩
      rcases answered with sent | told
      · exact kept.answered n (.inl sent)
      · rcases List.mem_append.mp told with earlier | here
        · exact kept.answered n (.inr earlier)
        · obtain ⟨rfl,isTrue⟩ := Prod.mk.inj (List.mem_singleton.mp here)
          exact stored isTrue.symm
    · exact ⟨kept.filled,kept.followed,kept.answered⟩
  · refine ⟨kept.filled,?_,fun n answered => ?_⟩
    · show Heard task.archive MainHash.allZeros (blocksSent (task.events ++ [.response m result])) task.archive.mainTip
      have same : blocksSent (task.events ++ [.response m result]) = blocksSent task.events := by
        simp [blocksSent]
      rw [same]
      exact kept.followed
    · rcases answered with sent | told
      · rcases List.mem_append.mp sent with earlier | here
        · exact kept.answered n (.inl earlier)
        · obtain ⟨rfl,isTrue⟩ := TaskEvent.response.inj (List.mem_singleton.mp here)
          exact stored isTrue.symm
      · exact kept.answered n (.inr told)

theorem TaskKept.send {events : List MainchainEvent} {running : Bool} (kept : TaskKept lib world task)
    (filled : Filled lib world archive) (grows : task.archive.mainHeaderInfos.Grows archive.mainHeaderInfos)
    (followed : Heard archive task.archive.mainTip events archive.mainTip) :
    TaskKept lib world { task with archive,running, events := task.events ++ events.map .block } := by
  have sent : blocksSent (task.events ++ events.map .block) = blocksSent task.events ++ events := by
    have own : (events.map TaskEvent.block).filterMap (fun event => match event with
        | .block event => some event
        | .response _ _ => none) = events := by
      rw [List.filterMap_map]
      exact List.filterMap_some
    rw [blocksSent,List.filterMap_append,own,blocksSent]
  refine ⟨filled,?_,fun m answered => ?_⟩
  · show Heard archive MainHash.allZeros (blocksSent (task.events ++ events.map .block)) archive.mainTip
    rw [sent]
    exact (kept.followed.grow grows).append followed
  · have before : Answered task m := by
      refine answered.imp (fun mem => ?_) id
      rcases List.mem_append.mp mem with earlier | here
      · exact earlier
      · obtain ⟨_,_,same⟩ := List.mem_map.mp here
        cases same
    exact (kept.answered m before).imp id (growsStored grows)

theorem Filled.sameButTips (filled : Filled lib world archive) (steady : Steady lib world archive')
    (same : SameButTips archive archive') : Filled lib world archive' := by
  obtain ⟨tips,rfl⟩ := same
  exact ⟨steady,filled.complete⟩

theorem TaskKept.sync (kept : TaskKept lib world task) : TaskKept lib world (task.sync m) := by
  unfold MainchainTask.sync
  split
  · next archive events synced =>
      have steady := kept.filled.steady
      obtain ⟨replays,recorded⟩ := steady.sync synced
      obtain ⟨steadyNow,same⟩ := steady.replay recorded replays
      refine kept.send (kept.filled.sameButTips steadyNow same) ?_ (followedSync steady recorded replays)
      obtain ⟨tips,rfl⟩ := same
      exact fun _ _ found => found
  · exact kept

theorem TaskKept.start (kept : TaskKept lib world task) (answers : ∀ enforcer ∈ enforcers, enforcer.Answers world) :
    TaskKept lib world (task.start m enforcers) := by
  unfold MainchainTask.start
  split
  · next archive requested =>
      have source := kept.filled.request answers requested
      exact (kept.add source.filled source.added).sync
  · next archive requested =>
      have source := kept.filled.request answers requested
      exact kept.add source.filled source.added
  · exact kept

theorem TaskKept.blockEvent {event : MainchainEvent} (kept : TaskKept lib world task)
    (names : (ArchiveOp.handleBlockEvent event).Names lib world) : TaskKept lib world (task.blockEvent event) := by
  unfold MainchainTask.blockEvent
  split
  · next archive handled =>
      have steady := kept.filled.steady
      have isStep : (ArchiveOp.handleBlockEvent event).apply lib task.archive = .ok archive := handled
      have filled : Filled lib world archive :=
        ⟨steady.step names isStep,NetTask.stepComplete kept.filled.complete rfl isStep⟩
      exact kept.send filled (steady.trees.stepGrown names isStep).mainHeaders (followedEvent steady names handled)
  · exact kept.add kept.filled addedRefl

theorem TaskKept.serve {listening : Bool} (kept : TaskKept lib world task)
    (answers : ∀ enforcer ∈ enforcers, enforcer.Answers world) : TaskKept lib world (task.serve enforcers listening) := by
  unfold MainchainTask.serve
  split
  · exact kept
  · next mainHash oneshot requests queued =>
      split
      · exact kept
      · next archive found requested =>
          have source := kept.filled.request answers requested
          refine (kept.add source.filled source.added).respond (fun isTrue => ?_)
          cases isTrue
          exact source.stored rfl
      · exact (kept.add kept.filled addedRefl).respond (fun no => (by cases no))

theorem otherTip {op : ArchiveOp} (steady : Steady lib world archive) (names : op.Names lib world)
    (noEvent : ∀ event, op ≠ .handleBlockEvent event) (ok : op.apply lib archive = .ok archive') :
    archive'.mainTip = archive.mainTip := by
  have tip : archive'.sideTips.mainchainTip = archive.sideTips.mainchainTip := by
    cases op with
    | handleBlockEvent event => exact absurd rfl (noEvent event)
    | putMainHeaderInfo info => rw [(steady.trees.addsMainHeader names ok).sideTips]
    | putMainBlockInfo m blockInfo => rw [(steady.trees.addsMainInfo names ok).sideTips]
    | putHeader header => rw [(steady.trees.addsHeader names ok).sideTips]
    | putBody b body => exact putBodyTip ok
    | deleteBody b => exact deleteBodyTip ok
  rw [mainTip,mainTip,tip]

theorem TaskKept.step {step : TaskStep} (kept : TaskKept lib world task) (names : step.Names lib world) :
    TaskKept lib world (step.apply lib task) := by
  cases step with
  | request mainHash oneshot => exact kept.add kept.filled addedRefl
  | start chainTip enforcers =>
      unfold TaskStep.apply
      dsimp only
      split
      · exact kept
      · exact kept.start names
  | blockEvent event =>
      unfold TaskStep.apply
      dsimp only
      split
      · exact kept.blockEvent names
      · exact kept
  | serve enforcers listening =>
      unfold TaskStep.apply
      dsimp only
      split
      · exact kept.serve names
      · exact kept
  | stop => exact kept.add kept.filled addedRefl
  | other op =>
      obtain ⟨op,other,noEvent⟩ := op
      unfold TaskStep.apply
      dsimp only
      split
      · next archive applied =>
          have steady := kept.filled.steady
          exact kept.grow ⟨steady.step names applied,NetTask.stepComplete kept.filled.complete other applied⟩
            (steady.trees.stepGrown names applied).mainHeaders (otherTip steady names noEvent applied)
      · exact kept

theorem TaskKept.new : TaskKept lib world (.new F) := by
  refine ⟨⟨.new,fun m has => (by cases has)⟩,.here,fun m answered => ?_⟩
  rcases answered with sent | told
  · cases sent
  · cases told

theorem TaskKept.run (kept : TaskKept lib world task) (names : ∀ step ∈ steps, step.Names lib world) :
    TaskKept lib world (steps.foldl (TaskStep.apply lib) task) := by
  induction steps generalizing task with
  | nil => exact kept
  | cons step steps ih =>
      obtain ⟨first,later⟩ := List.forall_mem_cons.mp names
      exact ih (kept.step first) later

theorem runTaskKept (names : ∀ step ∈ steps, step.Names lib world) : TaskKept lib world (runTask lib steps) :=
  TaskKept.new.run names

def lineEnforcer (line : List MainBlock) : Enforcer := fun m maxAncestors =>
  .ok ((line.dropWhile (fun block => block.1.blockHash ≠ m)).take (maxAncestors + 1))

theorem lineAnswers {line : List MainBlock} (names : NamesBlocks world line) : (lineEnforcer line).Answers world := by
  intro m maxAncestors blocks answered
  cases answered
  refine ⟨fun block mem => names block ((List.dropWhile_sublist _).mem (List.mem_of_mem_take mem)),fun block isHead => ?_⟩
  rw [List.head?_take,if_neg (Nat.succ_ne_zero _)] at isHead
  have stops := List.head?_dropWhile_not (fun block : MainBlock => decide (block.1.blockHash ≠ m)) line
  rw [isHead] at stops
  simpa using stops

theorem lineServes {line : List MainBlock} (apart : (line.map (·.1.blockHash)).Nodup) : (lineEnforcer line).Serves line := by
  rintro before head after rfl maxAncestors
  rw [List.map_append,List.map_cons] at apart
  have unseen : ∀ block ∈ before, decide (block.1.blockHash ≠ head.1.blockHash) = true := by
    intro block mem
    refine decide_eq_true (fun same => ?_)
    have twice := (List.nodup_append.mp apart).2.2 _ (List.mem_map_of_mem mem) _ List.mem_cons_self
    exact twice same
  rw [lineEnforcer,List.dropWhile_append_of_pos unseen,List.dropWhile_cons_of_neg (by simp),List.take_succ_cons]

def worldBlock (world : World) (m : MainHash) : MainBlock := (world.mainHeader m,world.mainInfo m)

def plainWorld : World := NetTask.chainWorld [] []

def twoBlocks : List MainBlock := [worldBlock plainWorld 2,worldBlock plainWorld 1]

def twoBlocksFollowed : List TaskStep :=
  [.start 1 [lineEnforcer twoBlocks],
    .blockEvent (.connectBlock (plainWorld.mainHeader 2) (plainWorld.mainInfo 2)),.blockEvent (.disconnectBlock 2),
    .request 2 false]

theorem twoBlocksNamed : NamesBlocks plainWorld twoBlocks := by
  refine List.forall_mem_cons.mpr ⟨?_,List.forall_mem_singleton.mpr ?_⟩
  · exact ⟨⟨rfl,by decide⟩,rfl⟩
  · exact ⟨⟨rfl,by decide⟩,rfl⟩

theorem twoBlocksNames : ∀ step ∈ twoBlocksFollowed, step.Names Reference.externals plainWorld := by
  have honest : (lineEnforcer twoBlocks).Answers plainWorld := lineAnswers twoBlocksNamed
  refine List.forall_mem_cons.mpr ⟨List.forall_mem_singleton.mpr honest,List.forall_mem_cons.mpr ⟨?_,?_⟩⟩
  · exact ⟨⟨rfl,by decide⟩,rfl⟩
  · exact List.forall_mem_cons.mpr ⟨trivial,List.forall_mem_singleton.mpr trivial⟩

/- The archive has no gap: a stored header's contents and its parent are stored, and so is what was answered to be. -/
theorem leavesNoGap (names : ∀ step ∈ steps, step.Names lib world) :
    (∀ m info, (runTask lib steps).archive.mainHeaderInfos.tryGet m = some info →
      (runTask lib steps).archive.mainBlockInfos.tryGet m = some (world.mainInfo m) ∧
      knownBelow (runTask lib steps).archive info.prevBlockHash = true) ∧
    ∀ m, Answered (runTask lib steps) m → knownBelow (runTask lib steps).archive m = true := by
  have kept := runTaskKept names
  have trees := kept.filled.steady.trees
  refine ⟨fun m info stored => ⟨?_,trees.main.prevKnown stored⟩,fun m answered => knownIff.mpr (kept.answered m answered)⟩
  obtain ⟨contents,found⟩ := Option.isSome_iff_exists.mp (kept.filled.complete m (Option.isSome_iff_exists.mpr ⟨info,stored⟩))
  rw [found,trees.infos.named found]

theorem twoBlocksLeaveNoGap :
    (∀ m info, (runTask Reference.externals twoBlocksFollowed).archive.mainHeaderInfos.tryGet m = some info →
      (runTask Reference.externals twoBlocksFollowed).archive.mainBlockInfos.tryGet m =
        some (plainWorld.mainInfo m) ∧
      knownBelow (runTask Reference.externals twoBlocksFollowed).archive info.prevBlockHash = true) ∧
    ∀ m, Answered (runTask Reference.externals twoBlocksFollowed) m →
      knownBelow (runTask Reference.externals twoBlocksFollowed).archive m = true := leavesNoGap twoBlocksNames

theorem eventsFollowTip (names : ∀ step ∈ steps, step.Names lib world) :
    Heard (runTask lib steps).archive MainHash.allZeros (blocksSent (runTask lib steps).events)
      (runTask lib steps).archive.mainTip := (runTaskKept names).followed

theorem twoBlocksHeard :
    Heard (runTask Reference.externals twoBlocksFollowed).archive MainHash.allZeros
      (blocksSent (runTask Reference.externals twoBlocksFollowed).events)
      (runTask Reference.externals twoBlocksFollowed).archive.mainTip ∧
    (blocksSent (runTask Reference.externals twoBlocksFollowed).events).length = 3 ∧
    (runTask Reference.externals twoBlocksFollowed).archive.mainTip = 1 :=
  ⟨eventsFollowTip twoBlocksNames,by decide +kernel,by decide +kernel⟩

/- What the main-chain node has, a request brings in whole, in as many calls as it takes. -/
theorem servesRequests {line : List MainBlock} {later : List (MainHash × Bool)} {oneshot : Bool}
    (names : ∀ step ∈ steps, step.Names lib world) (running : (runTask lib steps).running = true)
    (queued : (runTask lib steps).requests = (m,oneshot) :: later) (back : BackFrom m line) (holds : NamesBlocks world line)
    (serves : ∀ enforcer ∈ enforcers, enforcer.Serves line) (enough : line.length ≤ batchRequestSize * enforcers.length) :
    Answered (runTask lib (steps ++ [.serve enforcers true])) m ∧
      ∀ block ∈ line, MainStored (runTask lib (steps ++ [.serve enforcers true])).archive block.1.blockHash := by
  obtain ⟨archive,requested,stored⟩ := requestReaches (runTaskKept names).filled back holds serves enough
  have next : runTask lib (steps ++ [.serve enforcers true]) =
      { runTask lib steps with archive, requests := later }.respond m oneshot true (.ok true) := by
    rw [runTask,List.foldl_append]
    show TaskStep.apply lib (runTask lib steps) (.serve enforcers true) = _
    simp only [TaskStep.apply,if_pos running,MainchainTask.serve,queued,requested]
  rw [next]
  cases oneshot with
  | true => exact ⟨.inr (List.mem_append_right _ (List.mem_singleton.mpr rfl)),stored⟩
  | false => exact ⟨.inl (List.mem_append_right _ (List.mem_singleton.mpr rfl)),stored⟩

theorem twoBlocksServed :
    Answered (runTask Reference.externals (twoBlocksFollowed ++ [.serve [lineEnforcer twoBlocks] true])) 2 ∧
      ∀ block ∈ twoBlocks, MainStored (runTask Reference.externals
        (twoBlocksFollowed ++ [.serve [lineEnforcer twoBlocks] true])).archive block.1.blockHash := by
  have below : BackFrom 1 [worldBlock plainWorld 1] := @BackFrom.block (worldBlock plainWorld 1) [] .first
  have back : BackFrom 2 twoBlocks := @BackFrom.block (worldBlock plainWorld 2) [worldBlock plainWorld 1] below
  have serves : ∀ enforcer ∈ [lineEnforcer twoBlocks], enforcer.Serves twoBlocks :=
    List.forall_mem_singleton.mpr (lineServes (by decide +kernel))
  have queued : (runTask Reference.externals twoBlocksFollowed).requests = [(2,false)] := by decide +kernel
  exact servesRequests twoBlocksNames (by decide +kernel) queued back twoBlocksNamed serves (by decide)

end Runs

end Coinshift
