import Coinshift.ArchiveRuns
import Coinshift.Provenance
import Coinshift.SwapLifecycle

/-! The rescan of the chain for its swaps.
It goes over the stored blocks from the first one on and repeats what they did to the swap tables, with the coins
of the tip at hand and on top of the tables that are there. -/
namespace Coinshift
open Checked Lineage SwapTables

variable {F : Type}

inductive RescanError where
  | tipHeight (source : ArchiveError)
  | header (source : ArchiveError)
  | body (source : ArchiveError)
  | state (source : Error)
  deriving DecidableEq, Repr

section Rescan

variable (lib : Externals F)

/- The record a creation is given back: without an expiry. -/
def Swap.rescanned (create : SwapCreate) (height : Nat) (creator : Option Address) : Swap :=
  Swap.new create.swapId .l2ToL1 create.parentChain (SwapTxId.fromBytes create.l1TxidBytes)
    (some create.requiredConfirmations) create.l2Recipient (Amount.fromSat create.l2Amount)
    create.l1RecipientAddress (Amount.fromSat create.l1Amount) height none creator

@[simp] theorem Swap.rescannedId {create : SwapCreate} {height : Nat} {creator : Option Address} :
    (Swap.rescanned create height creator).id = create.swapId := rfl

def rescanSwap (height : Nat) (acc : SwapTables × Nat) (filled : FilledTransaction) : Except Error (SwapTables × Nat) :=
  let w := acc.1
  match filled.transaction.data with
  | .swapCreate create => do
      let swap := Swap.rescanned create height (filled.spentUtxos.head?.map (·.address))
      let locked := (filled.transaction.escrowOutpoints lib create.swapId).foldl (lockIfUnlocked create.swapId) w
      let saved ← locked.trySaveSwap swap
      pure (saved,acc.2 + 1)
  | .swapClaim swapId _ _ =>
      match w.getSwap swapId with
      | some swap =>
          let unlocked := (filled.transaction.inputs.map (·.1)).foldl (unlockIfLockedTo swapId) w
          pure (unlocked.saveSwap swap.markCompleted,acc.2)
      | none => pure acc
  | .swapAccept swapId l2ClaimerAddress =>
      pure (if (w.getSwap swapId).isSome then (w.reserveSwap swapId l2ClaimerAddress height,acc.2) else acc)
  | .regular => pure acc

/- The inputs are looked up among the coins of the tip. -/
def rescanTransaction (s : State F) (height : Nat) (acc : SwapTables × Nat) (tx : Transaction) :
    Except RescanError (SwapTables × Nat) := do
  let filled ← (fillTransaction s tx).mapError .state
  (rescanSwap lib height acc filled).mapError .state

def rescanBlock (s : State F) (archive : Archive F) (acc : SwapTables × Nat) (block : BlockHash × Nat) :
    Except RescanError (SwapTables × Nat) := do
  let _ ← (archive.getHeader block.1).mapError .header
  let body ← (archive.getBody block.1).mapError .body
  body.transactions.foldlM (rescanTransaction lib s block.2) acc

def blockHashes (archive : Archive F) (tip : BlockHash) : Except ArchiveError (List BlockHash) :=
  archive.ancestorsUntil (fun _ => false) (fun b => .ok (some b)) tip

def reconstructSwapsFromBlockchain (s : State F) (archive : Archive F) (tipHash : Option BlockHash) :
    Except RescanError (State F × Nat) :=
  match tipHash.or s.tip with
  | none => pure (s,0)
  | some tip => do
      let _ ← (archive.getHeight tip).mapError .tipHeight
      let hashes ← (blockHashes archive tip).mapError .header
      let result ← hashes.reverse.zipIdx.foldlM (rescanBlock lib s archive) (s.toSwapTables,0)
      pure ({ s with toSwapTables := result.1 },result.2)

end Rescan

variable {lib : Externals F} {ctxt : BatchVerificationContext} {s t last : State F} {steps : List (Step F)}
  {archive : Archive F} {blocks : List Block} {tip : Option BlockHash} {swapId : SwapId}

section Chain

def Step.block? : Step F → Option Block
  | .connect header body => some (header,body)
  | _ => none

def connectedBlocks (steps : List (Step F)) : List Block := steps.filterMap Step.block?

theorem memConnectedBlocks {header : Header} {body : Body} :
    (header,body) ∈ connectedBlocks steps ↔ Step.connect header body ∈ steps := by
  simp only [connectedBlocks,List.mem_filterMap]
  constructor
  · rintro ⟨step,mem,isBlock⟩
    cases step with
    | connect =>
        cases isBlock
        exact mem
    | _ => cases isBlock
  · exact fun mem => ⟨_,mem,rfl⟩

inductive ChainTo (lib : Externals F) : List Block → Option BlockHash → Prop
  | start : ChainTo lib [] none
  | next {blocks tip header body} (before : ChainTo lib blocks tip) (follows : header.prevSideHash = tip) :
      ChainTo lib (blocks ++ [(header,body)]) (some (header.hash lib))

theorem runChain (forward : ∀ step ∈ steps, step.isForward = true) (ok : run lib ctxt steps (State.new F) = .ok last) :
    ChainTo lib (connectedBlocks steps) last.tip := by
  refine historyInvariant (P := fun steps s => ChainTo lib (connectedBlocks steps) s.tip) .start ?_ ok
  intro earlier s x t later split _ applied chain
  have isForward := forward x (split ▸ List.mem_append_right earlier List.mem_cons_self)
  have appended : connectedBlocks (earlier ++ [x]) = connectedBlocks earlier ++ connectedBlocks [x] :=
    List.filterMap_append
  rw [appended]
  cases x with
  | connect header body =>
      obtain ⟨pre,source⟩ := connectBlockSource applied
      rw [source.connected.tip]
      exact .next chain source.validated.parent
  | connectPeg data rpc =>
      rw [(connectPegSource applied).tip]
      exact (List.append_nil _).symm ▸ chain
  | localOp op =>
      simp only [Step.apply,bindOk,pureOk] at applied
      obtain ⟨w,_,rfl⟩ := applied
      exact (List.append_nil _).symm ▸ chain
  | _ => cases isForward

structure Stores (lib : Externals F) (archive : Archive F) (blocks : List Block) : Prop where
  header : ∀ {header body}, (header,body) ∈ blocks → archive.headers.tryGet (header.hash lib) = some header
  body : ∀ {header body}, (header,body) ∈ blocks → archive.bodies.tryGet (header.hash lib) = some body
  height : ∀ {header body}, (header,body) ∈ blocks → ∃ h, archive.blockHashToHeight.tryGet (header.hash lib) = some h

theorem Stores.before {more : List Block} (stores : Stores lib archive (blocks ++ more)) : Stores lib archive blocks :=
  ⟨fun mem => stores.header (List.mem_append_left _ mem),fun mem => stores.body (List.mem_append_left _ mem),
    fun mem => stores.height (List.mem_append_left _ mem)⟩

inductive Depth (archive : Archive F) : BlockHash → Nat → Prop
  | first {b header} (stored : archive.headers.tryGet b = some header) (none : header.prevSideHash = none) :
      Depth archive b 0
  | next {b header p n} (stored : archive.headers.tryGet b = some header) (some : header.prevSideHash = some p)
      (before : Depth archive p n) : Depth archive b (n + 1)

theorem Depth.unique {b : BlockHash} {m n : Nat} (one : Depth archive b m) (other : Depth archive b n) : m = n := by
  induction one generalizing n with
  | first stored none =>
      cases other with
      | first => rfl
      | next stored' some =>
          cases stored.symm.trans stored'
          cases none.symm.trans some
  | next stored some before ih =>
      cases other with
      | first stored' none =>
          cases stored.symm.trans stored'
          cases none.symm.trans some
      | next stored' some' before' =>
          cases stored.symm.trans stored'
          cases some.symm.trans some'
          exact congrArg Nat.succ (ih before')

def hashesOf (lib : Externals F) (blocks : List Block) : List BlockHash := blocks.map (fun block => block.1.hash lib)

/- No hash comes twice: each block has its own depth. -/
theorem ChainTo.depths (chain : ChainTo lib blocks tip) (stores : Stores lib archive blocks) :
    (hashesOf lib blocks).Nodup ∧ (∀ b ∈ hashesOf lib blocks, ∃ n < blocks.length, Depth archive b n) ∧
      ∀ b, tip = some b → ∃ n, n + 1 = blocks.length ∧ Depth archive b n := by
  induction chain with
  | start => simp [hashesOf]
  | @next blocks tip header body before follows ih =>
      obtain ⟨distinct,depths,tipDepth⟩ := ih stores.before
      have stored : archive.headers.tryGet (header.hash lib) = some header :=
        stores.header (List.mem_append_right blocks (List.mem_singleton_self (header,body)))
      have own : Depth archive (header.hash lib) blocks.length := by
        cases tip with
        | none =>
            cases before
            exact .first stored follows
        | some p =>
            obtain ⟨n,isLength,depth⟩ := tipDepth p rfl
            rw [← isLength]
            exact .next stored follows depth
      refine ⟨?_,?_,fun b isTip => ?_⟩
      · rw [hashesOf,List.map_append,List.nodup_append]
        refine ⟨distinct,List.nodup_singleton _,fun b mem c isNew same => ?_⟩
        obtain ⟨n,less,depth⟩ := depths b mem
        rw [same,List.mem_singleton.mp isNew] at depth
        exact Nat.lt_irrefl _ (depth.unique own ▸ less)
      · intro b mem
        rw [hashesOf,List.map_append,List.mem_append] at mem
        rw [List.length_append,List.length_singleton]
        rcases mem with old | new
        · obtain ⟨n,less,depth⟩ := depths b old
          exact ⟨n,Nat.lt_succ_of_lt less,depth⟩
        · rw [List.mem_singleton.mp new]
          exact ⟨_,Nat.lt_succ_self _,own⟩
      · cases isTip
        exact ⟨_,by simp,own⟩

theorem ChainTo.length (chain : ChainTo lib blocks tip) (stores : Stores lib archive blocks) :
    blocks.length ≤ archive.headers.entries.length := by
  have distinct := (chain.depths stores).1
  have inside : hashesOf lib blocks ⊆ archive.headers.entries.map (·.1) := by
    intro b mem
    obtain ⟨⟨header,body⟩,isBlock,rfl⟩ := List.mem_map.mp mem
    exact List.mem_map.mpr ⟨_,Table.memEntries.mpr (stores.header isBlock),rfl⟩
  simpa [hashesOf] using distinct.length_le_of_subset inside

theorem ChainTo.walk (chain : ChainTo lib blocks tip) (stores : Stores lib archive blocks) {fuel : Nat}
    (enough : blocks.length ≤ fuel) :
    walkUntil (fun b => (archive.getHeader b).map (·.prevSideHash)) (fun _ => false) (fun b => .ok (some b))
      ArchiveError.endless fuel tip = .ok (hashesOf lib blocks).reverse := by
  induction chain generalizing fuel with
  | start => cases fuel <;> rfl
  | @next blocks tip header body before follows ih =>
      rw [List.length_append,List.length_singleton] at enough
      obtain ⟨fuel,rfl⟩ := Nat.exists_eq_add_of_le' (Nat.lt_of_lt_of_le (Nat.succ_pos _) enough)
      have rest := ih stores.before (Nat.le_of_succ_le_succ enough)
      have stored : archive.headers.tryGet (header.hash lib) = some header :=
        stores.header (List.mem_append_right blocks (List.mem_singleton_self (header,body)))
      have isNext : (archive.getHeader (header.hash lib)).map (·.prevSideHash) = .ok tip := by
        rw [Archive.getHeader,stored,← follows]
        rfl
      rw [walkUntil,isNext]
      simp only [okBind]
      rw [if_neg Bool.false_ne_true,rest]
      simp [hashesOf,bind,Except.bind,pure,Except.pure]

end Chain

section Outcome

variable {acc acc' : SwapTables × Nat} {height : Nat}

theorem fillOk {tx : Transaction} : (∃ filled, fillTransaction s tx = .ok filled) ↔
    ∀ input ∈ tx.inputs, (s.utxos.tryGet input.1).isSome = true := by
  constructor
  · rintro ⟨filled,ok⟩ input mem
    obtain ⟨utxo,_,found⟩ := relatedLeft (fillSource ok).spent mem
    rw [found]
    rfl
  · intro present
    obtain ⟨spent,collected⟩ := collectTotal (f := fun input : OutPoint × Hash =>
      okOr (s.utxos.tryGet input.1) (Error.noUtxo input.1)) (fun input mem => by
        obtain ⟨utxo,found⟩ := Option.isSome_iff_exists.mp (present input mem)
        exact ⟨utxo,okOrOk.mpr found⟩)
    exact ⟨⟨tx,spent⟩,by rw [fillTransaction,collected]; rfl⟩

def Unexpiring (swapId : SwapId) (w : SwapTables) : Prop :=
  ∃ swap, w.getSwap swapId = some swap ∧ swap.expiresAtHeight = none

theorem rescanCreates {filled : FilledTransaction} {create : SwapCreate}
    (kind : filled.transaction.data = .swapCreate create) (ok : rescanSwap lib height acc filled = .ok acc') :
    Unexpiring create.swapId acc'.1 := by
  simp only [rescanSwap,kind,bindOk,trySaveOk,pureOk] at ok
  obtain ⟨_,⟨_,rfl⟩,rfl⟩ := ok
  exact ⟨_,by rw [getSwapSave,Swap.rescannedId,if_pos rfl],rfl⟩

theorem rescanUnexpiring {filled : FilledTransaction} (recorded : Unexpiring swapId acc.1)
    (ok : rescanSwap lib height acc filled = .ok acc') : Unexpiring swapId acc'.1 := by
  obtain ⟨swap,found,unexpiring⟩ := recorded
  cases kind : filled.transaction.data with
  | swapCreate create =>
      by_cases own : swapId = create.swapId
      · rw [own]
        exact rescanCreates kind ok
      · simp only [rescanSwap,kind,bindOk,trySaveOk,pureOk] at ok
        obtain ⟨_,⟨_,rfl⟩,rfl⟩ := ok
        obtain ⟨locks,same⟩ : ∃ locks, (filled.transaction.escrowOutpoints lib create.swapId).foldl
          (lockIfUnlocked create.swapId) acc.1 = { acc.1 with lockedSwapOutputs := locks } := lockIfEq
        refine ⟨swap,?_,unexpiring⟩
        rw [getSwapSave,Swap.rescannedId,if_neg own,same]
        exact found
  | swapClaim claimed declared proof =>
      simp only [rescanSwap,kind] at ok
      split at ok
      · next claimedSwap isClaimed =>
          cases pureOk.mp ok
          obtain ⟨locks,same⟩ : ∃ locks, (filled.transaction.inputs.map (·.1)).foldl (unlockIfLockedTo claimed) acc.1 =
            { acc.1 with lockedSwapOutputs := locks } := unlockIfEq
          by_cases own : swapId = claimed
          · subst own
            cases found.symm.trans isClaimed
            refine ⟨swap.markCompleted,?_,unexpiring⟩
            rw [getSwapSave]
            exact if_pos (getSwapId found).symm
          · have sameId : claimedSwap.id = claimed := getSwapId isClaimed
            refine ⟨swap,?_,unexpiring⟩
            rw [getSwapSave,same]
            exact (if_neg (fun here => own (here.trans sameId))).trans found
      · cases pureOk.mp ok
        exact ⟨swap,found,unexpiring⟩
  | swapAccept accepted claimer =>
      simp only [rescanSwap,kind,pureOk] at ok
      subst ok
      split
      · exact ⟨swap,found,unexpiring⟩
      · exact ⟨swap,found,unexpiring⟩
  | regular =>
      simp only [rescanSwap,kind,pureOk] at ok
      subst ok
      exact ⟨swap,found,unexpiring⟩

theorem rescanIdle {filled : FilledTransaction} (empty : ∀ swapId, acc.1.getSwap swapId = none)
    (creates : filled.transaction.createdId = none) : rescanSwap lib height acc filled = .ok acc := by
  cases kind : filled.transaction.data with
  | swapCreate create => simp [Transaction.createdId,kind] at creates
  | swapClaim claimed declared proof => simp only [rescanSwap,kind,empty claimed,pure,Except.pure]
  | swapAccept accepted claimer => simp [rescanSwap,kind,empty accepted,pure,Except.pure]
  | regular => simp only [rescanSwap,kind,pure,Except.pure]

theorem rescanTransactionOk {tx : Transaction} : rescanTransaction lib s height acc tx = .ok acc' ↔
    ∃ filled, fillTransaction s tx = .ok filled ∧ rescanSwap lib height acc filled = .ok acc' := by
  simp only [rescanTransaction,bindOk,mapErrorOk]

theorem Stores.rescanBlock (stores : Stores lib archive blocks) {header : Header} {body : Body}
    (mem : (header,body) ∈ blocks) : Coinshift.rescanBlock lib s archive acc (header.hash lib,height) =
      body.transactions.foldlM (rescanTransaction lib s height) acc := by
  rw [Coinshift.rescanBlock,Archive.getHeader,Archive.getBody,stores.header mem,stores.body mem]
  rfl

theorem ChainTo.rescan (chain : ChainTo lib blocks s.tip) (stores : Stores lib archive blocks) {tipHash : Option BlockHash}
    (atTip : tipHash = none ∨ tipHash = s.tip) {count : Nat} :
    reconstructSwapsFromBlockchain lib s archive tipHash = .ok (t,count) ↔ ∃ w,
      (hashesOf lib blocks).zipIdx.foldlM (Coinshift.rescanBlock lib s archive) (s.toSwapTables,0) = .ok (w,count) ∧
        t = { s with toSwapTables := w } := by
  have isTip : tipHash.or s.tip = s.tip := by
    rcases atTip with rfl | rfl
    · rfl
    · cases s.tip <;> rfl
  rw [reconstructSwapsFromBlockchain,isTip]
  split
  · next noTip =>
      rw [noTip] at chain
      cases chain
      simp only [pureOk,Prod.mk.injEq,hashesOf,List.map_nil,List.zipIdx_nil,List.foldlM_nil]
      constructor
      · rintro ⟨rfl,rfl⟩
        exact ⟨s.toSwapTables,⟨rfl,rfl⟩,rfl⟩
      · rintro ⟨w,⟨rfl,rfl⟩,rfl⟩
        exact ⟨rfl,rfl⟩
  · next tip hasTip =>
      rw [hasTip] at chain
      have walked : blockHashes archive tip = .ok (hashesOf lib blocks).reverse :=
        chain.walk stores (chain.length stores)
      have height : ∃ h, archive.getHeight tip = .ok h := by
        cases chain with
        | next before follows =>
            obtain ⟨h,known⟩ := stores.height (List.mem_append_right _ (List.mem_singleton_self _))
            exact ⟨h,okOrOk.mpr known⟩
      obtain ⟨h,known⟩ := height
      simp only [known,walked,bindOk,mapErrorOk,pureOk,Except.ok.injEq,exists_eq_left',List.reverse_reverse,Prod.mk.injEq]
      constructor
      · rintro ⟨⟨w,n⟩,folded,rfl,rfl⟩
        exact ⟨w,folded,rfl⟩
      · rintro ⟨w,folded,rfl⟩
        exact ⟨(w,count),folded,rfl,rfl⟩

end Outcome

section Replay

structure SwapOrigin where
  id : SwapId
  parentChain : ParentChainType
  l2Recipient : Option Address
  l1RecipientAddress : Text
  l2Amount : Amount
  l1Amount : Amount
  createdAtHeight : Nat
  expiresAtHeight : Option Nat
  l2CreatorAddress : Option Address
  deriving DecidableEq, Repr

def Swap.origin (swap : Swap) : SwapOrigin where
  id := swap.id
  parentChain := swap.parentChain
  l2Recipient := swap.l2Recipient
  l1RecipientAddress := swap.l1RecipientAddress
  l2Amount := swap.l2Amount
  l1Amount := swap.l1Amount
  createdAtHeight := swap.createdAtHeight
  expiresAtHeight := swap.expiresAtHeight
  l2CreatorAddress := swap.l2CreatorAddress

structure SameSwaps (s t : State F) : Prop where
  records : ∀ swapId, (t.getSwap swapId).map Swap.origin = (s.getSwap swapId).map Swap.origin
  locks : t.lockedSwapOutputs = s.lockedSwapOutputs
  reservations : t.swapReservations = s.swapReservations

def AllExpire (w : SwapTables) : Prop := ∀ swapId swap, w.getSwap swapId = some swap → swap.expiresAtHeight.isSome = true

theorem AllExpire.same {w w' : SwapTables} (all : AllExpire w) (same : SameTerms w.getSwap w'.getSwap) : AllExpire w' := by
  intro swapId swap recorded
  have terms := same swapId
  rw [recorded] at terms
  obtain ⟨before,found,isSame⟩ := Option.map_eq_some_iff.mp terms.symm
  have expiry : before.expiresAtHeight = swap.expiresAtHeight := congrArg SwapTerms.expiresAtHeight isSame
  rw [← expiry]
  exact all swapId before found

theorem AllExpire.connectSwap {w w' : SwapTables} {height : Nat} {f : FilledTransaction} (all : AllExpire w)
    (ok : Coinshift.connectSwap lib height w f = .ok w') : AllExpire w' := by
  intro swapId swap recorded
  rw [(connectSwapEffect ok).2.2.1] at recorded
  unfold recordsAfter at recorded
  split at recorded
  · split at recorded
    · cases recorded
      rfl
    · exact all swapId swap recorded
  · split at recorded
    · obtain ⟨before,found,rfl⟩ := Option.map_eq_some_iff.mp recorded
      exact all swapId before found
    · exact all swapId swap recorded
  · exact all swapId swap recorded

theorem runAllExpire (forward : ∀ step ∈ steps, step.isForward = true) (ok : run lib ctxt steps (State.new F) = .ok last) :
    AllExpire last.toSwapTables := by
  refine runInvariant (P := fun s => AllExpire s.toSwapTables) ?_ ?_ ok
  · intro s step t mem all applied
    have isForward := forward step mem
    cases step with
    | connect header body =>
        obtain ⟨pre,source⟩ := connectBlockSource applied
        exact foldInvariant (P := AllExpire) (fun _ _ _ _ before step => before.connectSwap step) all source.connected.swaps
    | connectPeg data rpc =>
        obtain ⟨height,_,effect⟩ := (connectPegSource applied).effect
        exact all.same effect.sameTerms
    | localOp op =>
        simp only [Step.apply,bindOk,pureOk] at applied
        obtain ⟨w,applied,rfl⟩ := applied
        exact all.same (localOpKeeps applied).2
    | _ => cases isForward
  · intro swapId swap recorded
    simp [State.new,getSwap,SwapRecords.empty] at recorded

theorem sameRecorded {before now : SwapId → Option Swap} (same : SameTerms before now) :
    (now swapId).isSome = (before swapId).isSome := by
  have terms := congrArg Option.isSome (same swapId)
  rwa [Option.isSome_map,Option.isSome_map] at terms

theorem runRecords (forward : ∀ step ∈ steps, step.isForward = true) (ok : run lib ctxt steps (State.new F) = .ok last) :
    (last.getSwap swapId).isSome = true ↔ swapId ∈ createdIds (transactionsOf steps) := by
  refine historyInvariant (P := fun steps s => (s.getSwap swapId).isSome = true ↔
    swapId ∈ createdIds (transactionsOf steps)) ?_ ?_ ok
  · simp [State.new,getSwap,SwapRecords.empty,transactionsOf,createdIds]
  · intro earlier s x t later split _ applied known
    have isForward := forward x (split ▸ List.mem_append_right earlier List.mem_cons_self)
    rw [transactionsOfAppend,createdIds,List.filterMap_append,List.mem_append]
    cases x with
    | connect header body =>
        obtain ⟨pre,source⟩ := connectBlockSource applied
        rw [recordedAfterAll source.connected.swaps,known,filledTransactions source.validated.transactions]
        simp [transactionsOf,Step.transactions,createdIds]
    | connectPeg data rpc =>
        obtain ⟨height,_,effect⟩ := (connectPegSource applied).effect
        rw [sameRecorded effect.sameTerms,known]
        simp [transactionsOf,Step.transactions,createdIds]
    | localOp op =>
        simp only [Step.apply,bindOk,pureOk] at applied
        obtain ⟨w,applied,rfl⟩ := applied
        rw [sameRecorded (localOpKeeps applied).2,known]
        simp [transactionsOf,Step.transactions,createdIds]
    | _ => cases isForward

theorem rescanBlockUnexpiring {acc acc' : SwapTables × Nat} {block : BlockHash × Nat}
    (recorded : Unexpiring swapId acc.1) (ok : rescanBlock lib s archive acc block = .ok acc') :
    Unexpiring swapId acc'.1 := by
  simp only [rescanBlock,bindOk] at ok
  obtain ⟨_,_,body,_,folded⟩ := ok
  refine foldInvariant (P := fun acc => Unexpiring swapId acc.1) ?_ recorded folded
  intro acc tx next _ before applied
  obtain ⟨filled,_,rescanned⟩ := rescanTransactionOk.mp applied
  exact rescanUnexpiring before rescanned

/- The rescan leaves what connection left if and only if no transaction of the chain created a swap and everything
they spent is there again: it gives creations no expiry, and looks spent coins up among the unspent ones. -/
theorem rescanReplaysIff {tipHash : Option BlockHash} (forward : ∀ step ∈ steps, step.isForward = true)
    (ok : run lib ctxt steps (State.new F) = .ok last) (stores : Stores lib archive (connectedBlocks steps))
    (atTip : tipHash = none ∨ tipHash = last.tip) :
    (∃ t count, reconstructSwapsFromBlockchain lib last archive tipHash = .ok (t,count) ∧ SameSwaps last t) ↔
      ∀ tx ∈ transactionsOf steps, tx.createdId = none ∧
        ∀ input ∈ tx.inputs, (last.utxos.tryGet input.1).isSome = true := by
  have chain := runChain forward ok
  constructor
  · rintro ⟨t,count,rescanned,same⟩ tx mem
    obtain ⟨w,folded,rfl⟩ := (chain.rescan stores atTip).mp rescanned
    obtain ⟨header,body,isStep,inside⟩ := memTransactionsOf.mp mem
    have isBlock : (header,body) ∈ connectedBlocks steps := memConnectedBlocks.mpr isStep
    obtain ⟨i,found⟩ : ∃ i, (header.hash lib,i) ∈ (hashesOf lib (connectedBlocks steps)).zipIdx := by
      obtain ⟨i,isAt⟩ := List.mem_iff_getElem?.mp (List.mem_map.mpr ⟨(header,body),isBlock,rfl⟩ :
        header.hash lib ∈ hashesOf lib (connectedBlocks steps))
      exact ⟨i,List.mk_mem_zipIdx_iff_getElem?.mpr isAt⟩
    constructor
    · cases created : tx.createdId with
      | none => rfl
      | some swapId =>
          obtain ⟨create,kind,rfl⟩ := createdIdSome.mp created
          have unexpiring : Unexpiring create.swapId w := by
            refine foldEstablished (P := fun acc => Unexpiring create.swapId acc.1) found ?_
              (fun _ _ _ => rescanBlockUnexpiring) folded
            intro u v applied
            rw [stores.rescanBlock isBlock] at applied
            refine foldEstablished (P := fun acc => Unexpiring create.swapId acc.1) inside ?_ ?_ applied
            · intro u v applied
              obtain ⟨filled,fill,scanned⟩ := rescanTransactionOk.mp applied
              exact rescanCreates ((fillSource fill).transaction ▸ kind) scanned
            · intro u other v before applied
              obtain ⟨filled,_,scanned⟩ := rescanTransactionOk.mp applied
              exact rescanUnexpiring before scanned
          obtain ⟨swap,recorded,none⟩ := unexpiring
          have origins : (w.getSwap create.swapId).map Swap.origin = (last.getSwap create.swapId).map Swap.origin :=
            same.records create.swapId
          rw [recorded] at origins
          obtain ⟨replayed,isRecorded,isSame⟩ := Option.map_eq_some_iff.mp origins.symm
          have expires := runAllExpire forward ok create.swapId replayed isRecorded
          have expiry : replayed.expiresAtHeight = swap.expiresAtHeight := congrArg SwapOrigin.expiresAtHeight isSame
          rw [expiry,none] at expires
          cases expires
    · obtain ⟨u,v,applied⟩ := foldApplied found folded
      rw [stores.rescanBlock isBlock] at applied
      obtain ⟨u,v,applied⟩ := foldApplied inside applied
      obtain ⟨filled,fill,_⟩ := rescanTransactionOk.mp applied
      exact fillOk.mp ⟨filled,fill⟩
  · intro condition
    have empty (swapId : SwapId) : last.getSwap swapId = none := by
      rw [← Option.not_isSome_iff_eq_none,runRecords forward ok,createdIds,List.mem_filterMap]
      rintro ⟨tx,mem,created⟩
      rw [(condition tx mem).1] at created
      cases created
    refine ⟨last,0,(chain.rescan stores atTip).mpr ⟨last.toSwapTables,foldIdle ?_,rfl⟩,fun _ => rfl,rfl,rfl⟩
    rintro ⟨b,i⟩ mem
    obtain ⟨⟨header,body⟩,isBlock,rfl⟩ := List.mem_map.mp (List.fst_mem_of_mem_zipIdx mem)
    rw [stores.rescanBlock isBlock]
    refine foldIdle (fun tx inside => rescanTransactionOk.mpr ?_)
    have isMem : tx ∈ transactionsOf steps := memTransactionsOf.mpr ⟨header,body,memConnectedBlocks.mp isBlock,inside⟩
    obtain ⟨filled,fill⟩ := fillOk.mpr (condition tx isMem).2
    refine ⟨filled,fill,rescanIdle empty ?_⟩
    rw [(fillSource fill).transaction]
    exact (condition tx isMem).1

end Replay

section Example

open Reference

def storeOps (steps : List (Step Forest)) : List ArchiveOp :=
  (connectedBlocks steps).flatMap (fun block => [.putHeader block.1,.putBody (block.1.hash externals) block.2])

def storesCheck (archive : Archive Forest) (blocks : List Block) : Bool :=
  blocks.all (fun block => archive.headers.tryGet (block.1.hash externals) = some block.1 &&
    (archive.bodies.tryGet (block.1.hash externals) = some block.2 &&
      (archive.blockHashToHeight.tryGet (block.1.hash externals)).isSome))

theorem storesCheckSound {archive : Archive Forest} (checked : storesCheck archive blocks = true) :
    Stores externals archive blocks := by
  have each {header : Header} {body : Body} (mem : (header,body) ∈ blocks) := List.all_eq_true.mp checked _ mem
  simp only [Bool.and_eq_true,decide_eq_true_eq] at each
  exact ⟨fun mem => (each mem).1,fun mem => (each mem).2.1,fun mem => Option.isSome_iff_exists.mp (each mem).2.2⟩

def playsStored (script : List Move) (check : List (Step Forest) → State Forest → Archive Forest → Bool) : Bool :=
  plays script (fun steps s => steps.all Step.isForward && runsTo externals (storeOps steps) (fun archive =>
    storesCheck archive (connectedBlocks steps) && check steps s archive))

theorem playsStoredRun {script : List Move} {check : List (Step Forest) → State Forest → Archive Forest → Bool}
    (played : playsStored script check = true) : ∃ (steps : List (Step Forest)) (last : State Forest) (archive : Archive Forest),
      (∀ step ∈ steps, step.isForward = true) ∧ run externals context steps (State.new Forest) = .ok last ∧
      Stores externals archive (connectedBlocks steps) ∧ check steps last archive = true := by
  obtain ⟨steps,last,ran,checked⟩ := playsRun played
  obtain ⟨forward,stored⟩ := Bool.and_eq_true_iff.mp checked
  obtain ⟨archive,_,holds⟩ := runsToRun stored
  obtain ⟨stores,passed⟩ := Bool.and_eq_true_iff.mp holds
  exact ⟨steps,last,archive,List.all_eq_true.mp forward,ran,storesCheckSound stores,passed⟩

theorem rescanFails : ∃ (steps : List (Step Forest)) (last : State Forest) (archive : Archive Forest),
    (∀ step ∈ steps, step.isForward = true) ∧ run externals context steps (State.new Forest) = .ok last ∧
      Stores externals archive (connectedBlocks steps) ∧ ¬ ∃ t count,
        reconstructSwapsFromBlockchain externals last archive none = .ok (t,count) ∧ SameSwaps last t := by
  have played : playsStored (funded ++ [grow [(createNamed,[alice])]]) (fun _ s archive =>
      !(reconstructSwapsFromBlockchain externals s archive none).isOk) = true := by decide +kernel
  obtain ⟨steps,last,archive,forward,ran,stores,failed⟩ := playsStoredRun played
  refine ⟨steps,last,archive,forward,ran,stores,?_⟩
  rintro ⟨t,count,rescanned,_⟩
  rw [rescanned] at failed
  cases failed

def idle : Transaction := transaction [] [] .regular

theorem rescanReplaysIdle : ∃ (steps : List (Step Forest)) (last : State Forest) (archive : Archive Forest),
    idle ∈ transactionsOf steps ∧ run externals context steps (State.new Forest) = .ok last ∧ ∃ t count,
      reconstructSwapsFromBlockchain externals last archive none = .ok (t,count) ∧ SameSwaps last t := by
  have played : playsStored (funded ++ [grow [(idle,[])]]) (fun steps _ _ => transactionsOf steps = [idle]) = true := by
    decide +kernel
  obtain ⟨steps,last,archive,forward,ran,stores,only⟩ := playsStoredRun played
  rw [decide_eq_true_eq] at only
  refine ⟨steps,last,archive,by simp [only],ran,(rescanReplaysIff forward ran stores (.inl rfl)).mpr ?_⟩
  intro tx mem
  rw [only,List.mem_singleton] at mem
  subst mem
  exact ⟨rfl,fun input isInput => (nomatch isInput)⟩

end Example

end Coinshift
