import Coinshift.BlockEffects
import Coinshift.Reference

/-! When an accepted block connects.
Coins never stand in the way: inputs are distinct and unspent in the state before the block.
Swaps do in two cases: a claim of an open swap that declares no claimer, and a creation whose parent-chain
transaction id is too long for a key of the database. -/
namespace Coinshift
open Checked

variable {F : Type} {lib : Externals F} {ctxt : BatchVerificationContext} {s : State F}
  {header : Header} {body : Body} {pre : PrevalidatedBlock} {height : Nat}

def OpenClaimsDeclare (s : State F) (body : Body) : Prop :=
  ∀ tx ∈ body.transactions, ∀ swapId proof, tx.data = .swapClaim swapId none proof →
    ∀ swap, s.getSwap swapId = some swap → swap.l2Recipient ≠ none

def CreatesFit (body : Body) : Prop := ∀ tx ∈ body.transactions, CreateFits tx

theorem inputsPresent {txs : List Transaction} {filled : List FilledTransaction}
    (each : List.Forall₂ (TransactionSource lib s) txs filled) {o : OutPoint}
    (spent : o ∈ txs.flatMap (fun tx => tx.inputs.map (·.1))) : (s.utxos.tryGet o).isSome := by
  obtain ⟨tx,mem,isInput⟩ := List.mem_flatMap.mp spent
  obtain ⟨input,inside,rfl⟩ := List.mem_map.mp isInput
  obtain ⟨f,_,source⟩ := relatedLeft each mem
  obtain ⟨utxo,_,found⟩ := relatedLeft source.fill.spent inside
  simp [found]

theorem inputsNotWithdrawn {txs : List Transaction} {filled : List FilledTransaction}
    (each : List.Forall₂ (TransactionSource lib s) txs filled) {o : OutPoint} {y : Output}
    (spent : o ∈ txs.flatMap (fun tx => tx.inputs.map (·.1))) (found : s.utxos.tryGet o = some y) :
    y.content.isWithdrawal = false := by
  obtain ⟨tx,mem,isInput⟩ := List.mem_flatMap.mp spent
  obtain ⟨input,inside,rfl⟩ := List.mem_map.mp isInput
  obtain ⟨f,_,source⟩ := relatedLeft each mem
  obtain ⟨utxo,isSpent,isFound⟩ := relatedLeft source.fill.spent inside
  cases found.symm.trans isFound
  obtain ⟨fee,valid⟩ := source.value
  simp only [validateFilledTransaction,bindOk] at valid
  obtain ⟨_,_,value,summed,_⟩ := valid
  have all : ∀ (utxos : List Output) (start : Amount), utxos.foldlM addSpentValue start = .ok value →
      ∀ utxo ∈ utxos, utxo.content.isWithdrawal = false := by
    intro utxos
    induction utxos with
    | nil =>
        intro _ _ utxo mem
        cases mem
    | cons first rest ih =>
        intro start summed utxo mem
        obtain ⟨next,added,more⟩ := foldConsOk.mp summed
        simp only [addSpentValue,bindOk,ensureOk] at added
        obtain ⟨_,notWithdrawn,_⟩ := added
        rcases List.mem_cons.mp mem with rfl | later
        · exact notWithdrawn
        · exact ih next more utxo later
  exact all f.spentUtxos Amount.zero summed y isSpent

theorem coinsConnect (source : PrevalidateSource lib ctxt s header body pre) :
    ∃ coins, connectCoins lib header body s.toLedger = .ok coins :=
  connectCoinsTotal source.distinct (fun _ spent => inputsPresent source.transactions spent)

/- Whether a claim connects is decided by the records before the block. -/
theorem claimConnectsKept {before now : SwapId → Option Swap} {tx : Transaction} (keeps : KeepsTerms before now)
    (recorded : ∀ swapId claimer proof, tx.data = .swapClaim swapId claimer proof → before swapId ≠ none) :
    ClaimConnects now tx ↔ ClaimConnects before tx := by
  refine forall_congr' (fun swapId => forall_congr' (fun claimer => forall_congr' (fun proof =>
    forall_congr' (fun kind => ?_))))
  obtain ⟨swap,found⟩ := Option.ne_none_iff_exists'.mp (recorded swapId claimer proof kind)
  obtain ⟨later,foundLater,terms⟩ := keeps swapId swap found
  have same : later.l2Recipient = swap.l2Recipient := congrArg SwapTerms.l2Recipient terms
  simp [found,foundLater,same]

theorem swapsConnect {filled : List FilledTransaction} {w : SwapTables} (before : SwapId → Option Swap)
    (fresh : ∀ f ∈ filled, ∀ create, f.transaction.data = .swapCreate create → before create.swapId = none)
    (recorded : ∀ f ∈ filled, ∀ swapId claimer proof, f.transaction.data = .swapClaim swapId claimer proof →
      before swapId ≠ none)
    (keeps : KeepsTerms before w.getSwap) :
    (∃ w', filled.foldlM (connectSwap lib height) w = .ok w') ↔
      ∀ f ∈ filled, ClaimConnects before f.transaction ∧ CreateFits f.transaction := by
  induction filled generalizing w with
  | nil =>
      constructor
      · intro _ f mem
        cases mem
      · intro _
        exact ⟨w,rfl⟩
  | cons f filled ih =>
      have head : ClaimConnects w.getSwap f.transaction ↔ ClaimConnects before f.transaction :=
        claimConnectsKept keeps (recorded f List.mem_cons_self)
      have next {middle : SwapTables} (ok : connectSwap lib height w f = .ok middle) :
          (∃ w', filled.foldlM (connectSwap lib height) middle = .ok w') ↔
            ∀ g ∈ filled, ClaimConnects before g.transaction ∧ CreateFits g.transaction := by
        refine ih (fun g mem => fresh g (List.mem_cons_of_mem f mem))
          (fun g mem => recorded g (List.mem_cons_of_mem f mem)) ?_
        rw [(connectSwapEffect ok).2.2.1]
        exact keepsTermsStep (fresh f List.mem_cons_self) keeps
      rw [List.forall_mem_cons,← head,← @connectSwapOk _ lib height]
      constructor
      · intro connected
        obtain ⟨w',ok⟩ := connected
        obtain ⟨middle,first,rest⟩ := foldConsOk.mp ok
        exact ⟨⟨middle,first⟩,(next first).mp ⟨w',rest⟩⟩
      · intro connects
        obtain ⟨⟨middle,first⟩,others⟩ := connects
        obtain ⟨w',rest⟩ := (next first).mpr others
        exact ⟨w',foldConsOk.mpr ⟨middle,first,rest⟩⟩

theorem claimsConnectIff (source : PrevalidateSource lib ctxt s header body pre) :
    (∀ f ∈ pre.filledTransactions, ClaimConnects s.getSwap f.transaction) ↔ OpenClaimsDeclare s body := by
  constructor
  · intro connects tx mem swapId proof kind swap recorded unspecified
    obtain ⟨f,inside,txSource⟩ := relatedLeft source.transactions mem
    have claim := connects f inside swapId none proof (txSource.fill.transaction ▸ kind)
    obtain ⟨found,same,declared⟩ := claim
    rw [recorded] at same
    cases same
    simp [unspecified] at declared
  · intro declare f inside swapId declared proof kind
    obtain ⟨mem,txSource⟩ := filledSource source.transactions inside
    obtain ⟨swap,_,_,claim⟩ := txSource.claim kind
    refine ⟨swap,claim.recorded,?_⟩
    cases declared with
    | some claimer => exact .inr rfl
    | none => exact .inl (Option.isSome_iff_ne_none.mpr (declare f.transaction mem swapId proof kind swap claim.recorded))

theorem createsConnectIff (source : PrevalidateSource lib ctxt s header body pre) :
    (∀ f ∈ pre.filledTransactions, CreateFits f.transaction) ↔ CreatesFit body := by
  constructor
  · intro fit tx mem
    obtain ⟨f,inside,txSource⟩ := relatedLeft source.transactions mem
    exact txSource.fill.transaction ▸ fit f inside
  · intro fit f inside
    exact fit f.transaction (filledSource source.transactions inside).1

theorem swapsConnectIff (source : PrevalidateSource lib ctxt s header body pre) :
    (∃ swaps, connectSwaps lib pre s.toSwapTables = .ok swaps) ↔ OpenClaimsDeclare s body ∧ CreatesFit body := by
  rw [← claimsConnectIff source,← createsConnectIff source,← forall₂_and]
  refine swapsConnect s.getSwap ?_ ?_ (fun _ swap recorded => ⟨swap,recorded,rfl⟩)
  · intro f inside create kind
    obtain ⟨_,txSource⟩ := filledSource source.transactions inside
    exact (txSource.create kind).unrecorded
  · intro f inside swapId declared proof kind missing
    obtain ⟨_,txSource⟩ := filledSource source.transactions inside
    obtain ⟨swap,_,_,claim⟩ := txSource.claim kind
    have recorded := claim.recorded
    rw [missing] at recorded
    cases recorded

theorem connectsIffClaimsDeclare (ok : prevalidate lib s ctxt header body = .ok pre) :
    (∃ s', connectPrevalidated lib s header body pre = .ok s') ↔ OpenClaimsDeclare s body ∧ CreatesFit body := by
  have source := prevalidateSource ok
  rw [connectTotal source,swapsConnectIff source]
  exact and_iff_right (coinsConnect source)

section Reached

open Reference

def claimOpen (declared : Option Address) : Transaction :=
  transaction [outputOf createOpen 0 openEscrow] [coin bob 900] (.swapClaim openId declared none)

def claimBlock (declared : Option Address) : Body := Reference.body [(claimOpen declared,[bob])] []

def reserved : List Move := funded ++ [grow [(createOpen,[alice])],grow [(acceptOpen,[bob])]]

def failsToConnect (block : Body) (s : State Forest) : Bool :=
  match prevalidate externals s context (mine s block) block with
  | .ok pre =>
      match connectPrevalidated externals s (mine s block) block pre with
      | .error e => e = .invalidTransaction .openClaimWithoutClaimer
      | .ok _ => false
  | .error _ => false

theorem acceptedBlockFails : ∃ s header body pre, Reachable externals context s ∧
    prevalidate externals s context header body = .ok pre ∧
    connectPrevalidated externals s header body pre = .error (.invalidTransaction .openClaimWithoutClaimer) := by
  have played : reaches reserved (failsToConnect (claimBlock none)) = true := by decide +kernel
  obtain ⟨s,reachable,fails⟩ := reachesReachable played
  unfold failsToConnect at fails
  split at fails
  · next pre accepted =>
      split at fails
      · next e failed =>
          rw [decide_eq_true_eq] at fails
          exact ⟨s,_,_,pre,reachable,accepted,fails ▸ failed⟩
      · cases fails
  · cases fails

theorem declaredClaimConnects : ∃ s header pre s', Reachable externals context s ∧
    prevalidate externals s context header (claimBlock (some (addressOf bob))) = .ok pre ∧
    connectPrevalidated externals s header (claimBlock (some (addressOf bob))) pre = .ok s' := by
  have played : reaches reserved (accepts (claimBlock (some (addressOf bob)))) = true := by decide +kernel
  obtain ⟨s,reachable,accepted⟩ := reachesReachable played
  obtain ⟨pre,ok⟩ := acceptsOk accepted
  have declares : OpenClaimsDeclare s (claimBlock (some (addressOf bob))) := by
    intro tx mem swapId proof kind
    obtain rfl : tx = claimOpen (some (addressOf bob)) := List.mem_singleton.mp mem
    have fields : TxData.swapClaim openId (some (addressOf bob)) none = .swapClaim swapId none proof := kind
    rw [TxData.swapClaim.injEq] at fields
    exact absurd fields.2.1 (Option.some_ne_none _)
  have fits : CreatesFit (claimBlock (some (addressOf bob))) := by
    intro tx mem create kind
    obtain rfl : tx = claimOpen (some (addressOf bob)) := List.mem_singleton.mp mem
    cases kind
  obtain ⟨s',connected⟩ := (connectsIffClaimsDeclare ok).mpr ⟨declares,fits⟩
  exact ⟨s,_,pre,s',reachable,ok,connected⟩

end Reached

end Coinshift
