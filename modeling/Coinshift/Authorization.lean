import Coinshift.State

/-! Signature checks of a transaction and of a block body.
A body is verified in chunks; the batch check of one chunk is third-party code. -/
namespace Coinshift
open Checked

inductive AuthorizationError where
  | notEnoughAuthorizations
  | signatureVerification
  | tooManyAuthorizations
  deriving DecidableEq, Repr

/- `par_chunks`: consecutive chunks of `size` elements, the last one possibly shorter. -/
def chunks {α : Type} (size : Nat) (xs : List α) : List (List α) :=
  (List.range ((xs.length + size - 1) / size)).map (fun i => (xs.drop (i * size)).take size)

theorem chunksNonempty {α : Type} {size : Nat} {xs chunk : List α} (positive : 0 < size)
    (mem : chunk ∈ chunks size xs) : chunk ≠ [] := by
  obtain ⟨i,inRange,rfl⟩ := List.mem_map.mp mem
  have bound := (Nat.lt_div_iff_mul_lt positive).mp (List.mem_range.mp inRange)
  have before : i * size < xs.length := by omega
  simp only [ne_eq,List.take_eq_nil_iff,List.drop_eq_nil_iff]
  omega

theorem memChunks {α : Type} {size : Nat} {xs : List α} {x : α} (positive : 0 < size) :
    x ∈ xs ↔ ∃ chunk ∈ chunks size xs, x ∈ chunk := by
  constructor
  · intro mem
    obtain ⟨n,bound,rfl⟩ := List.getElem_of_mem mem
    have inRange : n / size < (xs.length + size - 1) / size := by
      rw [Nat.lt_div_iff_mul_lt positive]
      have := Nat.div_mul_le_self n size
      omega
    refine ⟨_,List.mem_map.mpr ⟨n / size,List.mem_range.mpr inRange,rfl⟩,?_⟩
    have rest := Nat.mod_lt n positive
    have split := Nat.div_add_mod n size
    rw [Nat.mul_comm] at split
    refine List.mem_of_getElem? (i := n % size) ?_
    rw [List.getElem?_take_of_lt rest,List.getElem?_drop,split,List.getElem?_eq_getElem bound]
  · intro found
    obtain ⟨_,mem,inside⟩ := found
    obtain ⟨i,_,rfl⟩ := List.mem_map.mp mem
    exact List.mem_of_mem_drop (List.mem_of_mem_take inside)

variable {F : Type} (lib : Externals F) (ctxt : BatchVerificationContext)

def checkAuthorizationCount (given required : Nat) : Except AuthorizationError Unit :=
  if given < required then .error .notEnoughAuthorizations
  else if required < given then .error .tooManyAuthorizations
  else .ok ()

def verifyBatch (items : List (Authorization × List Byte)) : Except AuthorizationError Unit :=
  ensure (lib.batchVerify ctxt items = true) .signatureVerification

def verifyAuthorizedTransaction (tx : AuthorizedTransaction) : Except AuthorizationError Unit := do
  checkAuthorizationCount tx.authorizations.length tx.transaction.inputs.length
  -- a frost batch rejects an empty batch
  if tx.authorizations.isEmpty then pure ()
  else verifyBatch lib ctxt (tx.authorizations.map (fun a => (a,encodeTransaction lib tx.transaction)))

def authorizationMessages (txs : List Transaction) : List (List Byte) :=
  txs.flatMap (fun tx => List.replicate tx.inputs.length (encodeTransaction lib tx))

def authorizationChunkSize : Nat := 16384

def verifyAuthorizations (body : Body) : Except AuthorizationError Unit := do
  let verificationsRequired := (body.transactions.map (fun tx => tx.inputs.length)).sum
  checkAuthorizationCount body.authorizations.length verificationsRequired
  if verificationsRequired = 0 then pure ()
  else
    let pairs := body.authorizations.zip (authorizationMessages lib body.transactions)
    checkAll (verifyBatch lib ctxt) (chunks authorizationChunkSize pairs)

/- What batch verification promises: a non-empty batch passes when each of its signatures does. -/
def BatchSound : Prop := ∀ items, items ≠ [] →
  (lib.batchVerify ctxt items = true ↔
    ∀ item ∈ items, lib.verifySignature item.1.verifyingKey item.1.signature item.2 = true)

theorem checkAuthorizationCountOk {given required : Nat} {u : Unit} :
    checkAuthorizationCount given required = .ok u ↔ given = required := by
  unfold checkAuthorizationCount
  split
  · simp only [reduceCtorEq,false_iff]
    omega
  · split
    · simp only [reduceCtorEq,false_iff]
      omega
    · simp only [true_iff]
      omega

variable {lib ctxt}

theorem verifyAuthorizedTransactionOk (sound : BatchSound lib ctxt) {tx : AuthorizedTransaction} {u : Unit} :
    verifyAuthorizedTransaction lib ctxt tx = .ok u ↔
      tx.authorizations.length = tx.transaction.inputs.length ∧
      ∀ a ∈ tx.authorizations,
        lib.verifySignature a.verifyingKey a.signature (encodeTransaction lib tx.transaction) = true := by
  simp only [verifyAuthorizedTransaction,bindOk,checkAuthorizationCountOk]
  cases authorizations : tx.authorizations with
  | nil => simp
  | cons a rest =>
      have batch := sound ((a :: rest).map (fun a => (a,encodeTransaction lib tx.transaction))) (by simp)
      simp only [List.isEmpty_cons,Bool.false_eq_true,if_false,verifyBatch,ensureOk,batch,List.forall_mem_map]
      exact ⟨fun ⟨_,count,valid⟩ => ⟨count,valid⟩,fun ⟨count,valid⟩ => ⟨(),count,valid⟩⟩

theorem verifyAuthorizationsOk (sound : BatchSound lib ctxt) {body : Body} {u : Unit} :
    verifyAuthorizations lib ctxt body = .ok u ↔
      body.authorizations.length = (body.transactions.map (fun tx => tx.inputs.length)).sum ∧
      ∀ pair ∈ body.authorizations.zip (authorizationMessages lib body.transactions),
        lib.verifySignature pair.1.verifyingKey pair.1.signature pair.2 = true := by
  have positive : 0 < authorizationChunkSize := by decide
  simp only [verifyAuthorizations,bindOk,checkAuthorizationCountOk]
  by_cases none : (body.transactions.map (fun tx => tx.inputs.length)).sum = 0
  · simp only [none,if_true,pureOk]
    constructor
    · rintro ⟨_,count,_⟩
      rw [List.length_eq_zero_iff] at count
      simp [count]
    · rintro ⟨count,_⟩
      exact ⟨(),count,trivial⟩
  · simp only [none,if_false,checkAllOk,verifyBatch,ensureOk]
    constructor
    · rintro ⟨_,count,passed⟩
      refine ⟨count,fun pair mem => ?_⟩
      obtain ⟨chunk,inChunks,inside⟩ := (memChunks positive).mp mem
      exact (sound chunk (chunksNonempty positive inChunks)).mp (passed chunk inChunks) pair inside
    · rintro ⟨count,valid⟩
      refine ⟨(),count,fun chunk inChunks => ?_⟩
      exact (sound chunk (chunksNonempty positive inChunks)).mpr
        (fun pair inside => valid pair ((memChunks positive).mpr ⟨chunk,inChunks,inside⟩))

end Coinshift
