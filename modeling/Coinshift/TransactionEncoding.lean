import Coinshift.BlockEffects
import Coinshift.CanonicalEncoding
import Mathlib.Data.List.Nodup

/-! What the txid of a transaction stands for.
Encodings of transactions that fit into a block can be told apart, so that two transactions with one
encoding have the same inputs, outputs of the same kinds and values, and create the same swap. -/
namespace Coinshift
open Checked Delimited

section Transactions

variable {F : Type} {lib : Externals F} {a b tx : Transaction}

def Transaction.Short (lib : Externals F) (tx : Transaction) : Prop := (encodeTransaction lib tx).length < 2 ^ 32

theorem seqLength {α : Type} {encode : α → List Byte} (nonempty : ∀ a, encode a ≠ []) {xs : List α} :
    xs.length ≤ (encodeSeq encode xs).length := by
  have count : xs.length ≤ (xs.flatMap encode).length := by
    induction xs with
    | nil => exact Nat.zero_le _
    | cons x xs ih =>
        have first := List.length_pos_of_ne_nil (nonempty x)
        rw [List.flatMap_cons,List.length_append,List.length_cons]
        omega
  rw [encodeSeq,List.length_append]
  omega

theorem bytesLength {bytes : List Byte} : bytes.length ≤ (encodeBytes bytes).length :=
  seqLength (fun _ => List.cons_ne_nil _ _)

theorem outputsLength {outputs : List Output} : outputs.length ≤ (encodeSeq (encodeOutput lib) outputs).length :=
  seqLength (fun o => by simp [encodeOutput,addressBytes,wordBytes,bytesLE])

theorem memSeqLength {α : Type} (encode : α → List Byte) {xs : List α} {x : α} (mem : x ∈ xs) :
    (encode x).length ≤ (encodeSeq encode xs).length := by
  obtain ⟨before,after,rfl⟩ := List.append_of_mem mem
  simp only [encodeSeq,List.flatMap_append,List.flatMap_cons,List.length_append]
  omega

structure Transaction.Alike (a b : Transaction) : Prop where
  inputs : a.inputs = b.inputs
  outputs : a.outputs.map Output.bare = b.outputs.map Output.bare
  created : a.createdId = b.createdId

theorem shortOutputs {outputs : List Output} (short : (encodeSeq (encodeOutput lib) outputs).length < 2 ^ 32) :
    outputs.length < lengthLimit ∧ ∀ o ∈ outputs, o.content.Fits lib := by
  refine ⟨Nat.lt_of_le_of_lt outputsLength short,fun o mem => ?_⟩
  have inside := memSeqLength (encodeOutput lib) mem
  obtain ⟨address,content⟩ := o
  cases content with
  | withdrawal value mainFee mainAddress =>
      intro script paid
      cases paid
      have bytes := @bytesLength (lib.scriptPubkey mainAddress)
      simp only [encodeOutput,encodeContent,List.length_append,List.length_cons] at inside
      exact Nat.lt_of_le_of_lt (by omega) short
  | _ =>
      intro _ paid
      cases paid

theorem shortData {data : TxData} (short : (encodeTxData data).length < 2 ^ 32) : data.Fits := by
  cases data with
  | swapCreate c =>
      have txid := @bytesLength c.l1TxidBytes
      have address := @bytesLength (utf8 c.l1RecipientAddress)
      simp only [encodeTxData,List.length_append,List.length_cons] at short
      exact ⟨Nat.lt_of_le_of_lt (by omega) short,Nat.lt_of_le_of_lt (by omega) short⟩
  | swapClaim swapId claimer proofData =>
      intro bytes given
      cases given
      have proof := @bytesLength bytes
      simp only [encodeTxData,encodeOption,List.length_append,List.length_cons] at short
      exact Nat.lt_of_le_of_lt (by omega) short
  | _ => exact trivial

theorem shortFits (short : tx.Short lib) : tx.Fits lib := by
  unfold Transaction.Short encodeTransaction at short
  rw [List.length_append,List.length_append] at short
  have inputs : tx.inputs.length ≤ (encodeSeq (fun i => encodeOutPoint i.1 ++ hashBytes i.2) tx.inputs).length :=
    seqLength (fun i => by cases i.1 <;> simp [encodeOutPoint])
  obtain ⟨outputs,scripts⟩ := @shortOutputs F lib tx.outputs (by omega)
  have few : tx.inputs.length < 2 ^ 32 := by omega
  exact ⟨few,outputs,scripts,shortData (by omega)⟩

theorem paidBare {xs ys : List Output} (same : List.Forall₂ (Output.PaysAlike lib) xs ys) :
    xs.map Output.bare = ys.map Output.bare := by
  rw [← List.forall₂_eq_eq_eq,List.forall₂_map_left_iff,List.forall₂_map_right_iff]
  exact same.imp (fun _ _ alike => alike.bare)

theorem outputsDelimit : Delimits (fun outputs => (encodeSeq (encodeOutput lib) outputs).length < 2 ^ 32)
    (encodeSeq (encodeOutput lib)) (fun xs ys => xs.map Output.bare = ys.map Output.bare) :=
  (seqDelimits (@outputDelimits F lib)).imp (fun _ => shortOutputs) (fun _ _ => paidBare)

theorem encodingAlike (shortA : a.Short lib) (shortB : b.Short lib)
    (equal : encodeTransaction lib a = encodeTransaction lib b) : a.Alike b := by
  obtain ⟨inputs,outputs,data⟩ := encodingFixes (shortFits shortA) (shortFits shortB) equal
  refine ⟨inputs,paidBare outputs,?_⟩
  unfold Transaction.createdId
  rw [data]

def TxidsBind (lib : Externals F) (txs : List Transaction) : Prop :=
  ∀ a ∈ txs, ∀ b ∈ txs, a.txid lib = b.txid lib → encodeTransaction lib a = encodeTransaction lib b

instance {txs : List Transaction} : Decidable (TxidsBind lib txs) := by
  unfold TxidsBind
  infer_instance

theorem outputsShort (short : tx.Short lib) : tx.outputs.length < 2 ^ 32 := by
  have all := @outputsLength F lib tx.outputs
  unfold Transaction.Short encodeTransaction at short
  simp only [List.length_append] at short
  omega

section Places

variable {point : UInt32 → OutPoint} {outputs : List Output}

theorem memPointed (bound : outputs.length < 2 ^ 32) {p : PointedOutput} :
    p ∈ outputs.zipIdx.map (fun o => (⟨point (UInt32.ofNat o.2),o.1⟩ : PointedOutput)) ↔
      ∃ vout, p.outpoint = point vout ∧ outputs[vout.toNat]? = some p.output := by
  constructor
  · intro mem
    obtain ⟨⟨output,i⟩,inside,rfl⟩ := List.mem_map.mp mem
    have found := List.mem_zipIdx_iff_getElem?.mp inside
    obtain ⟨inRange,_⟩ := List.getElem?_eq_some_iff.mp found
    have small : i < UInt32.size := Nat.lt_trans inRange bound
    refine ⟨UInt32.ofNat i,rfl,?_⟩
    rw [UInt32.toNat_ofNat_of_lt' small]
    exact found
  · intro found
    obtain ⟨vout,isAt,output⟩ := found
    refine List.mem_map.mpr ⟨(p.output,vout.toNat),List.mem_zipIdx_iff_getElem?.mpr output,?_⟩
    obtain ⟨outpoint,_⟩ := p
    cases isAt
    simp

theorem pointedDistinct (injective : Function.Injective point) (bound : outputs.length < 2 ^ 32) :
    ((outputs.zipIdx.map (fun o => (⟨point (UInt32.ofNat o.2),o.1⟩ : PointedOutput))).map (·.outpoint)).Nodup := by
  have places : outputs.zipIdx.Nodup := by
    refine List.Nodup.of_map (·.2) ?_
    rw [List.zipIdx_map_snd]
    exact List.nodup_range'
  rw [List.map_map]
  refine places.map_on (fun a memA b memB same => ?_)
  have foundA := List.mem_zipIdx_iff_getElem?.mp memA
  have foundB := List.mem_zipIdx_iff_getElem?.mp memB
  obtain ⟨inRangeA,_⟩ := List.getElem?_eq_some_iff.mp foundA
  obtain ⟨inRangeB,_⟩ := List.getElem?_eq_some_iff.mp foundB
  have vouts := congrArg UInt32.toNat (injective same)
  rw [UInt32.toNat_ofNat_of_lt' (Nat.lt_trans inRangeA bound),
    UInt32.toNat_ofNat_of_lt' (Nat.lt_trans inRangeB bound)] at vouts
  rw [vouts] at foundA
  exact Prod.ext (Option.some.inj (foundA.symm.trans foundB)) vouts

end Places

theorem memCreated (short : tx.Short lib) {p : PointedOutput} : p ∈ tx.createdOutputs lib ↔
    ∃ vout, p.outpoint = .regular (tx.txid lib) vout ∧ tx.outputs[vout.toNat]? = some p.output :=
  memPointed (outputsShort short)

theorem createdDistinct (short : tx.Short lib) : ((tx.createdOutputs lib).map (·.outpoint)).Nodup :=
  pointedDistinct (fun _ _ same => (OutPoint.regular.inj same).2) (outputsShort short)

theorem createdAlike {txs : List Transaction} (bind : TxidsBind lib txs) (memA : a ∈ txs) (memB : b ∈ txs)
    (shortA : a.Short lib) (shortB : b.Short lib) {p q : PointedOutput} (createdA : p ∈ a.createdOutputs lib)
    (createdB : q ∈ b.createdOutputs lib) (same : p.outpoint = q.outpoint) :
    a.Alike b ∧ p.output.bare = q.output.bare := by
  obtain ⟨vout,isAt,output⟩ := (memCreated shortA).mp createdA
  obtain ⟨vout',isAt',output'⟩ := (memCreated shortB).mp createdB
  rw [isAt,isAt'] at same
  obtain ⟨txids,rfl⟩ := OutPoint.regular.inj same
  have alike := encodingAlike shortA shortB (bind a memA b memB txids)
  have bares := congrArg (fun outputs => outputs[vout.toNat]?) alike.outputs
  simp only [List.getElem?_map,output,output',Option.map_some] at bares
  exact ⟨alike,Option.some.inj bares⟩

end Transactions

section Sizes

variable {F : Type} {lib : Externals F} {ctxt : BatchVerificationContext} {s : State F} {header : Header} {body : Body}

theorem bodySizeLimitSmall (height : Nat) : bodySizeLimit height < 2 ^ 32 := by
  have grown : ∀ month < 120, 8388608 * 104 ^ month / 100 ^ month < 2 ^ 32 := by decide +kernel
  unfold bodySizeLimit limitAt
  dsimp only
  split
  · next early => exact grown _ early
  · decide

theorem memEncodingLe {tx : Transaction} (mem : tx ∈ body.transactions) :
    (encodeTransaction lib tx).length ≤ (encodeBody lib body).length := by
  obtain ⟨before,after,split⟩ := List.append_of_mem mem
  simp only [encodeBody,encodeSeq,split,List.flatMap_append,List.flatMap_cons,List.length_append]
  omega

theorem acceptedSize {pre : PrevalidatedBlock} (ok : prevalidate lib s ctxt header body = .ok pre) :
    (encodeBody lib body).length < 2 ^ 32 := by
  simp only [prevalidate,bindOk,ensureOk] at ok
  obtain ⟨_,_,_,_,_,size,_⟩ := ok
  exact Nat.lt_of_le_of_lt size (bodySizeLimitSmall s.nextHeight)

theorem acceptedShort {pre : PrevalidatedBlock} (ok : prevalidate lib s ctxt header body = .ok pre)
    {tx : Transaction} (mem : tx ∈ body.transactions) : tx.Short lib :=
  Nat.lt_of_le_of_lt (memEncodingLe mem) (acceptedSize ok)

theorem acceptedCoinbase {pre : PrevalidatedBlock} (ok : prevalidate lib s ctxt header body = .ok pre) :
    (encodeSeq (encodeOutput lib) body.coinbase).length < 2 ^ 32 := by
  have size := acceptedSize ok
  simp only [encodeBody,List.length_append] at size
  omega

end Sizes

end Coinshift
