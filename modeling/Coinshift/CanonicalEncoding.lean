import Coinshift.Delimited
import Coinshift.Reference
import Mathlib.Algebra.Order.Group.Nat

/-! What the canonical encoding of a transaction fixes.
Everything but the network of a withdrawal's main-chain address: of that only the script is encoded. -/
namespace Coinshift
open Checked Delimited

section Fits

/- borsh stores a length in 32 bits, and fails on a longer sequence. -/
def lengthLimit : Nat := 2 ^ 32

def TxData.Fits : TxData → Prop
  | .swapCreate c => c.l1TxidBytes.length < lengthLimit ∧ (utf8 c.l1RecipientAddress).length < lengthLimit
  | .swapClaim _ _ proofData => ∀ bytes ∈ proofData, bytes.length < lengthLimit
  | _ => True

instance {data : TxData} : Decidable data.Fits := by
  unfold TxData.Fits
  split <;> infer_instance

variable {F : Type} (lib : Externals F)

def Content.mainScript : Content → Option (List Byte)
  | .withdrawal _ _ mainAddress => some (lib.scriptPubkey mainAddress)
  | _ => none

def Content.Fits (c : Content) : Prop := ∀ script ∈ c.mainScript lib, script.length < lengthLimit

instance {c : Content} : Decidable (c.Fits lib) := by
  unfold Content.Fits
  infer_instance

structure Transaction.Fits (tx : Transaction) : Prop where
  inputs : tx.inputs.length < lengthLimit
  outputs : tx.outputs.length < lengthLimit
  scripts : ∀ o ∈ tx.outputs, o.content.Fits lib
  data : tx.data.Fits

instance {tx : Transaction} : Decidable (tx.Fits lib) :=
  decidable_of_iff (tx.inputs.length < lengthLimit ∧ tx.outputs.length < lengthLimit ∧
    (∀ o ∈ tx.outputs, o.content.Fits lib) ∧ tx.data.Fits)
    ⟨fun ⟨inputs,outputs,scripts,data⟩ => ⟨inputs,outputs,scripts,data⟩,
      fun fits => ⟨fits.inputs,fits.outputs,fits.scripts,fits.data⟩⟩

/- No bytes where `canonical_encoding` panics. -/
def Transaction.canonicalEncoding (tx : Transaction) : Option (List Byte) :=
  if tx.Fits lib then some (encodeTransaction lib tx) else none

end Fits

section Words

theorem bytesLELength {width n : Nat} : (bytesLE width n).length = width := by
  induction width generalizing n with
  | zero => rfl
  | succ width ih => rw [bytesLE,List.length_cons,ih]

theorem bytesLEInjective {width n m : Nat} (small : n < 256 ^ width) (small' : m < 256 ^ width)
    (equal : bytesLE width n = bytesLE width m) : n = m := by
  induction width generalizing n m with
  | zero =>
      rw [pow_zero] at small small'
      omega
  | succ width ih =>
      rw [pow_succ] at small small'
      obtain ⟨low,high⟩ := List.cons.inj equal
      have lowBytes : n % 256 = m % 256 := by simpa using congrArg UInt8.toNat low
      have highBytes := ih (by omega) (by omega) high
      omega

theorem wordBytesInjective {width n m : Nat} (small : n < 256 ^ width) (small' : m < 256 ^ width)
    (equal : wordBytes width n = wordBytes width m) : n = m :=
  bytesLEInjective small small' (List.reverse_injective equal)

theorem hashLength {h : Hash} : (hashBytes h).length = 32 := by
  rw [hashBytes,wordBytes,List.length_reverse,bytesLELength]

theorem hashDelimits : Delimits (fun _ => True) hashBytes (· = ·) := by
  refine fixedLength (fun _ => hashLength) (fun a b equal => ?_)
  exact BitVec.eq_of_toNat_eq (wordBytesInjective (by exact a.isLt) (by exact b.isLt) equal)

theorem addressDelimits : Delimits (fun _ => True) addressBytes (· = ·) := by
  refine fixedLength (n := 20) (fun _ => ?_) (fun a b equal => ?_)
  · rw [addressBytes,wordBytes,List.length_reverse,bytesLELength]
  · exact BitVec.eq_of_toNat_eq (wordBytesInjective (by exact a.isLt) (by exact b.isLt) equal)

theorem u32Delimits : Delimits (fun _ => True) encodeU32 (· = ·) := by
  refine fixedLength (n := 4) (fun _ => bytesLELength) (fun a b equal => ?_)
  exact UInt32.toNat_inj.mp (bytesLEInjective (by exact a.toNat_lt) (by exact b.toNat_lt) equal)

theorem u64Delimits : Delimits (fun _ => True) encodeU64 (· = ·) := by
  refine fixedLength (n := 8) (fun _ => bytesLELength) (fun a b equal => ?_)
  exact UInt64.toNat_inj.mp (bytesLEInjective (by exact a.toNat_lt) (by exact b.toNat_lt) equal)

theorem amountDelimits : Delimits (fun _ => True) encodeAmount (· = ·) := by
  refine (u64Delimits.comap Amount.sat).imp (fun _ fits => fits) (fun a b same => ?_)
  cases a
  cases b
  exact congrArg Amount.mk same

end Words

section Sequences

variable {α : Type} {P : α → Prop} {encode : α → List Byte} {Same : α → α → Prop}

theorem seqDelimits (each : Delimits P encode Same) :
    Delimits (fun xs => xs.length < lengthLimit ∧ ∀ x ∈ xs, P x) (encodeSeq encode) (List.Forall₂ Same) := by
  intro xs ys rest rest' fitsX fitsY equal
  unfold encodeSeq at equal
  rw [List.append_assoc,List.append_assoc] at equal
  obtain ⟨lengths,items⟩ := List.append_inj equal (bytesLELength.trans bytesLELength.symm)
  exact each.items (bytesLEInjective fitsX.1 fitsY.1 lengths) fitsX.2 fitsY.2 items

theorem bytesDelimits : Delimits (fun bytes => bytes.length < lengthLimit) encodeBytes (· = ·) := by
  have bytes : Delimits (fun _ => True) (fun b : Byte => [b]) (· = ·) :=
    fixedLength (n := 1) (fun _ => rfl) (fun _ _ equal => List.singleton_inj.mp equal)
  refine (seqDelimits bytes).imp (fun _ short => ⟨short,fun _ _ => trivial⟩) (fun _ _ same => ?_)
  exact List.forall₂_eq_eq_eq ▸ same

theorem utf8Injective {a b : Text} (equal : utf8 a = utf8 b) : a = b := by
  have encoded : a.utf8Encode = b.utf8Encode := congrArg List.toByteArray equal
  rw [← String.toByteArray_ofList,← String.toByteArray_ofList] at encoded
  exact String.ofList_injective (String.toByteArray_inj.mp encoded)

theorem textDelimits : Delimits (fun text => (utf8 text).length < lengthLimit) (fun text => encodeBytes (utf8 text))
    (· = ·) :=
  (bytesDelimits.comap utf8).imp (fun _ short => short) (fun _ _ same => utf8Injective same)

theorem optionDelimits (some? : Delimits P encode (· = ·)) :
    Delimits (fun o => ∀ a ∈ o, P a) (encodeOption encode) (· = ·) := by
  intro a b rest rest' fitsA fitsB equal
  cases a with
  | none => cases b with
    | none => exact ⟨rfl,(List.cons.inj equal).2⟩
    | some => exact absurd (List.cons.inj equal).1 (by decide)
  | some a => cases b with
    | none => exact absurd (List.cons.inj equal).1 (by decide)
    | some b =>
        obtain ⟨rfl,ends⟩ := some?.tagged 1 a b rest rest' (fitsA a rfl) (fitsB b rfl) equal
        exact ⟨rfl,ends⟩

end Sequences

section Parts

theorem outPointDelimits : Delimits (fun _ => True) encodeOutPoint (· = ·) := by
  have word := (hashDelimits.comap (fun o : Hash × UInt32 => o.1)).append (u32Delimits.comap (fun o => o.2))
  have parts (h h' : Hash) (v v' : UInt32) (same : hashBytes h ++ encodeU32 v = hashBytes h' ++ encodeU32 v') :
      h = h' ∧ v = v' :=
    (word (h,v) (h',v') [] [] ⟨trivial,trivial⟩ ⟨trivial,trivial⟩ (by simpa using same)).1
  refine fixedLength (n := 37) ?_ ?_
  · intro o
    cases o <;> simp [encodeOutPoint,hashLength,encodeU32,bytesLELength]
  · intro a b equal
    cases a <;> cases b <;> simp [encodeOutPoint] at equal <;> obtain ⟨rfl,rfl⟩ := parts _ _ _ _ equal <;> rfl

theorem createDelimits : Delimits (fun c => (TxData.swapCreate c).Fits) (fun c => encodeTxData (.swapCreate c))
    (· = ·) := by
  have chains : Delimits (fun _ => True) (fun chain : ParentChainType => [chain.index]) (· = ·) :=
    fixedLength (n := 1) (fun _ => rfl)
      (fun _ _ equal => ParentChainType.indexInjective (List.singleton_inj.mp equal))
  have front := ((((hashDelimits.tagged 1).comap SwapCreate.swapId).append (chains.comap SwapCreate.parentChain)).append
    (bytesDelimits.comap SwapCreate.l1TxidBytes)).append (u32Delimits.comap SwapCreate.requiredConfirmations)
  have whole := (((front.append ((optionDelimits addressDelimits).comap SwapCreate.l2Recipient)).append
    (u64Delimits.comap SwapCreate.l2Amount)).append (textDelimits.comap SwapCreate.l1RecipientAddress)).append
    (u64Delimits.comap SwapCreate.l1Amount)
  refine whole.imp (fun c fits => ?_) (fun a b same => ?_)
  · exact ⟨⟨⟨⟨⟨⟨⟨trivial,trivial⟩,fits.1⟩,trivial⟩,fun _ _ => trivial⟩,trivial⟩,fits.2⟩,trivial⟩
  · obtain ⟨⟨⟨⟨⟨⟨⟨swapId,chain⟩,txid⟩,confirmations⟩,recipient⟩,amount⟩,address⟩,l1Amount⟩ := same
    cases a
    cases b
    simp only at swapId chain txid confirmations recipient amount address l1Amount
    rw [swapId,chain,txid,confirmations,recipient,amount,address,l1Amount]

theorem dataDelimits : Delimits TxData.Fits encodeTxData (· = ·) := by
  have claims := (((hashDelimits.tagged 2).comap (fun c : SwapId × Option Address × Option (List Byte) => c.1)).append
    ((optionDelimits addressDelimits).comap (fun c => c.2.1))).append
    ((optionDelimits bytesDelimits).comap (fun c => c.2.2))
  have accepts := ((hashDelimits.tagged 3).comap (fun a : SwapId × Address => a.1)).append
    (addressDelimits.comap (fun a => a.2))
  intro a b rest rest' fitsA fitsB equal
  cases a with
  | regular => cases b with
    | regular => exact ⟨rfl,(List.cons.inj equal).2⟩
    | _ => exact absurd (List.cons.inj equal).1 (by decide)
  | swapCreate create => cases b with
    | swapCreate create' =>
        obtain ⟨rfl,ends⟩ := createDelimits create create' rest rest' fitsA fitsB equal
        exact ⟨rfl,ends⟩
    | _ => exact absurd (List.cons.inj equal).1 (by decide)
  | swapClaim swapId claimer proofData => cases b with
    | swapClaim swapId' claimer' proofData' =>
        obtain ⟨⟨⟨sameId,sameClaimer⟩,sameProof⟩,ends⟩ := claims (swapId,claimer,proofData)
          (swapId',claimer',proofData') rest rest' ⟨⟨trivial,fun _ _ => trivial⟩,fitsA⟩
          ⟨⟨trivial,fun _ _ => trivial⟩,fitsB⟩ equal
        cases sameId
        cases sameClaimer
        cases sameProof
        exact ⟨rfl,ends⟩
    | _ => exact absurd (List.cons.inj equal).1 (by decide)
  | swapAccept swapId claimer => cases b with
    | swapAccept swapId' claimer' =>
        obtain ⟨⟨sameId,sameClaimer⟩,ends⟩ := accepts (swapId,claimer) (swapId',claimer') rest rest'
          ⟨trivial,trivial⟩ ⟨trivial,trivial⟩ equal
        cases sameId
        cases sameClaimer
        exact ⟨rfl,ends⟩
    | _ => exact absurd (List.cons.inj equal).1 (by decide)

end Parts

section Outputs

def Content.bare : Content → Content
  | .withdrawal payout mainFee _ => .withdrawal payout mainFee ⟨0⟩
  | content => content

def Output.bare (o : Output) : Output := ⟨o.address,o.content.bare⟩

@[simp] theorem bareValue {o : Output} : o.bare.getValue = o.getValue := by
  obtain ⟨address,content⟩ := o
  cases content <;> rfl

theorem bareWithdrawal {o : Output} : o.bare.content.isWithdrawal = o.content.isWithdrawal := by
  obtain ⟨address,content⟩ := o
  cases content <;> rfl

theorem bareEscrow {o : Output} {swapId : SwapId} : o.bare.escrowFor swapId = o.escrowFor swapId := by
  obtain ⟨address,content⟩ := o
  cases content <;> rfl

variable {F : Type} {lib : Externals F}

structure Output.PaysAlike (lib : Externals F) (a b : Output) : Prop where
  bare : a.bare = b.bare
  script : a.content.mainScript lib = b.content.mainScript lib

theorem contentDelimits : Delimits (Content.Fits lib) (encodeContent lib)
    (fun a b => a.bare = b.bare ∧ a.mainScript lib = b.mainScript lib) := by
  have withdrawals := (((amountDelimits.tagged 1).comap (fun w : Amount × Amount × List Byte => w.1)).append
    (amountDelimits.comap (fun w => w.2.1))).append (bytesDelimits.comap (fun w => w.2.2))
  have escrows := ((amountDelimits.tagged 2).comap (fun e : Amount × SwapId => e.1)).append
    (hashDelimits.comap (fun e => e.2))
  intro a b rest rest' fitsA fitsB equal
  cases a with
  | value amount => cases b with
    | value amount' =>
        obtain ⟨rfl,ends⟩ := amountDelimits.tagged 0 amount amount' rest rest' trivial trivial equal
        exact ⟨⟨rfl,rfl⟩,ends⟩
    | _ => exact absurd (List.cons.inj equal).1 (by decide)
  | withdrawal payout mainFee mainAddress => cases b with
    | withdrawal payout' mainFee' mainAddress' =>
        obtain ⟨⟨⟨sameValue,sameFee⟩,sameScript⟩,ends⟩ := withdrawals (payout,mainFee,lib.scriptPubkey mainAddress)
          (payout',mainFee',lib.scriptPubkey mainAddress') rest rest' ⟨⟨trivial,trivial⟩,fitsA _ rfl⟩
          ⟨⟨trivial,trivial⟩,fitsB _ rfl⟩ equal
        cases sameValue
        cases sameFee
        exact ⟨⟨rfl,congrArg some sameScript⟩,ends⟩
    | _ => exact absurd (List.cons.inj equal).1 (by decide)
  | swapPending amount swapId => cases b with
    | swapPending amount' swapId' =>
        obtain ⟨⟨sameValue,sameId⟩,ends⟩ := escrows (amount,swapId) (amount',swapId') rest rest'
          ⟨trivial,trivial⟩ ⟨trivial,trivial⟩ equal
        cases sameValue
        cases sameId
        exact ⟨⟨rfl,rfl⟩,ends⟩
    | _ => exact absurd (List.cons.inj equal).1 (by decide)

theorem outputDelimits : Delimits (fun o : Output => o.content.Fits lib) (encodeOutput lib) (Output.PaysAlike lib) := by
  have parts := (addressDelimits.comap Output.address).append ((@contentDelimits F lib).comap Output.content)
  refine parts.imp (fun o fits => ⟨trivial,fits⟩) (fun a b same => ⟨?_,same.2.2⟩)
  unfold Output.bare
  rw [same.1,same.2.1]

theorem Output.PaysAlike.encoding {a b : Output} (alike : a.PaysAlike lib b) : encodeOutput lib a = encodeOutput lib b := by
  obtain ⟨bare,script⟩ := alike
  obtain ⟨address,content⟩ := a
  obtain ⟨address',content'⟩ := b
  obtain ⟨rfl,contents⟩ := Output.mk.inj bare
  cases content with
  | withdrawal payout mainFee mainAddress => cases content' with
    | withdrawal payout' mainFee' mainAddress' =>
        obtain ⟨rfl,rfl,_⟩ := Content.withdrawal.inj contents
        have scripts : lib.scriptPubkey mainAddress = lib.scriptPubkey mainAddress' := Option.some.inj script
        simp only [encodeOutput,encodeContent,scripts]
    | _ => cases contents
  | value => cases content' <;> cases contents; rfl
  | swapPending => cases content' <;> cases contents; rfl

section Lists

variable {xs ys : List Output}

theorem paidEncoding (pays : List.Forall₂ (Output.PaysAlike lib) xs ys) :
    encodeSeq (encodeOutput lib) xs = encodeSeq (encodeOutput lib) ys := by
  have items : xs.flatMap (encodeOutput lib) = ys.flatMap (encodeOutput lib) := by
    induction pays with
    | nil => rfl
    | cons same _ ih => rw [List.flatMap_cons,List.flatMap_cons,same.encoding,ih]
  rw [encodeSeq,encodeSeq,pays.length_eq,items]

theorem paidFits (pays : List.Forall₂ (Output.PaysAlike lib) xs ys) (fits : ∀ o ∈ xs, o.content.Fits lib) :
    ∀ o ∈ ys, o.content.Fits lib := by
  induction pays with
  | nil => exact fits
  | @cons x y _ _ same _ ih =>
      obtain ⟨head,tail⟩ := List.forall_mem_cons.mp fits
      have first : y.content.Fits lib := by
        unfold Content.Fits
        rw [← same.script]
        exact head
      exact List.forall_mem_cons.mpr ⟨first,ih tail⟩

end Lists

end Outputs

section Transactions

variable {F : Type} {lib : Externals F} {a b tx : Transaction}

/- The transactions are the same but for the utreexo proof, and but perhaps for main-chain addresses
of withdrawals that stand for one script. -/
structure Transaction.EncodedAlike (lib : Externals F) (a b : Transaction) : Prop where
  inputs : a.inputs = b.inputs
  outputs : List.Forall₂ (Output.PaysAlike lib) a.outputs b.outputs
  data : a.data = b.data

theorem encodingFixes (fitsA : a.Fits lib) (fitsB : b.Fits lib)
    (equal : encodeTransaction lib a = encodeTransaction lib b) : a.EncodedAlike lib b := by
  have inputs := (outPointDelimits.comap (fun i : OutPoint × Hash => i.1)).append (hashDelimits.comap (fun i => i.2))
  have whole := (((seqDelimits inputs).comap Transaction.inputs).append
    ((seqDelimits (@outputDelimits F lib)).comap Transaction.outputs)).append (dataDelimits.comap Transaction.data)
  have fits (tx : Transaction) (fits : tx.Fits lib) :=
    (⟨⟨⟨fits.inputs,fun _ _ => ⟨trivial,trivial⟩⟩,fits.outputs,fits.scripts⟩,fits.data⟩ :
      ((tx.inputs.length < lengthLimit ∧ ∀ i ∈ tx.inputs, True ∧ True) ∧
        (tx.outputs.length < lengthLimit ∧ ∀ o ∈ tx.outputs, o.content.Fits lib)) ∧ tx.data.Fits)
  obtain ⟨⟨⟨sameInputs,sameOutputs⟩,sameData⟩,_⟩ := whole a b [] [] (fits a fitsA) (fits b fitsB)
    (congrArg (· ++ []) equal)
  refine ⟨?_,sameOutputs,sameData⟩
  rw [← List.forall₂_eq_eq_eq]
  exact sameInputs.imp (fun _ _ same => Prod.ext same.1 same.2)

theorem Transaction.EncodedAlike.encoding (alike : a.EncodedAlike lib b) :
    encodeTransaction lib a = encodeTransaction lib b := by
  unfold encodeTransaction
  rw [alike.inputs,paidEncoding alike.outputs,alike.data]

theorem Transaction.EncodedAlike.fits (alike : a.EncodedAlike lib b) (fits : a.Fits lib) : b.Fits lib :=
  ⟨alike.inputs ▸ fits.inputs,alike.outputs.length_eq ▸ fits.outputs,paidFits alike.outputs fits.scripts,
    alike.data ▸ fits.data⟩

theorem canonicalOk {bytes : List Byte} :
    tx.canonicalEncoding lib = some bytes ↔ tx.Fits lib ∧ encodeTransaction lib tx = bytes := by
  unfold Transaction.canonicalEncoding
  split
  · next fits => exact ⟨fun ok => ⟨fits,Option.some.inj ok⟩,fun ok => congrArg some ok.2⟩
  · next unfit => exact ⟨fun ok => (nomatch ok),fun ok => absurd ok.1 unfit⟩

theorem encodingBindsIff (lib : Externals F) (a b : Transaction) :
    (a.inputs ≠ b.inputs ∨ a.outputs ≠ b.outputs ∨ a.data ≠ b.data →
      ∀ bytes, a.canonicalEncoding lib = some bytes → b.canonicalEncoding lib ≠ some bytes) ↔
    ¬ (a.Fits lib ∧ a.EncodedAlike lib b ∧ a.outputs ≠ b.outputs) := by
  constructor
  · rintro binds ⟨fits,alike,differ⟩
    refine binds (.inr (.inl differ)) _ (canonicalOk.mpr ⟨fits,rfl⟩) ?_
    exact canonicalOk.mpr ⟨alike.fits fits,alike.encoding.symm⟩
  · intro apart differ bytes encodedA encodedB
    obtain ⟨fitsA,bytesA⟩ := canonicalOk.mp encodedA
    obtain ⟨fitsB,bytesB⟩ := canonicalOk.mp encodedB
    have alike := encodingFixes fitsA fitsB (bytesA.trans bytesB.symm)
    rcases differ with inputs | outputs | data
    · exact inputs alike.inputs
    · exact apart ⟨fitsA,alike,outputs⟩
    · exact data alike.data

namespace Reference

/- Addresses come in pairs, one for each of two networks, with one script for both. -/
def networks : Externals Forest := { externals with scriptPubkey address := 0 :: 20 :: wordBytes 20 (address.place / 2) }

def withdrawTo (first second : MainAddress) : Transaction :=
  transaction [deposited 1 (coin alice 1000)]
    [⟨addressOf alice,.withdrawal ⟨400⟩ ⟨100⟩ first⟩,⟨addressOf alice,.withdrawal ⟨400⟩ ⟨100⟩ second⟩] .regular

def payments (tx : Transaction) : Option (List UInt64) :=
  match collectWithdrawalBundle networks
      ((tx.createdOutputs networks).foldl (fun t p => t.put p.outpoint p.output) Table.empty) 4 with
  | .ok (some bundle) => some (bundle.outputs.map (·.value.sat))
  | _ => none

theorem networkNotEncoded : (withdrawTo ⟨2⟩ ⟨2⟩).outputs ≠ (withdrawTo ⟨2⟩ ⟨3⟩).outputs ∧
    ((withdrawTo ⟨2⟩ ⟨2⟩).canonicalEncoding networks).isSome ∧
    (withdrawTo ⟨2⟩ ⟨2⟩).canonicalEncoding networks = (withdrawTo ⟨2⟩ ⟨3⟩).canonicalEncoding networks ∧
    payments (withdrawTo ⟨2⟩ ⟨2⟩) = some [0,0,800] ∧ payments (withdrawTo ⟨2⟩ ⟨3⟩) = some [0,0,400,400] := by
  decide +kernel

end Reference

end Transactions

end Coinshift
