import Coinshift.Table

/-! The data of blocks, transactions and swaps.
Hashes, keys and addresses are fixed-width words whose most significant byte is the first
byte stored. Fields that no modelled function reads are not carried. -/
namespace Coinshift

abbrev Byte := UInt8
abbrev Hash := BitVec 256
abbrev BlockHash := Hash
abbrev MerkleRoot := Hash
abbrev Txid := Hash
abbrev SwapId := Hash
abbrev M6id := Hash
abbrev Address := BitVec 160
abbrev VerifyingKey := BitVec 256
abbrev Signature := BitVec 512
abbrev Text := List Char

/- `bitcoin::Amount`: an unsigned 64-bit number of satoshis. -/
structure Amount where
  sat : UInt64
  deriving DecidableEq, Repr

namespace Amount

def fromSat (sat : UInt64) : Amount := ⟨sat⟩

def zero : Amount := ⟨0⟩

def max : Amount := ⟨0xffffffffffffffff⟩

def val (a : Amount) : Nat := a.sat.toNat

instance : LE Amount := ⟨fun a b => a.val ≤ b.val⟩
instance : LT Amount := ⟨fun a b => a.val < b.val⟩
instance (a b : Amount) : Decidable (a ≤ b) := inferInstanceAs (Decidable (a.val ≤ b.val))
instance (a b : Amount) : Decidable (a < b) := inferInstanceAs (Decidable (a.val < b.val))

def checkedAdd (a b : Amount) : Option Amount :=
  if a.val + b.val < 2 ^ 64 then some ⟨UInt64.ofNat (a.val + b.val)⟩ else none

def checkedSub (a b : Amount) : Option Amount :=
  if b.val ≤ a.val then some ⟨UInt64.ofNat (a.val - b.val)⟩ else none

def checkedSum (amounts : List Amount) : Option Amount := amounts.foldlM checkedAdd zero

@[simp] theorem valZero : zero.val = 0 := rfl

theorem valInj {x y : Amount} (same : x.val = y.val) : x = y := by
  cases x
  cases y
  exact congrArg _ (UInt64.toNat_inj.mp same)

theorem checkedAddVal {a b c : Amount} (added : checkedAdd a b = some c) : c.val = a.val + b.val := by
  unfold checkedAdd at added
  split at added
  · next small =>
      cases added
      exact UInt64.toNat_ofNat_of_lt' small
  · cases added

theorem foldAddVal {amounts : List Amount} {start total : Amount}
    (summed : amounts.foldlM checkedAdd start = some total) :
    total.val = start.val + (amounts.map val).sum := by
  induction amounts generalizing start with
  | nil => simp_all
  | cons a rest ih =>
      rw [List.foldlM_cons] at summed
      obtain ⟨next,added,tail⟩ := Option.bind_eq_some_iff.mp summed
      rw [ih tail,checkedAddVal added,List.map_cons,List.sum_cons,Nat.add_assoc]

theorem checkedSumVal {amounts : List Amount} {total : Amount} (summed : checkedSum amounts = some total) :
    total.val = (amounts.map val).sum := by simpa using foldAddVal summed

end Amount

theorem checkedAddOk {a b : Amount} (small : a.val + b.val < 2 ^ 64) : ∃ c, a.checkedAdd b = some c ∧ c.val = a.val + b.val := by
  have added : a.checkedAdd b = some ⟨UInt64.ofNat (a.val + b.val)⟩ := if_pos small
  exact ⟨_,added,Amount.checkedAddVal added⟩

theorem sumIs {amounts : List Amount} {start total : Amount} (sum : start.val + (amounts.map Amount.val).sum = total.val) :
    amounts.foldlM Amount.checkedAdd start = some total := by
  induction amounts generalizing start with
  | nil =>
      rw [List.map_nil,List.sum_nil,Nat.add_zero] at sum
      exact congrArg some (Amount.valInj sum)
  | cons a rest ih =>
      have bound := total.sat.toNat_lt
      have value : total.val = total.sat.toNat := rfl
      rw [List.map_cons,List.sum_cons] at sum
      obtain ⟨next,added,isNext⟩ := checkedAddOk (a := start) (b := a) (by omega)
      rw [List.foldlM_cons,added]
      exact ih (by omega)

inductive OutPoint where
  | regular (txid : Txid) (vout : UInt32)
  | coinbase (merkleRoot : MerkleRoot) (vout : UInt32)
  | deposit (txid : Hash) (vout : UInt32)
  deriving DecidableEq, Repr

def swapBytes (n : UInt32) : Nat :=
  let w := n.toNat
  (w % 256) * 16777216 + (w / 256 % 256) * 65536 + (w / 65536 % 256) * 256 + w / 16777216

theorem fourBytes {a b c d a' b' c' d' : Nat} (hb : b < 256) (hc : c < 256) (hd : d < 256)
    (hb' : b' < 256) (hc' : c' < 256) (hd' : d' < 256)
    (same : a * 16777216 + b * 65536 + c * 256 + d = a' * 16777216 + b' * 65536 + c' * 256 + d') :
    a = a' ∧ b = b' ∧ c = c' ∧ d = d' := by omega

theorem swapBytesInjective : Function.Injective swapBytes := by
  intro a b same
  have boundA := a.toNat_lt
  have boundB := b.toNat_lt
  have bytes := fourBytes (by omega) (by omega) (by omega) (by omega) (by omega) (by omega) same
  exact UInt32.toNat_inj.mp (by omega)

theorem swapBytesLt (n : UInt32) : swapBytes n < 2 ^ 32 := by
  have := n.toNat_lt
  simp only [swapBytes]
  omega

/- A one-byte tag, a 32-byte hash and a little-endian index: `OutPointKey`. -/
def outPointRank (tag : Nat) (hash : Hash) (vout : UInt32) : Nat :=
  (tag * 2 ^ 256 + hash.toNat) * 2 ^ 32 + swapBytes vout

theorem outPointRankInjective {tag tag' : Nat} {hash hash' : Hash} {vout vout' : UInt32}
    (same : outPointRank tag hash vout = outPointRank tag' hash' vout') :
    tag = tag' ∧ hash = hash' ∧ vout = vout' := by
  have := swapBytesLt vout
  have := swapBytesLt vout'
  have := hash.isLt
  have := hash'.isLt
  simp only [outPointRank] at same
  exact ⟨by omega,BitVec.eq_of_toNat_eq (by omega),swapBytesInjective (by omega)⟩

instance : DbKey OutPoint where
  rank
    | .regular txid vout => outPointRank 0 txid vout
    | .coinbase root vout => outPointRank 1 root vout
    | .deposit txid vout => outPointRank 2 txid vout
  rankInjective := by
    intro a b same
    cases a <;> cases b <;> obtain ⟨tags,hashes,vouts⟩ := outPointRankInjective same <;>
      simp_all

instance {n : Nat} : DbKey (BitVec n) := ⟨BitVec.toNat,fun _ _ => BitVec.eq_of_toNat_eq⟩

/- Sequence numbers are stored little-endian, so they are not listed in numeric order. -/
instance : DbKey UInt32 := ⟨swapBytes,swapBytesInjective⟩

inductive InPoint where
  | regular (txid : Txid) (vin : UInt32)
  | withdrawal (m6id : M6id)
  deriving DecidableEq, Repr

/- A main-chain address, named by its place in the order of `bitcoin::Address`. -/
structure MainAddress where
  place : Nat
  deriving DecidableEq, Repr

inductive Content where
  | value (amount : Amount)
  | withdrawal (value mainFee : Amount) (mainAddress : MainAddress)
  | swapPending (value : Amount) (swapId : SwapId)
  deriving DecidableEq, Repr

def Content.isWithdrawal : Content → Bool
  | .withdrawal .. => true
  | _ => false

def Content.isSwapPending : Content → Bool
  | .swapPending .. => true
  | _ => false

def Content.getValue : Content → Amount
  | .value amount => amount
  -- a withdrawal takes both the payout and the main-chain fee off the sidechain
  | .withdrawal payout mainFee _ => (payout.checkedAdd mainFee).getD Amount.max
  | .swapPending amount _ => amount

structure Output where
  address : Address
  content : Content
  deriving DecidableEq, Repr

def Output.getValue (o : Output) : Amount := o.content.getValue

structure SpentOutput where
  output : Output
  inpoint : InPoint
  deriving DecidableEq, Repr

end Coinshift
