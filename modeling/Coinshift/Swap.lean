import Coinshift.Types

/-! Swap records, their parent chains and the on-chain reservations of open swaps.
`Swap.state`, `l1Txid` and the validation block follow each node's own view of the parent
chain; the other fields are fixed by the block that creates the swap. -/
namespace Coinshift

inductive ParentChainType where
  | btc | bch | ltc | signet | regtest
  deriving DecidableEq, Repr

namespace ParentChainType

def defaultConfirmations : ParentChainType → UInt32
  | btc => 6
  | bch | ltc | signet | regtest => 3

def defaultSwapExpirationBlocks : ParentChainType → Nat
  | btc => 1008
  | bch | ltc | signet => 432
  | regtest => 50

def acceptExpirationBlocks : ParentChainType → Nat
  | btc => 144
  | bch | ltc => 72
  | signet => 72
  | regtest => 20

def maxL1TxAgeBlocks : ParentChainType → UInt32
  | btc => 2016
  | bch => 2016
  | ltc => 8064
  | signet => 2016
  | regtest => 500

def index : ParentChainType → Byte
  | btc => 0
  | bch => 1
  | ltc => 2
  | signet => 3
  | regtest => 4

theorem indexInjective : Function.Injective index := by
  intro a b
  cases a <;> cases b <;> simp [index]

end ParentChainType

inductive SwapDirection where
  | l1ToL2 | l2ToL1
  deriving DecidableEq, Repr

inductive SwapState where
  | pending
  | waitingConfirmations (current required : UInt32)
  | readyToClaim
  | completed
  | cancelled
  deriving DecidableEq, Repr

inductive SwapTxId where
  | hash32 (hash : Hash)
  | hash (bytes : List Byte)
  deriving DecidableEq, Repr

def hashOfBytes (bytes : List Byte) : Hash :=
  BitVec.ofNat 256 (bytes.foldl (fun n b => n * 256 + b.toNat) 0)

namespace SwapTxId

def fromBytes (bytes : List Byte) : SwapTxId :=
  if bytes.length = 32 then .hash32 (hashOfBytes bytes) else .hash bytes

/- No parent-chain transaction: the zero hash, or bytes that are all zero. -/
def isUnset : SwapTxId → Bool
  | .hash32 h => h = 0
  | .hash bytes => bytes.all (· = 0)

/- The longest key the database takes. -/
def maxKeySize : Nat := 511

/- The bytes of a pair of a parent chain and a transaction id as a key: two tags, and for a byte string its length. -/
def keySize : SwapTxId → Nat
  | .hash32 _ => 4 + 4 + 32
  | .hash bytes => 4 + 4 + 8 + bytes.length

def fitsKey (t : SwapTxId) : Bool := t.keySize ≤ maxKeySize

theorem fitsKeyIff {bytes : List Byte} : (fromBytes bytes).fitsKey = true ↔ bytes.length ≤ 495 := by
  refine decide_eq_true_iff.trans ?_
  unfold fromBytes
  split
  · show 4 + 4 + 32 ≤ 511 ↔ _
    omega
  · show 4 + 4 + 8 + bytes.length ≤ 511 ↔ _
    omega

end SwapTxId

/- `(ParentChainType, SwapTxId)`. This table is never listed, so the rank only tells keys apart. -/
instance : DbKey (ParentChainType × SwapTxId) where
  rank
    | (chain,.hash32 h) => bytesRank [chain.index,0] * 2 * 2 ^ 256 + h.toNat
    | (chain,.hash bytes) => (bytesRank (chain.index :: 1 :: bytes) * 2 + 1) * 2 ^ 256
  rankInjective := by
    rintro ⟨chain,txid⟩ ⟨chain',txid'⟩ same
    cases txid with
    | hash32 h => cases txid' with
      | hash32 h' =>
          have := h.isLt
          have := h'.isLt
          have bytes := bytesRankInjective (show bytesRank [chain.index,0] = bytesRank [chain'.index,0] by
            simp only at same; omega)
          have hashes : h.toNat = h'.toNat := by simp only at same; omega
          simp_all [ParentChainType.indexInjective.eq_iff,BitVec.toNat_inj]
      | hash bytes =>
          have := h.isLt
          simp only at same
          omega
    | hash bytes => cases txid' with
      | hash32 h' =>
          have := h'.isLt
          simp only at same
          omega
      | hash bytes' =>
          have lists := bytesRankInjective (show bytesRank (chain.index :: 1 :: bytes) =
            bytesRank (chain'.index :: 1 :: bytes') by simp only at same; omega)
          simp_all [ParentChainType.indexInjective.eq_iff]

structure SwapReservation where
  claimer : Address
  acceptedAtHeight : Nat
  deriving DecidableEq, Repr

namespace SwapReservation

/- The source's sum saturates at the largest 32-bit height. -/
def expiresAt (r : SwapReservation) (chain : ParentChainType) : Nat :=
  min (r.acceptedAtHeight + chain.acceptExpirationBlocks) 4294967295

def isLiveAt (r : SwapReservation) (chain : ParentChainType) (height : Nat) : Bool :=
  height < r.expiresAt chain

end SwapReservation

structure Swap where
  id : SwapId
  direction : SwapDirection
  parentChain : ParentChainType
  l1Txid : SwapTxId
  requiredConfirmations : UInt32
  state : SwapState
  l2Recipient : Option Address
  l2Amount : Amount
  l1RecipientAddress : Text
  l1Amount : Amount
  l1ClaimerAddress : Option Text
  l2ClaimerAddress : Option Address
  createdAtHeight : Nat
  expiresAtHeight : Option Nat
  l1TxidValidatedAtBlockHash : Option BlockHash
  l1TxidValidatedAtHeight : Option Nat
  l2CreatorAddress : Option Address
  deriving DecidableEq, Repr

namespace Swap

def new (id : SwapId) (direction : SwapDirection) (parentChain : ParentChainType) (l1Txid : SwapTxId)
    (requiredConfirmations : Option UInt32) (l2Recipient : Option Address) (l2Amount : Amount)
    (l1RecipientAddress : Text) (l1Amount : Amount) (createdAtHeight : Nat) (expiresAtHeight : Option Nat)
    (l2CreatorAddress : Option Address) : Swap where
  id
  direction
  parentChain
  l1Txid
  requiredConfirmations := requiredConfirmations.getD parentChain.defaultConfirmations
  state := .pending
  l2Recipient
  l2Amount
  l1RecipientAddress
  l1Amount
  l1ClaimerAddress := none
  l2ClaimerAddress := none
  createdAtHeight
  expiresAtHeight
  l1TxidValidatedAtBlockHash := none
  l1TxidValidatedAtHeight := none
  l2CreatorAddress

def markCompleted (swap : Swap) : Swap := { swap with state := .completed }

def updateL1Txid (swap : Swap) (l1Txid : SwapTxId) : Swap := { swap with l1Txid }

def updateL1Transaction (swap : Swap) (l1Txid : SwapTxId) (l1Claimer : Text) : Swap :=
  { swap with l1Txid, l1ClaimerAddress := some l1Claimer }

def setL2ClaimerAddress (swap : Swap) (l2Address : Address) : Swap :=
  { swap with l2ClaimerAddress := some l2Address }

def setL1TxidValidationBlock (swap : Swap) (blockHash : BlockHash) (blockHeight : Nat) : Swap :=
  { swap with l1TxidValidatedAtBlockHash := some blockHash, l1TxidValidatedAtHeight := some blockHeight }

def withConfirmations (swap : Swap) (confirmations required : UInt32) : Swap :=
  { swap with state := if required ≤ confirmations then .readyToClaim
                       else .waitingConfirmations confirmations required }

end Swap

/- What a swap was created with: no operation on the record changes it. -/
structure SwapTerms where
  parentChain : ParentChainType
  l2Recipient : Option Address
  l2Amount : Amount
  l1RecipientAddress : Text
  expiresAtHeight : Option Nat
  l2CreatorAddress : Option Address
  deriving DecidableEq, Repr

def Swap.terms (swap : Swap) : SwapTerms :=
  ⟨swap.parentChain,swap.l2Recipient,swap.l2Amount,swap.l1RecipientAddress,swap.expiresAtHeight,swap.l2CreatorAddress⟩

end Coinshift
