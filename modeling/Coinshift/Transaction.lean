import Coinshift.Error
import Coinshift.Checked

/-! Transactions, bodies and headers, with the byte encoding their hashes are taken over.
Third-party code (the hash, the signature scheme, the merkle tree builder, the utreexo
forest, main-chain scripts) is a field of `Externals`; nothing is assumed about it here. -/
namespace Coinshift
open Checked

structure SwapCreate where
  swapId : SwapId
  parentChain : ParentChainType
  l1TxidBytes : List Byte
  requiredConfirmations : UInt32
  l2Recipient : Option Address
  l2Amount : UInt64
  l1RecipientAddress : Text
  l1Amount : UInt64
  deriving DecidableEq, Repr

inductive TxData where
  | regular
  | swapCreate (create : SwapCreate)
  | swapClaim (swapId : SwapId) (l2ClaimerAddress : Option Address) (proofData : Option (List Byte))
  | swapAccept (swapId : SwapId) (l2ClaimerAddress : Address)
  deriving DecidableEq, Repr

def TxData.isSwapClaim : TxData → Bool
  | .swapClaim .. => true
  | _ => false

def TxData.isSwapAccept : TxData → Bool
  | .swapAccept .. => true
  | _ => false

structure UtreexoProof where
  targets : List UInt64
  hashes : List Hash
  deriving DecidableEq, Repr

structure Transaction where
  inputs : List (OutPoint × Hash)
  proof : UtreexoProof
  outputs : List Output
  data : TxData
  deriving DecidableEq, Repr

structure FilledTransaction where
  transaction : Transaction
  spentUtxos : List Output
  deriving DecidableEq, Repr

structure PointedOutput where
  outpoint : OutPoint
  output : Output
  deriving DecidableEq, Repr

structure Authorization where
  verifyingKey : VerifyingKey
  signature : Signature
  deriving DecidableEq, Repr

structure AuthorizedTransaction where
  transaction : Transaction
  authorizations : List Authorization
  deriving DecidableEq, Repr

structure Body where
  coinbase : List Output
  transactions : List Transaction
  authorizations : List Authorization
  deriving DecidableEq, Repr

structure Header where
  merkleRoot : MerkleRoot
  prevSideHash : Option BlockHash
  prevMainHash : Hash
  roots : List Hash
  deriving DecidableEq, Repr

structure CbmtNode where
  commitment : Hash
  fees : Amount
  canonicalSize : Nat
  index : Nat
  deriving DecidableEq, Repr

structure BatchVerificationContext where
  macKey : Hash
  deriving DecidableEq, Repr

structure TxOut where
  value : Amount
  scriptPubkey : List Byte
  deriving DecidableEq, Repr

structure Externals (Forest : Type) where
  blake3 : List Byte → Hash
  verifySignature : VerifyingKey → Signature → List Byte → Bool
  batchVerify : BatchVerificationContext → List (Authorization × List Byte) → Bool
  buildMerkleRoot : (CbmtNode → CbmtNode → Option CbmtNode) → List CbmtNode → Option CbmtNode
  emptyForest : Forest
  modify : Forest → List Hash → List Hash → Except Text Forest
  getRoots : Forest → List Hash
  verify : Forest → UtreexoProof → List Hash → Except Text Bool
  scriptPubkey : MainAddress → List Byte
  bundleWeight : List TxOut → Nat
  bundleTxid : List TxOut → M6id

section Encoding

/- Borsh: integers little-endian, sequences after a 32-bit length, variants after their index. -/
def bytesLE : Nat → Nat → List Byte
  | 0, _ => []
  | width + 1, n => UInt8.ofNat n :: bytesLE width (n / 256)

def wordBytes (width : Nat) (n : Nat) : List Byte := (bytesLE width n).reverse

def hashBytes (h : Hash) : List Byte := wordBytes 32 h.toNat

def addressBytes (a : Address) : List Byte := wordBytes 20 a.toNat

def encodeU32 (n : UInt32) : List Byte := bytesLE 4 n.toNat

def encodeU64 (n : UInt64) : List Byte := bytesLE 8 n.toNat

def encodeSeq {α : Type} (encode : α → List Byte) (xs : List α) : List Byte :=
  bytesLE 4 xs.length ++ xs.flatMap encode

def encodeBytes (bytes : List Byte) : List Byte := encodeSeq (fun b => [b]) bytes

def encodeOption {α : Type} (encode : α → List Byte) : Option α → List Byte
  | none => [0]
  | some a => 1 :: encode a

def utf8 (text : Text) : List Byte := text.flatMap String.utf8EncodeChar

def encodeAmount (a : Amount) : List Byte := encodeU64 a.sat

def encodeOutPoint : OutPoint → List Byte
  | .regular txid vout => 0 :: hashBytes txid ++ encodeU32 vout
  | .coinbase root vout => 1 :: hashBytes root ++ encodeU32 vout
  | .deposit txid vout => 2 :: hashBytes txid ++ encodeU32 vout

def encodeTxData : TxData → List Byte
  | .regular => [0]
  | .swapCreate c =>
      1 :: hashBytes c.swapId ++ [c.parentChain.index] ++ encodeBytes c.l1TxidBytes ++
        encodeU32 c.requiredConfirmations ++ encodeOption addressBytes c.l2Recipient ++
        encodeU64 c.l2Amount ++ encodeBytes (utf8 c.l1RecipientAddress) ++ encodeU64 c.l1Amount
  | .swapClaim swapId claimer proofData =>
      2 :: hashBytes swapId ++ encodeOption addressBytes claimer ++ encodeOption encodeBytes proofData
  | .swapAccept swapId claimer => 3 :: hashBytes swapId ++ addressBytes claimer

def encodeAuthorization (a : Authorization) : List Byte :=
  wordBytes 32 a.verifyingKey.toNat ++ wordBytes 64 a.signature.toNat

def encodeHeader (h : Header) : List Byte :=
  hashBytes h.merkleRoot ++ encodeOption hashBytes h.prevSideHash ++ hashBytes h.prevMainHash ++
    encodeSeq hashBytes h.roots

end Encoding

variable {F : Type} (lib : Externals F)

def encodeContent : Content → List Byte
  | .value amount => 0 :: encodeAmount amount
  | .withdrawal value mainFee mainAddress =>
      1 :: encodeAmount value ++ encodeAmount mainFee ++ encodeBytes (lib.scriptPubkey mainAddress)
  | .swapPending value swapId => 2 :: encodeAmount value ++ hashBytes swapId

def encodeOutput (o : Output) : List Byte := addressBytes o.address ++ encodeContent lib o.content

def encodePointedOutput (p : PointedOutput) : List Byte :=
  encodeOutPoint p.outpoint ++ encodeOutput lib p.output

/- The utreexo proof is not part of the encoding. -/
def encodeTransaction (tx : Transaction) : List Byte :=
  encodeSeq (fun i => encodeOutPoint i.1 ++ hashBytes i.2) tx.inputs ++
    encodeSeq (encodeOutput lib) tx.outputs ++ encodeTxData tx.data

def encodeBody (b : Body) : List Byte :=
  encodeSeq (encodeOutput lib) b.coinbase ++ encodeSeq (encodeTransaction lib) b.transactions ++
    encodeSeq encodeAuthorization b.authorizations

def Transaction.txid (tx : Transaction) : Txid := lib.blake3 (encodeTransaction lib tx)

def Transaction.canonicalSize (tx : Transaction) : Nat := (encodeTransaction lib tx).length / 8

def Header.hash (h : Header) : BlockHash := lib.blake3 (encodeHeader h)

def utxoHash (p : PointedOutput) : Hash := lib.blake3 (encodePointedOutput lib p)

def getAddress (key : VerifyingKey) : Address :=
  (lib.blake3 (wordBytes 32 key.toNat)).extractLsb' 96 160

def Authorization.getAddress (a : Authorization) : Address := Coinshift.getAddress lib a.verifyingKey

def SwapId.fromL2ToL1 (l1RecipientAddress : Text) (l1Amount : Amount) (l2SenderAddress : Address)
    (l2RecipientAddress : Option Address) : SwapId :=
  lib.blake3 (utf8 l1RecipientAddress ++ encodeAmount l1Amount ++ addressBytes l2SenderAddress ++
    match l2RecipientAddress with
    | some recipient => addressBytes recipient
    | none => utf8 ['O','P','E','N','_','S','W','A','P'])

namespace FilledTransaction

def getValueIn (f : FilledTransaction) : Option Amount :=
  Amount.checkedSum (f.spentUtxos.map Output.getValue)

def getValueOut (f : FilledTransaction) : Option Amount :=
  Amount.checkedSum (f.transaction.outputs.map Output.getValue)

def getFee (f : FilledTransaction) : Except ComputeFeeError Amount := do
  let valueIn ← okOr f.getValueIn .valueInOverflow
  let valueOut ← okOr f.getValueOut .valueOutOverflow
  okOr (valueIn.checkedSub valueOut) .underfunded

end FilledTransaction

/- `MergeFeeSizeTotal::merge`; no node where the source overflows or its assertion fails. -/
def mergeFeeSizeTotal (lnode rnode : CbmtNode) : Option CbmtNode := do
  let fees ← lnode.fees.checkedAdd rnode.fees
  let canonicalSize := lnode.canonicalSize + rnode.canonicalSize
  guard (lnode.index + 1 = rnode.index)
  let commitment := lib.blake3 (hashBytes lnode.commitment ++ encodeAmount fees ++
    bytesLE 8 canonicalSize ++ hashBytes rnode.commitment)
  some ⟨commitment,fees,canonicalSize,(lnode.index - 1) / 2⟩

/- The leaf of the transaction at `idx` of `n`; its place in the tree is `idx + n - 1`. -/
def merkleLeaf (n : Nat) (idx : Nat) (f : FilledTransaction) : Except Error CbmtNode := do
  let fees ← f.getFee.mapError (.computeMerkleRoot (f.transaction.txid lib))
  let canonicalSize := f.transaction.canonicalSize lib
  let commitment := lib.blake3 (encodeAmount fees ++ bytesLE 8 canonicalSize ++
    encodeTransaction lib f.transaction)
  pure ⟨commitment,fees,canonicalSize,idx + n - 1⟩

def Body.computeMerkleRoot (coinbase : List Output) (txs : List FilledTransaction) :
    Except Error MerkleRoot := do
  let leaves ← collect (fun tx => merkleLeaf lib txs.length tx.2 tx.1) txs.zipIdx
  let txsRoot ← okOr (lib.buildMerkleRoot (mergeFeeSizeTotal lib) leaves) .panic
  let coinbaseRoot := lib.blake3 (encodeSeq (encodeOutput lib) coinbase)
  pure (lib.blake3 (hashBytes coinbaseRoot ++ hashBytes txsRoot.commitment))

end Coinshift
