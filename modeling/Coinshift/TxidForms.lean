import Coinshift.TwoWayPegData
import Coinshift.Words

/-! The written forms of a parent-chain transaction id: the bytes of the id, the text in which
RPC servers print it, and the record a swap keeps of it. -/
namespace Coinshift
open Checked

section Forms

def hexChar (digit : Nat) : Char := if digit < 10 then Char.ofNat (48 + digit) else Char.ofNat (87 + digit)

def hexEncode (bytes : List Byte) : Text :=
  bytes.flatMap (fun b => [hexChar (b.toNat / 16),hexChar (b.toNat % 16)])

/- `bitcoin::Txid` prints its bytes last to first. -/
def displayTxid (txid : Hash) : Text := hexEncode (hashBytes txid).reverse

def reversed32 (h : Hash) : Hash := hashOfBytes (hashBytes h).reverse

namespace SwapTxId

def fromBitcoinTxid (txid : Hash) : SwapTxId := .hash32 (reversed32 txid)

def fromHex (text : Text) : Option SwapTxId := do
  let trimmed := trim text
  guard ((utf8 trimmed).length = 64)
  let bytes ← hexDecode trimmed
  guard (bytes.length = 32)
  some (fromBytes bytes)

def toBitcoinTxid : SwapTxId → Option Hash
  | .hash32 h => some (reversed32 h)
  | .hash _ => none

def toHex : SwapTxId → Text
  | .hash32 h => hexEncode (hashBytes h)
  | .hash bytes => hexEncode bytes

def toHexRpc : SwapTxId → Text
  | .hash32 h => hexEncode (hashBytes (reversed32 h))
  | .hash bytes => if bytes.length = 32 then hexEncode bytes.reverse else hexEncode bytes

end SwapTxId
end Forms

section Reversal

theorem reversedBytes {h : Hash} : hashBytes (reversed32 h) = (hashBytes h).reverse :=
  hashBytesOfHash (List.length_reverse.trans hashLength)

theorem reversedTwice {h : Hash} : reversed32 (reversed32 h) = h := by
  rw [reversed32,reversedBytes,List.reverse_reverse,hashOfHashBytes]

theorem reversedSelf {h : Hash} : reversed32 h = h ↔ (hashBytes h).reverse = hashBytes h := by
  constructor
  · intro same
    rw [← reversedBytes,same]
  · intro palindrome
    rw [reversed32,palindrome,hashOfHashBytes]

end Reversal

section Hex

variable {bytes : List Byte} {txid : Hash}

theorem hexCharFacts : ∀ digit < 16, hexDigit (hexChar digit) = some digit ∧ isUnicodeSpace (hexChar digit) = false ∧
    (String.utf8EncodeChar (hexChar digit)).length = 1 := by decide

theorem hexEncodeCons {b : Byte} :
    hexEncode (b :: bytes) = hexChar (b.toNat / 16) :: hexChar (b.toNat % 16) :: hexEncode bytes := by
  rw [hexEncode,List.flatMap_cons]
  rfl

theorem hexEncodeAll {P : Char → Prop} (digits : ∀ digit < 16, P (hexChar digit)) : ∀ c ∈ hexEncode bytes, P c := by
  intro c mem
  obtain ⟨b,_,digit⟩ := List.mem_flatMap.mp mem
  have small := b.toNat_lt
  rcases List.mem_pair.mp digit with rfl | rfl
  · exact digits _ (by omega)
  · exact digits _ (by omega)

theorem hexDecodeEncode : hexDecode (hexEncode bytes) = some bytes := by
  induction bytes with
  | nil => rfl
  | cons b bytes ih =>
      have small := b.toNat_lt
      obtain ⟨high,_⟩ := hexCharFacts (b.toNat / 16) (by omega)
      obtain ⟨low,_⟩ := hexCharFacts (b.toNat % 16) (by omega)
      have whole : UInt8.ofNat (b.toNat / 16 * 16 + b.toNat % 16) = b := by
        rw [Nat.div_add_mod',UInt8.ofNat_toNat]
      rw [hexEncodeCons,hexDecode,high,low,ih]
      exact congrArg (fun b => some (b :: bytes)) whole

theorem trimSolid {text : Text} (solid : ∀ c ∈ text, isUnicodeSpace c = false) : trim text = text := by
  have front {text : Text} (solid : ∀ c ∈ text, isUnicodeSpace c = false) : text.dropWhile isUnicodeSpace = text := by
    cases text with
    | nil => rfl
    | cons c rest => rw [List.dropWhile_cons,solid c List.mem_cons_self,if_neg Bool.false_ne_true]
  rw [trim,front solid,front (fun c mem => solid c (List.mem_reverse.mp mem)),List.reverse_reverse]

theorem utf8Length {text : Text} (ascii : ∀ c ∈ text, (String.utf8EncodeChar c).length = 1) :
    (utf8 text).length = text.length := by
  induction text with
  | nil => rfl
  | cons c rest ih =>
      have head := ascii c List.mem_cons_self
      have tail := ih (fun c mem => ascii c (List.mem_cons_of_mem _ mem))
      rw [utf8] at tail ⊢
      rw [List.flatMap_cons,List.length_append,head,tail,List.length_cons,Nat.add_comm]

theorem hexEncodeLength : (hexEncode bytes).length = 2 * bytes.length := by
  induction bytes with
  | nil => rfl
  | cons b bytes ih => rw [hexEncodeCons,List.length_cons,List.length_cons,ih,List.length_cons,Nat.mul_succ]

theorem hexTrimmed : trim (hexEncode bytes) = hexEncode bytes :=
  trimSolid (hexEncodeAll (fun digit small => (hexCharFacts digit small).2.1))

theorem hexUtf8 (width : bytes.length = 32) : (utf8 (hexEncode bytes)).length = 64 := by
  rw [utf8Length (hexEncodeAll (fun digit small => (hexCharFacts digit small).2.2)),hexEncodeLength,width]

theorem fromHexEncode (width : bytes.length = 32) :
    SwapTxId.fromHex (hexEncode bytes) = some (.hash32 (hashOfBytes bytes)) := by
  simp [SwapTxId.fromHex,hexTrimmed,hexUtf8 width,hexDecodeEncode,width,SwapTxId.fromBytes,guard]

theorem fromHexRpcEncode (width : bytes.length = 32) :
    SwapTxId.fromHexRpc (hexEncode bytes) = some (.hash32 (hashOfBytes bytes.reverse)) := by
  simp [SwapTxId.fromHexRpc,hexTrimmed,hexUtf8 width,hexDecodeEncode,width,guard]

theorem fromHexRpcDisplay : SwapTxId.fromHexRpc (displayTxid txid) = some (.hash32 txid) := by
  rw [displayTxid,fromHexRpcEncode (List.length_reverse.trans hashLength),List.reverse_reverse,hashOfHashBytes]

theorem toHexRpcDisplay : (SwapTxId.hash32 txid).toHexRpc = displayTxid txid := by
  rw [SwapTxId.toHexRpc,displayTxid,reversedBytes]

theorem toHexFromHex : (SwapTxId.fromHex (hexEncode (hashBytes txid))).map SwapTxId.toHex =
    some (hexEncode (hashBytes txid)) := by
  rw [fromHexEncode hashLength,hashOfHashBytes]
  rfl

theorem toBitcoinFromBitcoin : (SwapTxId.fromBitcoinTxid txid).toBitcoinTxid = some txid :=
  congrArg some reversedTwice

/- The constructor from a `bitcoin::Txid` turns the bytes round, the reader of RPC texts does not. -/
theorem constructorsAgree : SwapTxId.fromHexRpc (displayTxid txid) = some (SwapTxId.fromBitcoinTxid txid) ↔
    (hashBytes txid).reverse = hashBytes txid := by
  rw [fromHexRpcDisplay,SwapTxId.fromBitcoinTxid,Option.some_inj,SwapTxId.hash32.injEq,eq_comm,reversedSelf]

end Hex
end Coinshift
