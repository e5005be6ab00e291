import Coinshift.CanonicalEncoding

/-! Fixed-width words read back from their bytes. -/
namespace Coinshift

section Words

def wordValue (bytes : List Byte) : Nat := bytes.foldl (fun n b => n * 256 + b.toNat) 0

theorem wordValueReverse {b : Byte} {bytes : List Byte} :
    wordValue (b :: bytes).reverse = wordValue bytes.reverse * 256 + b.toNat := by
  rw [wordValue,List.reverse_cons,List.foldl_append]
  rfl

theorem wordValueLt {bytes : List Byte} : wordValue bytes.reverse < 256 ^ bytes.length := by
  induction bytes with
  | nil => exact Nat.one_pos
  | cons b bytes ih =>
      have := b.toNat_lt
      rw [wordValueReverse,List.length_cons,pow_succ]
      omega

theorem valueOfWord {width n : Nat} (small : n < 256 ^ width) : wordValue (wordBytes width n) = n := by
  induction width generalizing n with
  | zero =>
      rw [pow_zero] at small
      cases Nat.lt_one_iff.mp small
      rfl
  | succ width ih =>
      rw [pow_succ] at small
      have rest := ih (show n / 256 < 256 ^ width by omega)
      rw [wordBytes] at rest ⊢
      rw [bytesLE,wordValueReverse,rest]
      have low : (UInt8.ofNat n).toNat = n % 256 := by simp
      omega

theorem wordOfValue {bytes : List Byte} : wordBytes bytes.length (wordValue bytes.reverse) = bytes.reverse := by
  induction bytes with
  | nil => rfl
  | cons b bytes ih =>
      have small := b.toNat_lt
      have low : UInt8.ofNat (wordValue bytes.reverse * 256 + b.toNat) = b := by
        refine UInt8.toNat_inj.mp ?_
        rw [UInt8.toNat_ofNat']
        omega
      have high : (wordValue bytes.reverse * 256 + b.toNat) / 256 = wordValue bytes.reverse := by omega
      rw [wordBytes] at ih ⊢
      rw [wordValueReverse,List.length_cons,bytesLE,low,high,List.reverse_cons,ih,List.reverse_cons]

theorem hashOfHashBytes {h : Hash} : hashOfBytes (hashBytes h) = h := by
  have value : wordValue (hashBytes h) = h.toNat := valueOfWord (by exact h.isLt)
  rw [wordValue] at value
  rw [hashOfBytes,value,BitVec.ofNat_toNat,BitVec.setWidth_eq]

theorem hashBytesOfHash {bytes : List Byte} (width : bytes.length = 32) : hashBytes (hashOfBytes bytes) = bytes := by
  have small := @wordValueLt bytes.reverse
  have back := @wordOfValue bytes.reverse
  rw [List.reverse_reverse,List.length_reverse,width] at small back
  have value : (hashOfBytes bytes).toNat = wordValue bytes := by
    rw [hashOfBytes,BitVec.toNat_ofNat]
    exact Nat.mod_eq_of_lt small
  rw [hashBytes,value,back]

variable {bytes : List Byte} {width n : Nat}

def valueLE (bytes : List Byte) : Nat := wordValue bytes.reverse

theorem valueLELt : valueLE bytes < 256 ^ bytes.length := wordValueLt

theorem valueOfBytes (small : n < 256 ^ width) : valueLE (bytesLE width n) = n := valueOfWord small

theorem bytesOfValue : bytesLE bytes.length (valueLE bytes) = bytes := List.reverse_injective wordOfValue

theorem wordLt : wordValue bytes < 256 ^ bytes.length := by
  have small := @wordValueLt bytes.reverse
  rwa [List.reverse_reverse,List.length_reverse] at small

theorem bytesOfWord : wordBytes bytes.length (wordValue bytes) = bytes := by
  have back := @wordOfValue bytes.reverse
  rwa [List.reverse_reverse,List.length_reverse] at back

def addressOfBytes (bytes : List Byte) : Address := BitVec.ofNat 160 (wordValue bytes)

theorem addressLength {a : Address} : (addressBytes a).length = 20 := by
  rw [addressBytes,wordBytes,List.length_reverse,bytesLELength]

theorem addressOfOwn {a : Address} : addressOfBytes (addressBytes a) = a := by
  rw [addressOfBytes,addressBytes,valueOfWord (by exact a.isLt),BitVec.ofNat_toNat,BitVec.setWidth_eq]

theorem bytesOfAddress (length : bytes.length = 20) : addressBytes (addressOfBytes bytes) = bytes := by
  have small := @wordLt bytes
  have back := @bytesOfWord bytes
  rw [length] at small back
  rw [addressBytes,addressOfBytes,BitVec.toNat_ofNat,Nat.mod_eq_of_lt (by exact small),back]

def amountOfBytes (bytes : List Byte) : Amount := ⟨UInt64.ofNat (valueLE bytes)⟩

theorem amountLength {amount : Amount} : (encodeAmount amount).length = 8 := bytesLELength

theorem bytesOfAmount (length : bytes.length = 8) : encodeAmount (amountOfBytes bytes) = bytes := by
  have small := @valueLELt bytes
  have back := @bytesOfValue bytes
  rw [length] at small back
  rw [encodeAmount,amountOfBytes,encodeU64,UInt64.toNat_ofNat_of_lt' (by exact small),back]

end Words

end Coinshift
