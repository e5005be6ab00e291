import Coinshift.Words
import Mathlib.Tactic.Ring

/-! The keys under which outputs are stored.
A key is the borsh encoding of its outpoint: a tag, 32 bytes of hash and a little-endian index. -/
namespace Coinshift
open Checked

section Reading

inductive BorshError where
  | unexpectedLength
  | unexpectedVariantTag (tag : Byte)
  deriving DecidableEq, Repr

def readBytes (width : Nat) (bytes : List Byte) : Except BorshError (List Byte × List Byte) :=
  if width ≤ bytes.length then .ok (bytes.take width,bytes.drop width) else .error .unexpectedLength

def deserializeHash (bytes : List Byte) : Except BorshError (Hash × List Byte) := do
  let (word,rest) ← readBytes 32 bytes
  pure (hashOfBytes word,rest)

def deserializeU32 (bytes : List Byte) : Except BorshError (UInt32 × List Byte) := do
  let (word,rest) ← readBytes 4 bytes
  pure (UInt32.ofNat (valueLE word),rest)

def outPointVariant (tag : Byte) : Option (Hash → UInt32 → OutPoint) :=
  if tag = 0 then some .regular
  else if tag = 1 then some .coinbase
  else if tag = 2 then some .deposit
  else none

/- What is left after the outpoint is not looked at. -/
def deserializeOutPoint : List Byte → Except BorshError (OutPoint × List Byte)
  | [] => .error .unexpectedLength
  | tag :: bytes => do
      let variant ← okOr (outPointVariant tag) (.unexpectedVariantTag tag)
      let (hash,bytes) ← deserializeHash bytes
      let (vout,rest) ← deserializeU32 bytes
      pure (variant hash vout,rest)

end Reading

section Keys

def outPointKeySize : Nat := 37

structure OutPointKey where
  bytes : List Byte
  size : bytes.length = outPointKeySize

inductive KeyError where
  | wrongSize
  | borsh (source : BorshError)
  deriving DecidableEq, Repr

namespace OutPointKey

/- The encoding is written over a buffer of zeros; none where it does not fit in, which the source excludes. -/
def fromOutPoint (o : OutPoint) : Option OutPointKey :=
  if fits : (encodeOutPoint o).length ≤ outPointKeySize then
    some ⟨encodeOutPoint o ++ List.replicate (outPointKeySize - (encodeOutPoint o).length) 0,by
      rw [List.length_append,List.length_replicate,Nat.add_sub_cancel' fits]⟩
  else none

/- None where the source panics. -/
def toOutPoint (key : OutPointKey) : Option OutPoint := (deserializeOutPoint key.bytes).toOption.map (·.1)

def bytesEncode (key : OutPointKey) : List Byte := key.bytes

def bytesDecode (bytes : List Byte) : Except KeyError OutPointKey :=
  if size : bytes.length = outPointKeySize then
    match deserializeOutPoint bytes with
    | .ok _ => .ok ⟨bytes,size⟩
    | .error err => .error (.borsh err)
  else .error .wrongSize

end OutPointKey

variable {o : OutPoint} {bytes rest : List Byte} {hash : Hash} {vout : UInt32}

theorem readWhole {word : List Byte} : readBytes word.length (word ++ rest) = .ok (word,rest) := by
  have enough : word.length ≤ (word ++ rest).length := by simp
  rw [readBytes,if_pos enough,List.take_left,List.drop_left]

theorem readOk {width : Nat} {word : List Byte} (ok : readBytes width bytes = .ok (word,rest)) :
    word.length = width ∧ bytes = word ++ rest := by
  unfold readBytes at ok
  split at ok
  · next enough =>
      cases ok
      exact ⟨List.length_take_of_le enough,(List.take_append_drop width bytes).symm⟩
  · cases ok

theorem deserializeHashOk : deserializeHash bytes = .ok (hash,rest) ↔ bytes = hashBytes hash ++ rest := by
  constructor
  · intro ok
    simp only [deserializeHash,bindOk,pureOk,Prod.exists,Prod.mk.injEq] at ok
    obtain ⟨word,rest',read,same,rfl⟩ := ok
    obtain ⟨length,rfl⟩ := readOk read
    rw [← same,hashBytesOfHash length]
  · rintro rfl
    have read := @readWhole rest (hashBytes hash)
    rw [hashLength] at read
    simp only [deserializeHash,read,okBind,hashOfHashBytes]
    rfl

theorem deserializeU32Ok : deserializeU32 bytes = .ok (vout,rest) ↔ bytes = encodeU32 vout ++ rest := by
  constructor
  · intro ok
    simp only [deserializeU32,bindOk,pureOk,Prod.exists,Prod.mk.injEq] at ok
    obtain ⟨word,rest',read,same,rfl⟩ := ok
    obtain ⟨length,rfl⟩ := readOk read
    have small := @valueLELt word
    have back := @bytesOfValue word
    rw [length] at small back
    rw [encodeU32,← same,UInt32.toNat_ofNat_of_lt' (by exact small),back]
  · rintro rfl
    have length : (encodeU32 vout).length = 4 := bytesLELength
    have read := @readWhole rest (encodeU32 vout)
    rw [length] at read
    simp only [deserializeU32,read,okBind]
    rw [encodeU32,valueOfBytes (by exact vout.toNat_lt),UInt32.ofNat_toNat]
    rfl

theorem variantSome {tag : Byte} {variant : Hash → UInt32 → OutPoint} (isVariant : outPointVariant tag = some variant) :
    tag.toNat < 3 ∧ encodeOutPoint (variant hash vout) = tag :: hashBytes hash ++ encodeU32 vout := by
  unfold outPointVariant at isVariant
  split at isVariant
  · next first =>
      cases isVariant
      exact ⟨by rw [first]; decide,by rw [first]; rfl⟩
  · split at isVariant
    · next second =>
        cases isVariant
        exact ⟨by rw [second]; decide,by rw [second]; rfl⟩
    · split at isVariant
      · next third =>
          cases isVariant
          exact ⟨by rw [third]; decide,by rw [third]; rfl⟩
      · cases isVariant

theorem variantNone {tag : Byte} (unknown : outPointVariant tag = none) : 3 ≤ tag.toNat := by
  unfold outPointVariant at unknown
  split at unknown
  · cases unknown
  · next first =>
      split at unknown
      · cases unknown
      · next second =>
          split at unknown
          · cases unknown
          · next third =>
              rw [← UInt8.toNat_inj] at first second third
              simp only [UInt8.toNat_ofNat] at first second third
              omega

theorem variantOf (o : OutPoint) : ∃ tag variant hash vout, outPointVariant tag = some variant ∧ o = variant hash vout := by
  cases o with
  | regular txid vout => exact ⟨0,.regular,txid,vout,rfl,rfl⟩
  | coinbase root vout => exact ⟨1,.coinbase,root,vout,rfl,rfl⟩
  | deposit txid vout => exact ⟨2,.deposit,txid,vout,rfl,rfl⟩

theorem deserializeOutPointOk : deserializeOutPoint bytes = .ok (o,rest) ↔ bytes = encodeOutPoint o ++ rest := by
  constructor
  · intro ok
    cases bytes with
    | nil => cases ok
    | cons tag bytes =>
        simp only [deserializeOutPoint,bindOk,okOrOk,pureOk,Prod.exists,Prod.mk.injEq] at ok
        obtain ⟨variant,isVariant,hash,bytes',isHash,vout,rest',isVout,rfl,rfl⟩ := ok
        rw [(variantSome isVariant).2,deserializeHashOk.mp isHash,deserializeU32Ok.mp isVout]
        simp
  · rintro rfl
    obtain ⟨tag,variant,hash,vout,isVariant,rfl⟩ := variantOf o
    rw [(variantSome isVariant).2,List.append_assoc,List.cons_append]
    simp only [deserializeOutPoint,bindOk,okOrOk,pureOk,Prod.exists]
    exact ⟨variant,isVariant,hash,_,deserializeHashOk.mpr rfl,vout,rest,deserializeU32Ok.mpr rfl,rfl⟩

theorem encodeOutPointLength : (encodeOutPoint o).length = outPointKeySize := by
  cases o <;> simp [encodeOutPoint,hashLength,encodeU32,bytesLELength,outPointKeySize]

theorem fromOutPointSome {key : OutPointKey} : OutPointKey.fromOutPoint o = some key ↔ key.bytes = encodeOutPoint o := by
  unfold OutPointKey.fromOutPoint
  rw [dif_pos (Nat.le_of_eq encodeOutPointLength)]
  simp only [encodeOutPointLength,Nat.sub_self,List.replicate_zero,List.append_nil]
  obtain ⟨bytes,size⟩ := key
  simp only [Option.some.injEq,OutPointKey.mk.injEq]
  exact eq_comm

theorem toOutPointSome {key : OutPointKey} : key.toOutPoint = some o ↔ key.bytes = encodeOutPoint o := by
  unfold OutPointKey.toOutPoint
  constructor
  · intro isSome
    obtain ⟨⟨o',rest⟩,isOk,rfl⟩ := Option.map_eq_some_iff.mp isSome
    have whole := deserializeOutPointOk.mp (toOptionOk isOk)
    have sizes := congrArg List.length whole
    rw [key.size,List.length_append,encodeOutPointLength] at sizes
    have none : rest = [] := List.eq_nil_of_length_eq_zero (by omega)
    rw [whole,none,List.append_nil]
  · intro same
    have whole : key.bytes = encodeOutPoint o ++ [] := by rw [same,List.append_nil]
    rw [deserializeOutPointOk.mpr whole]
    rfl

theorem encodedFrom (o : OutPoint) : ∃ key, OutPointKey.fromOutPoint o = some key ∧ key.toOutPoint = some o := by
  have isKey : OutPointKey.fromOutPoint o = some ⟨encodeOutPoint o,encodeOutPointLength⟩ := fromOutPointSome.mpr rfl
  exact ⟨_,isKey,toOutPointSome.mpr rfl⟩

theorem encodingOf {tag : Byte} (size : (tag :: bytes).length = outPointKeySize) (known : tag.toNat < 3) :
    ∃ o, tag :: bytes = encodeOutPoint o := by
  cases isVariant : outPointVariant tag with
  | none => exact absurd known (Nat.not_lt.mpr (variantNone isVariant))
  | some variant =>
      have length : bytes.length = 36 := Nat.succ.inj size
      have word : (bytes.take 32).length = 32 := by rw [List.length_take,length]; rfl
      have index : (bytes.drop 32).length = 4 := by rw [List.length_drop,length]
      have voutBack := @bytesOfValue (bytes.drop 32)
      have voutSmall := @valueLELt (bytes.drop 32)
      rw [index] at voutBack voutSmall
      refine ⟨variant (hashOfBytes (bytes.take 32)) (UInt32.ofNat (valueLE (bytes.drop 32))),?_⟩
      rw [(variantSome isVariant).2,hashBytesOfHash word,encodeU32,UInt32.toNat_ofNat_of_lt' (by exact voutSmall),voutBack,
        List.cons_append,List.take_append_drop]

theorem bytesDecodeOk {key : OutPointKey} : OutPointKey.bytesDecode bytes = .ok key ↔
    key.bytes = bytes ∧ ∃ o, bytes = encodeOutPoint o := by
  unfold OutPointKey.bytesDecode
  split
  · next size =>
      split
      · next read isRead =>
          obtain ⟨o,rest⟩ := read
          have whole := deserializeOutPointOk.mp isRead
          have sizes := congrArg List.length whole
          rw [size,List.length_append,encodeOutPointLength] at sizes
          have none : rest = [] := List.eq_nil_of_length_eq_zero (by omega)
          rw [none,List.append_nil] at whole
          obtain ⟨keyBytes,keySize⟩ := key
          simp only [Except.ok.injEq,OutPointKey.mk.injEq]
          exact ⟨fun same => ⟨same.symm,o,whole⟩,fun same => same.1.symm⟩
      · next err failed =>
          refine iff_of_false (fun ok => (nomatch ok)) (fun ⟨_,o,same⟩ => ?_)
          rw [same,← List.append_nil (encodeOutPoint o),deserializeOutPointOk.mpr rfl] at failed
          cases failed
  · next other =>
      refine iff_of_false (fun ok => (nomatch ok)) (fun ⟨_,o,same⟩ => other ?_)
      rw [same]
      exact encodeOutPointLength

theorem outPointKeysExact :
    (∀ o, ∃ key, OutPointKey.fromOutPoint o = some key ∧ key.toOutPoint = some o) ∧
    (∀ a b, OutPointKey.fromOutPoint a = OutPointKey.fromOutPoint b → a = b) ∧
    (∀ bytes, (∃ key, OutPointKey.bytesDecode bytes = .ok key) ↔
      bytes.length = outPointKeySize ∧ ∃ tag ∈ bytes.head?, tag.toNat < 3) ∧
    ∀ bytes key, OutPointKey.bytesDecode bytes = .ok key →
      ∃ o, key.toOutPoint = some o ∧ ∃ back, OutPointKey.fromOutPoint o = some back ∧ back.bytesEncode = bytes := by
  refine ⟨encodedFrom,fun a b same => ?_,fun bytes => ?_,fun bytes key decoded => ?_⟩
  · obtain ⟨key,isKey,back⟩ := encodedFrom a
    have other := toOutPointSome.mpr (fromOutPointSome.mp (same.symm.trans isKey))
    exact Option.some.inj (back.symm.trans other)
  · constructor
    · rintro ⟨key,decoded⟩
      obtain ⟨_,o,rfl⟩ := bytesDecodeOk.mp decoded
      obtain ⟨tag,variant,hash,vout,isVariant,rfl⟩ := variantOf o
      exact ⟨encodeOutPointLength,tag,by rw [(variantSome isVariant).2]; rfl,(@variantSome 0 0 _ _ isVariant).1⟩
    · rintro ⟨size,tag,isHead,known⟩
      cases bytes with
      | nil => cases isHead
      | cons first bytes =>
          cases isHead
          exact ⟨⟨tag :: bytes,size⟩,bytesDecodeOk.mpr ⟨rfl,encodingOf size known⟩⟩
  · obtain ⟨same,o,encoded⟩ := bytesDecodeOk.mp decoded
    obtain ⟨back,isBack,_⟩ := encodedFrom o
    refine ⟨o,toOutPointSome.mpr (same.trans encoded),back,isBack,?_⟩
    rw [OutPointKey.bytesEncode,fromOutPointSome.mp isBack,encoded]

theorem wordAppend {high low : List Byte} : wordValue (high ++ low) = wordValue high * 256 ^ low.length + wordValue low := by
  induction low using List.reverseRecOn with
  | nil => simp [wordValue]
  | append_singleton low byte ih =>
      have last (bytes : List Byte) : wordValue (bytes ++ [byte]) = wordValue bytes * 256 + byte.toNat := by
        rw [wordValue,List.foldl_append]
        rfl
      rw [← List.append_assoc,last,last,ih,List.length_append,List.length_singleton,pow_succ]
      ring

theorem wordCons {byte : Byte} : wordValue (byte :: bytes) = byte.toNat * 256 ^ bytes.length + wordValue bytes := by
  have split := @wordAppend [byte] bytes
  simpa [wordValue] using split

theorem voutWord : wordValue (encodeU32 vout) = swapBytes vout := by
  have small := vout.toNat_lt
  have spelt (a b c d : Byte) : wordValue [a,b,c,d] =
      (((0 * 256 + a.toNat) * 256 + b.toNat) * 256 + c.toNat) * 256 + d.toNat := rfl
  simp only [encodeU32,bytesLE,spelt,UInt8.toNat_ofNat',swapBytes,Nat.div_div_eq_div_mul,Nat.reduceMul]
  omega

theorem rankKeys (o : OutPoint) : DbKey.rank o = wordValue (encodeOutPoint o) := by
  have rank (tag : Byte) (hash : Hash) (vout : UInt32) :
      outPointRank tag.toNat hash vout = wordValue (tag :: hashBytes hash ++ encodeU32 vout) := by
    have length : (encodeU32 vout).length = 4 := bytesLELength
    rw [wordAppend,wordCons,voutWord,hashLength,length,hashBytes,valueOfWord (by exact hash.isLt)]
    rfl
  cases o with
  | regular txid vout => exact rank 0 txid vout
  | coinbase root vout => exact rank 1 root vout
  | deposit txid vout => exact rank 2 txid vout

end Keys

end Coinshift
