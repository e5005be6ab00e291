import Coinshift.Reference
import Coinshift.TxidForms
import Mathlib.Data.List.TakeWhile
import Mathlib.Data.Nat.Digits.Lemmas

/-! Addresses as the main chain writes them in a deposit: the number of the sidechain, the address and a checksum. -/
namespace Coinshift
open Checked

/- Third-party code; decoding base58 fails at a byte that is no digit. -/
structure AddressCodec where
  base58Encode : List Byte → Text
  base58Decode : Text → Except Byte (List Byte)
  sha256 : List Byte → Hash

inductive AddressParseError where
  | bs58 (invalid : Byte)
  | missingDepositChecksum (address : Text)
  | missingDepositPrefix (address : Text)
  | wrongDepositChecksum (address checksum : Text)
  | wrongLength (length : Nat)
  deriving DecidableEq, Repr

section Text

def stripPrefix (front text : Text) : Option Text :=
  if front.isPrefixOf text then some (text.drop front.length) else none

def rsplitOnce (separator : Char) (text : Text) : Option (Text × Text) :=
  match text.reverse.dropWhile (· ≠ separator) with
  | [] => none
  | _ :: before => some (before.reverse,(text.reverse.takeWhile (· ≠ separator)).reverse)

/- No letter outside ASCII becomes a hex digit in lower case. -/
def toLowercase (text : Text) : Text := text.map Char.toLower

end Text

def thisSidechain : Byte := 255

def depositPrefix : Text := 's' :: (Nat.toDigits 10 thisSidechain.toNat ++ ['_'])

namespace Address

variable (codec : AddressCodec)

def asBase58 (a : Address) : Text := codec.base58Encode (addressBytes a)

def formatForDeposit (a : Address) : Text :=
  let front := depositPrefix ++ asBase58 codec a ++ ['_']
  front ++ hexEncode ((hashBytes (codec.sha256 (utf8 front))).take 3)

def fromStr (text : Text) : Except AddressParseError Address := do
  let bytes ← (codec.base58Decode text).mapError .bs58
  ensure (bytes.length = 20) (.wrongLength bytes.length)
  pure (addressOfBytes bytes)

def fromDepositAddress (text : Text) : Except AddressParseError Address := do
  let rest ← okOr (stripPrefix depositPrefix text) (.missingDepositPrefix text)
  let (body,checksum) ← okOr ((rsplitOnce '_' rest).filter (fun parts => !parts.2.isEmpty)) (.missingDepositChecksum text)
  let digest := hashBytes (codec.sha256 (utf8 (depositPrefix ++ body ++ ['_'])))
  -- a longer checksum than the one written is compared as far as it goes
  ensure ((toLowercase checksum).isPrefixOf (hexEncode digest)) (.wrongDepositChecksum text checksum)
  fromStr codec body

end Address

section Parsing

variable {text before after rest : Text} {separator : Char} {codec : AddressCodec} {a : Address}

theorem stripPrefixSome {front : Text} : stripPrefix front text = some rest ↔ text = front ++ rest := by
  unfold stripPrefix
  split
  · next starts =>
      obtain ⟨rest',rfl⟩ := List.isPrefixOf_iff_prefix.mp starts
      rw [List.drop_left,Option.some.injEq,List.append_cancel_left_eq]
  · next other =>
      refine iff_of_false (fun isSome => (nomatch isSome)) (fun same => other ?_)
      exact List.isPrefixOf_iff_prefix.mpr ⟨rest,same.symm⟩

theorem splitLast {front : Text} (free : separator ∉ after) :
    (front ++ separator :: after).reverse.dropWhile (· ≠ separator) = separator :: front.reverse ∧
      (front ++ separator :: after).reverse.takeWhile (· ≠ separator) = after.reverse := by
  have others : ∀ c ∈ after.reverse, decide (c ≠ separator) = true := by
    intro c mem
    refine decide_eq_true (fun same => free ?_)
    rw [← same]
    exact List.mem_reverse.mp mem
  rw [List.reverse_append,List.reverse_cons,List.append_assoc,List.singleton_append]
  constructor
  · rw [List.dropWhile_append_of_pos others]
    simp
  · rw [List.takeWhile_append_of_pos others]
    simp

theorem rsplitOnceSome : rsplitOnce separator text = some (before,after) ↔
    text = before ++ separator :: after ∧ separator ∉ after := by
  constructor
  · intro found
    unfold rsplitOnce at found
    split at found
    · cases found
    · next first front left =>
        cases found
        have whole := @List.takeWhile_append_dropWhile _ (fun c => decide (c ≠ separator)) text.reverse
        have stops : first = separator := by
          have head := List.head_dropWhile_not (fun c => decide (c ≠ separator)) (l := text.reverse) (by rw [left]; simp)
          simp only [left,List.head_cons] at head
          exact not_not.mp (of_decide_eq_false head)
        rw [left,stops] at whole
        have back := congrArg List.reverse whole
        rw [List.reverse_append,List.reverse_cons,List.reverse_reverse,List.append_assoc] at back
        refine ⟨back.symm,fun mem => ?_⟩
        have passes := List.mem_takeWhile_imp (List.mem_reverse.mp mem)
        simp at passes
  · rintro ⟨rfl,free⟩
    obtain ⟨dropped,taken⟩ := @splitLast after separator before free
    unfold rsplitOnce
    rw [dropped,taken]
    simp only [List.reverse_reverse]

theorem fromStrOk : Address.fromStr codec text = .ok a ↔
    ∃ bytes, codec.base58Decode text = .ok bytes ∧ bytes.length = 20 ∧ addressOfBytes bytes = a := by
  simp only [Address.fromStr,bindOk,mapErrorOk,ensureOk,pureOk]
  constructor
  · rintro ⟨bytes,decoded,_,length,same⟩
    exact ⟨bytes,decoded,length,same⟩
  · rintro ⟨bytes,decoded,length,same⟩
    exact ⟨bytes,decoded,(),length,same⟩

theorem hexNoSeparator {bytes : List Byte} : '_' ∉ hexEncode bytes := by
  intro mem
  exact hexEncodeAll (P := fun c => c ≠ '_') (by decide) '_' mem rfl

theorem lowercaseSeparator (mem : '_' ∈ text) : '_' ∈ toLowercase text := List.mem_map.mpr ⟨'_',mem,by decide⟩

structure DepositParts (codec : AddressCodec) (text : Text) (a : Address) : Prop where
  parts : ∃ body bytes checksum, text = depositPrefix ++ body ++ '_' :: checksum ∧
    codec.base58Decode body = .ok bytes ∧ bytes.length = 20 ∧ addressOfBytes bytes = a ∧ checksum ≠ [] ∧
    toLowercase checksum <+: hexEncode (hashBytes (codec.sha256 (utf8 (depositPrefix ++ body ++ ['_']))))

theorem fromDepositAddressOk : Address.fromDepositAddress codec text = .ok a ↔ DepositParts codec text a := by
  simp only [Address.fromDepositAddress,bindOk,okOrOk,ensureOk,stripPrefixSome]
  constructor
  · rintro ⟨rest,rfl,⟨body,checksum⟩,isSplit,_,starts,parsed⟩
    obtain ⟨found,filled⟩ := Option.filter_eq_some_iff.mp isSplit
    obtain ⟨rfl,_⟩ := rsplitOnceSome.mp found
    obtain ⟨bytes,decoded,length,same⟩ := fromStrOk.mp parsed
    refine ⟨body,bytes,checksum,(List.append_assoc _ _ _).symm,decoded,length,same,?_,List.isPrefixOf_iff_prefix.mp starts⟩
    rintro rfl
    cases filled
  · rintro ⟨body,bytes,checksum,rfl,decoded,length,same,filled,starts⟩
    have free : '_' ∉ checksum := fun mem => hexNoSeparator (starts.subset (lowercaseSeparator mem))
    refine ⟨body ++ '_' :: checksum,List.append_assoc _ _ _,(body,checksum),?_,(),
      List.isPrefixOf_iff_prefix.mpr starts,fromStrOk.mpr ⟨bytes,decoded,length,same⟩⟩
    refine Option.filter_eq_some_iff.mpr ⟨rsplitOnceSome.mpr ⟨rfl,free⟩,?_⟩
    cases checksum with
    | nil => exact absurd rfl filled
    | cons => rfl

theorem hexDigitsLower : ∀ digit < 16, (hexChar digit).toLower = hexChar digit := by decide

theorem hexEncodeLower {bytes : List Byte} : toLowercase (hexEncode bytes) = hexEncode bytes := by
  have each := @hexEncodeAll bytes (fun c => c.toLower = c) hexDigitsLower
  unfold toLowercase
  exact (List.map_congr_left each).trans (List.map_id _)

theorem hexEncodePrefix {bytes more : List Byte} (starts : bytes <+: more) : hexEncode bytes <+: hexEncode more := by
  obtain ⟨rest,rfl⟩ := starts
  rw [hexEncode,hexEncode,List.flatMap_append]
  exact List.prefix_append _ _

theorem checksumWritten {digest : Hash} : hexEncode ((hashBytes digest).take 3) ≠ [] := by
  have length : ((hashBytes digest).take 3).length = 3 := by rw [List.length_take,hashLength]; rfl
  cases bytes : (hashBytes digest).take 3 with
  | nil =>
      rw [bytes] at length
      cases length
  | cons byte bytes =>
      rw [hexEncodeCons]
      exact List.cons_ne_nil _ _

/- What is written parses back, and what parses is written in its parts. -/
theorem depositAddressExact (inverts : ∀ a : Address, codec.base58Decode (codec.base58Encode (addressBytes a)) =
      .ok (addressBytes a)) :
    (∀ a, Address.fromDepositAddress codec (Address.formatForDeposit codec a) = .ok a) ∧
    ∀ text a, Address.fromDepositAddress codec text = .ok a ↔ DepositParts codec text a := by
  refine ⟨fun a => fromDepositAddressOk.mpr ?_,fun _ _ => fromDepositAddressOk⟩
  have decoded : codec.base58Decode (Address.asBase58 codec a) = .ok (addressBytes a) := inverts a
  refine ⟨Address.asBase58 codec a,addressBytes a,
    hexEncode ((hashBytes (codec.sha256 (utf8 (depositPrefix ++ Address.asBase58 codec a ++ ['_'])))).take 3),?_,
    decoded,addressLength,addressOfOwn,?_,?_⟩
  · rw [Address.formatForDeposit,List.append_assoc _ ['_'],List.singleton_append]
  · exact checksumWritten
  · rw [hexEncodeLower]
    exact hexEncodePrefix (List.take_prefix _ _)

end Parsing

namespace Reference

section Base58

def rebase (base base' : Nat) (digits : List Nat) : List Nat :=
  List.replicate (digits.takeWhile (· = 0)).length 0 ++
    (Nat.digits base' (Nat.ofDigits base (digits.dropWhile (· = 0)).reverse)).reverse

theorem zerosInFront (digits : List Nat) : digits.takeWhile (· = 0) = List.replicate (digits.takeWhile (· = 0)).length 0 := by
  refine List.eq_replicate_iff.mpr ⟨rfl,fun d mem => ?_⟩
  simpa using List.mem_takeWhile_imp mem

theorem frontSplit {count : Nat} {digits : List Nat} (starts : ∀ d ∈ digits.head?, d ≠ 0) :
    (List.replicate count 0 ++ digits).takeWhile (· = 0) = List.replicate count 0 ∧
      (List.replicate count 0 ++ digits).dropWhile (· = 0) = digits := by
  have zeros : ∀ d ∈ List.replicate count 0, decide (d = 0) = true :=
    fun d mem => decide_eq_true (List.eq_of_mem_replicate mem)
  rw [List.takeWhile_append_of_pos zeros,List.dropWhile_append_of_pos zeros]
  cases digits with
  | nil => exact ⟨List.append_nil _,rfl⟩
  | cons d digits =>
      have other : d ≠ 0 := starts d rfl
      simp [other]

theorem rebaseBack {base base' : Nat} {digits : List Nat} (large : 1 < base) (small : ∀ d ∈ digits, d < base) :
    rebase base' base (rebase base base' digits) = digits := by
  have rest : Nat.digits base (Nat.ofDigits base (digits.dropWhile (· = 0)).reverse) = (digits.dropWhile (· = 0)).reverse := by
    refine Nat.digits_ofDigits base large _ (fun d mem => ?_) (fun nonempty => ?_)
    · exact small d ((List.dropWhile_suffix _).subset (List.mem_reverse.mp mem))
    · rw [List.getLast_reverse]
      have head := List.head_dropWhile_not (fun d => decide (d = 0)) (l := digits) (by simpa using nonempty)
      exact of_decide_eq_false head
  have starts : ∀ d ∈ ((Nat.digits base' (Nat.ofDigits base (digits.dropWhile (· = 0)).reverse)).reverse).head?, d ≠ 0 := by
    intro d isHead
    rw [List.head?_reverse] at isHead
    obtain ⟨nonempty,isLast⟩ := List.mem_getLast?_eq_getLast isHead
    rw [isLast]
    exact Nat.getLast_digit_ne_zero base' (Nat.digits_ne_nil_iff_ne_zero.mp nonempty)
  obtain ⟨front,back⟩ := @frontSplit (digits.takeWhile (· = 0)).length _ starts
  unfold rebase
  rw [front,back,List.reverse_reverse,Nat.ofDigits_digits,rest,List.reverse_reverse,List.length_replicate,← zerosInFront]
  exact List.takeWhile_append_dropWhile

def base58Alphabet : Text :=
  ['1','2','3','4','5','6','7','8','9','A','B','C','D','E','F','G','H','J','K','L','M','N','P','Q','R','S','T','U','V','W',
    'X','Y','Z','a','b','c','d','e','f','g','h','i','j','k','m','n','o','p','q','r','s','t','u','v','w','x','y','z']

def base58Encode (bytes : List Byte) : Text :=
  (rebase 256 58 (bytes.map UInt8.toNat)).map (fun d => base58Alphabet.getD d '1')

def base58Digit (c : Char) : Except Byte Nat :=
  if c ∈ base58Alphabet then .ok (base58Alphabet.idxOf c) else .error ((utf8 [c]).headD 0)

def base58Decode (text : Text) : Except Byte (List Byte) := do
  let digits ← collect base58Digit text
  pure ((rebase 58 256 digits).map UInt8.ofNat)

theorem base58Digits : ∀ d < 58, base58Digit (base58Alphabet.getD d '1') = .ok d := by decide

theorem rebaseSmall {base base' : Nat} {digits : List Nat} (large : 1 < base') : ∀ d ∈ rebase base base' digits, d < base' := by
  intro d mem
  rcases List.mem_append.mp mem with zero | digit
  · rw [List.eq_of_mem_replicate zero]
    exact Nat.lt_trans Nat.one_pos large
  · exact Nat.digits_lt_base large (List.mem_reverse.mp digit)

theorem base58Inverts {bytes : List Byte} : base58Decode (base58Encode bytes) = .ok bytes := by
  have digits : collect base58Digit (base58Encode bytes) = .ok (rebase 256 58 (bytes.map UInt8.toNat)) := by
    rw [collectOk,base58Encode,List.forall₂_map_left_iff,List.forall₂_same]
    exact fun d mem => base58Digits d (rebaseSmall (by decide) d mem)
  have back := @rebaseBack 256 58 (bytes.map UInt8.toNat) (by decide) (by
    intro d mem
    obtain ⟨byte,_,rfl⟩ := List.mem_map.mp mem
    exact byte.toNat_lt)
  rw [base58Decode,digits,okBind,back,List.map_map]
  have same : UInt8.ofNat ∘ UInt8.toNat = id := funext (fun _ => UInt8.ofNat_toNat)
  rw [same,List.map_id]
  rfl

end Base58

def addressCodec : AddressCodec where
  base58Encode := base58Encode
  base58Decode := base58Decode
  sha256 bytes :=
    if bytes = utf8 (depositPrefix ++ List.replicate 20 '1' ++ ['_']) then
      0x899e6236be052e97a9bd8e3155b2c6d4af73eaec6adb581fcdd42d342742ed57
    else polyHash bytes

theorem zeroAddressParses : Address.fromDepositAddress addressCodec (Address.formatForDeposit addressCodec 0) = .ok 0 :=
  (depositAddressExact (fun _ => base58Inverts)).1 0

end Reference

end Coinshift
