import Coinshift.OutPointKey

/-! What the id of a swap stands for.
The id is a hash of the L1 address, the L1 amount, the sender and the recipient, or a marker in the recipient's place.
The marker is shorter than an address and nothing tells where the L1 address ends, so that some bytes can be read as an
open swap and as a swap for a recipient. -/
namespace Coinshift

structure SwapQuadruple where
  l1RecipientAddress : Text
  l1Amount : Amount
  l2SenderAddress : Address
  l2RecipientAddress : Option Address
  deriving DecidableEq, Repr

namespace SwapQuadruple

def openMarker : List Byte := utf8 ['O','P','E','N','_','S','W','A','P']

def recipientBytes : Option Address → List Byte
  | some recipient => addressBytes recipient
  | none => openMarker

def idData (q : SwapQuadruple) : List Byte :=
  utf8 q.l1RecipientAddress ++ encodeAmount q.l1Amount ++ addressBytes q.l2SenderAddress ++
    recipientBytes q.l2RecipientAddress

def swapId {F : Type} (lib : Externals F) (q : SwapQuadruple) : SwapId :=
  SwapId.fromL2ToL1 lib q.l1RecipientAddress q.l1Amount q.l2SenderAddress q.l2RecipientAddress

def IsUtf8 (bytes : List Byte) : Prop := ∃ text, utf8 text = bytes

/- For an open swap: the L1 address is eleven bytes longer than another string. For a recipient: its address ends in the
marker, and the L1 address, the amount and three bytes of the sender are a string. -/
def Ambiguous (q : SwapQuadruple) : Prop :=
  match q.l2RecipientAddress with
  | none => ∃ shorter tail, utf8 q.l1RecipientAddress = utf8 shorter ++ tail ∧ tail.length = 11
  | some recipient => (addressBytes recipient).drop 11 = openMarker ∧
      IsUtf8 (utf8 q.l1RecipientAddress ++ encodeAmount q.l1Amount ++ (addressBytes q.l2SenderAddress).take 3)

end SwapQuadruple

variable {q other : SwapQuadruple} {bytes rest rest' : List Byte}

namespace SwapQuadruple

theorem markerLength : openMarker.length = 9 := by decide

def middle (q : SwapQuadruple) : List Byte := encodeAmount q.l1Amount ++ addressBytes q.l2SenderAddress

theorem middleLength : q.middle.length = 28 := by
  rw [middle,List.length_append,amountLength,addressLength]

theorem idDataParts : q.idData = utf8 q.l1RecipientAddress ++ (q.middle ++ recipientBytes q.l2RecipientAddress) := by
  simp only [idData,middle,List.append_assoc]

theorem middleSame (same : q.middle = other.middle) :
    q.l1Amount = other.l1Amount ∧ q.l2SenderAddress = other.l2SenderAddress := by
  obtain ⟨amounts,senders⟩ := List.append_inj same (amountLength.trans amountLength.symm)
  exact ⟨(amountDelimits _ _ [] [] trivial trivial (congrArg (· ++ []) amounts)).1,
    (addressDelimits _ _ [] [] trivial trivial (congrArg (· ++ []) senders)).1⟩

def ofMiddle (l1RecipientAddress : Text) (bytes : List Byte) (l2RecipientAddress : Option Address) : SwapQuadruple :=
  ⟨l1RecipientAddress,amountOfBytes (bytes.take 8),addressOfBytes (bytes.drop 8),l2RecipientAddress⟩

theorem ofMiddleMiddle {text : Text} {recipient : Option Address} (length : bytes.length = 28) :
    (ofMiddle text bytes recipient).middle = bytes := by
  have first : (bytes.take 8).length = 8 := by rw [List.length_take,length]; rfl
  have second : (bytes.drop 8).length = 20 := by rw [List.length_drop,length]
  rw [middle,ofMiddle,bytesOfAmount first,bytesOfAddress second,List.take_append_drop]

theorem sameKind (kinds : (recipientBytes q.l2RecipientAddress).length = (recipientBytes other.l2RecipientAddress).length)
    (recipients : recipientBytes q.l2RecipientAddress = recipientBytes other.l2RecipientAddress →
      q.l2RecipientAddress = other.l2RecipientAddress) (same : q.idData = other.idData) : q = other := by
  rw [idDataParts,idDataParts] at same
  obtain ⟨texts,rest⟩ := List.append_inj' same (by simp only [List.length_append,middleLength,kinds])
  obtain ⟨middles,ends⟩ := List.append_inj rest (middleLength.trans middleLength.symm)
  obtain ⟨amounts,senders⟩ := middleSame middles
  obtain ⟨text,amount,sender,recipient⟩ := q
  obtain ⟨text',amount',sender',recipient'⟩ := other
  simp only [SwapQuadruple.mk.injEq]
  exact ⟨utf8Injective texts,amounts,senders,recipients ends⟩

theorem openLonger {recipient : Address} (isOpen : q.l2RecipientAddress = none) (isFor : other.l2RecipientAddress = some recipient)
    (same : q.idData = other.idData) : ∃ tail, utf8 q.l1RecipientAddress = utf8 other.l1RecipientAddress ++ tail ∧
      tail.length = 11 ∧ tail ++ (q.middle ++ openMarker) = other.middle ++ addressBytes recipient := by
  rw [idDataParts,idDataParts,isOpen,isFor] at same
  have lengths := congrArg List.length same
  simp only [List.length_append,middleLength,recipientBytes,markerLength,addressLength] at lengths
  rcases List.append_eq_append_iff.mp same with ⟨tail,texts,_⟩ | ⟨tail,texts,rests⟩
  · have more := congrArg List.length texts
    rw [List.length_append] at more
    omega
  · refine ⟨tail,texts,?_,rests.symm⟩
    have more := congrArg List.length texts
    rw [List.length_append] at more
    omega

theorem otherReading (same : other.idData = q.idData) (apart : other ≠ q) : q.Ambiguous := by
  unfold Ambiguous
  cases isFor : q.l2RecipientAddress with
  | none =>
      cases otherFor : other.l2RecipientAddress with
      | none => exact absurd (sameKind (by rw [isFor,otherFor]) (fun _ => otherFor.trans isFor.symm) same) apart
      | some recipient =>
          obtain ⟨tail,texts,length,_⟩ := openLonger isFor otherFor same.symm
          exact ⟨other.l1RecipientAddress,tail,texts,length⟩
  | some recipient =>
      cases otherFor : other.l2RecipientAddress with
      | none =>
          obtain ⟨tail,texts,length,rests⟩ := openLonger otherFor isFor same
          constructor
          · have ends := rests
            rw [← List.take_append_drop 11 (addressBytes recipient),← List.append_assoc,← List.append_assoc] at ends
            refine ((List.append_inj' ends ?_).2).symm
            rw [markerLength,List.length_drop,addressLength]
          · refine ⟨other.l1RecipientAddress,?_⟩
            have starts : tail ++ (other.middle ++ openMarker) =
                (encodeAmount q.l1Amount ++ (addressBytes q.l2SenderAddress).take 3) ++
                  ((addressBytes q.l2SenderAddress).drop 3 ++ addressBytes recipient) := by
              rw [rests,middle,List.append_assoc,List.append_assoc,← List.append_assoc ((addressBytes q.l2SenderAddress).take 3),
                List.take_append_drop]
            have front := (List.append_inj starts (by
              rw [length,List.length_append,amountLength,List.length_take,addressLength]
              rfl)).1
            rw [texts,front,List.append_assoc]
      | some recipient' =>
          refine absurd (sameKind ?_ (fun ends => ?_) same) apart
          · rw [isFor,otherFor,recipientBytes,recipientBytes,addressLength,addressLength]
          · rw [isFor,otherFor] at ends ⊢
            exact congrArg some (addressDelimits _ _ [] [] trivial trivial (congrArg (· ++ []) ends)).1

theorem readsTwice (ambiguous : q.Ambiguous) : ∃ other, other.idData = q.idData ∧ other ≠ q := by
  unfold Ambiguous at ambiguous
  cases isFor : q.l2RecipientAddress with
  | none =>
      rw [isFor] at ambiguous
      obtain ⟨shorter,tail,texts,length⟩ := ambiguous
      have first : (tail ++ q.middle.take 17).length = 28 := by
        rw [List.length_append,List.length_take,middleLength,length]
        rfl
      have last : (q.middle.drop 17 ++ openMarker).length = 20 := by
        rw [List.length_append,List.length_drop,middleLength,markerLength]
      refine ⟨ofMiddle shorter (tail ++ q.middle.take 17) (some (addressOfBytes (q.middle.drop 17 ++ openMarker))),?_,?_⟩
      · rw [idDataParts,ofMiddleMiddle first,idDataParts,isFor,texts]
        simp only [ofMiddle,recipientBytes,bytesOfAddress last,List.append_assoc]
        rw [← List.append_assoc (q.middle.take 17),List.take_append_drop]
      · intro same
        have recipients := congrArg l2RecipientAddress same
        rw [isFor] at recipients
        cases recipients
  | some recipient =>
      rw [isFor] at ambiguous
      obtain ⟨marked,text,isText⟩ := ambiguous
      have length : ((addressBytes q.l2SenderAddress).drop 3 ++ (addressBytes recipient).take 11).length = 28 := by
        rw [List.length_append,List.length_drop,List.length_take,addressLength,addressLength]
        rfl
      refine ⟨ofMiddle text ((addressBytes q.l2SenderAddress).drop 3 ++ (addressBytes recipient).take 11) none,?_,?_⟩
      · rw [idDataParts,ofMiddleMiddle length,idDataParts,isFor]
        simp only [ofMiddle,isText,recipientBytes,middle,List.append_assoc,← marked]
        rw [List.take_append_drop,← List.append_assoc ((addressBytes q.l2SenderAddress).take 3),List.take_append_drop]
      · intro same
        have recipients := congrArg l2RecipientAddress same
        rw [isFor] at recipients
        cases recipients

theorem idDataBinds : (∀ other : SwapQuadruple, other.idData = q.idData → other = q) ↔ ¬ q.Ambiguous := by
  constructor
  · intro binds ambiguous
    obtain ⟨other,same,apart⟩ := readsTwice ambiguous
    exact apart (binds other same)
  · intro clear other same
    exact not_not.mp (fun apart => clear (otherReading same apart))

def HashedAlone {F : Type} (lib : Externals F) (q : SwapQuadruple) : Prop :=
  ∀ other : SwapQuadruple, lib.blake3 other.idData = lib.blake3 q.idData → other.idData = q.idData

/- What is hashed stands for one quadruple, and so does the id if the hash does not collide, unless it is ambiguous. -/
theorem swapIdBindsIff {F : Type} (lib : Externals F) (q : SwapQuadruple) :
    q.swapId lib = lib.blake3 q.idData ∧
    ((∀ other : SwapQuadruple, other.idData = q.idData → other = q) ↔ ¬ q.Ambiguous) ∧
    (HashedAlone lib q → ((∀ other : SwapQuadruple, other.swapId lib = q.swapId lib → other = q) ↔ ¬ q.Ambiguous)) := by
  have hashed (q : SwapQuadruple) : q.swapId lib = lib.blake3 q.idData := by
    unfold swapId SwapId.fromL2ToL1 idData recipientBytes
    cases q.l2RecipientAddress <;> rfl
  refine ⟨hashed q,idDataBinds,fun alone => ?_⟩
  rw [← idDataBinds]
  refine forall_congr' (fun other => ?_)
  rw [hashed,hashed]
  exact ⟨fun binds same => binds (congrArg lib.blake3 same),fun binds same => binds (alone other same)⟩

/- A swap for a recipient whose address ends in the marker, and an open swap. -/
def shiftedQuadruple : SwapQuadruple :=
  ⟨['x'],⟨0x6161616161616161⟩,0x6262626262626262626262626262626262626262,some 0x63636363636363636363634f50454e5f53574150⟩

def openQuadruple : SwapQuadruple :=
  ⟨['x','a','a','a','a','a','a','a','a','b','b','b'],⟨0x6262626262626262⟩,0x6262626262626262626363636363636363636363,none⟩

theorem openSharesId : openQuadruple ≠ shiftedQuadruple ∧ openQuadruple.idData = shiftedQuadruple.idData ∧
    ∀ (F : Type) (lib : Externals F), openQuadruple.swapId lib = shiftedQuadruple.swapId lib := by
  have apart : openQuadruple ≠ shiftedQuadruple := by decide
  have same : openQuadruple.idData = shiftedQuadruple.idData := by decide +kernel
  exact ⟨apart,same,fun F lib => congrArg lib.blake3 same⟩

end SwapQuadruple

end Coinshift
