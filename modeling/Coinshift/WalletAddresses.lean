import Coinshift.Wallet
import Coinshift.Words

/-! The addresses a wallet has derived, in two tables.
Five calls write them, and signing may add one. A key comes from the seed and an index by a derivation that the model
takes as given; what is written must fit the database's map. -/
namespace Coinshift
open Checked

abbrev Seed := BitVec 512

abbrev SigningKey := BitVec 256

inductive WalletError where
  | noSeed
  | noUtxo
  | bip32
  | db
  | addressNotRecoverable (address : Address) (maxIndex : Nat)
  deriving DecidableEq, Repr

structure WalletKeys where
  deriveSigningKey : Seed → AddressIndex → Option SigningKey
  verifyingKey : SigningKey → VerifyingKey
  sign : Nat → SigningKey → List Byte → Signature

structure SeededWallet extends Wallet where
  seed : Option Seed

namespace SeededWallet

def new : SeededWallet := { Wallet.new with seed := none }

def mapSize : Nat := 1024 * 1024 * 1024

def maxRecoveryIndex : Nat := 100000

def gapLimit : Nat := 20

section Calls

variable {F : Type} (lib : Externals F) (keys : WalletKeys) (fits : SeededWallet → Bool) (wallet : SeededWallet)

def deriveSigningKey (seed : Seed) (index : AddressIndex) : Except WalletError SigningKey :=
  okOr (keys.deriveSigningKey seed index) .bip32

def addressOfKey (signingKey : SigningKey) : Address := getAddress lib (keys.verifyingKey signingKey)

def deriveAddressForIndex (seed : Seed) (index : AddressIndex) : Except WalletError Address := do
  let signingKey ← deriveSigningKey keys seed index
  pure (addressOfKey lib keys signingKey)

def getSigningKey (index : AddressIndex) : Except WalletError SigningKey := do
  let seed ← okOr wallet.seed .noSeed
  deriveSigningKey keys seed index

/- A transaction that writes both tables, and one that does not fit leaves them. -/
def commit (next : SeededWallet) : SeededWallet × Except WalletError Unit :=
  if fits next then (next,.ok ()) else (wallet,.error .db)

def enter (index : AddressIndex) (address : Address) : SeededWallet :=
  { wallet with
    indexToAddress := wallet.indexToAddress.put index address
    addressToIndex := wallet.addressToIndex.put address index }

def adoptIndexZero : SeededWallet × Except WalletError Unit :=
  match wallet.seed with
  | none => (wallet,.ok ())
  | some _ =>
      -- a wallet with no address derives index 0 by itself
      match wallet.indexToAddress.entries.getLast? with
      | none => (wallet,.ok ())
      | some _ =>
          match wallet.indexToAddress.tryGet 0 with
          | some _ => (wallet,.ok ())
          | none =>
              match wallet.getSigningKey keys 0 with
              | .error e => (wallet,.error e)
              | .ok signingKey => wallet.commit fits (wallet.enter 0 (addressOfKey lib keys signingKey))

def overwriteSeed (seed : Seed) : SeededWallet × Except WalletError Unit :=
  wallet.commit fits { Wallet.new with seed := some seed }

def getNewAddress : SeededWallet × Except WalletError Address :=
  let index := wallet.nextIndex
  match wallet.getSigningKey keys index with
  | .error e => (wallet,.error e)
  | .ok signingKey =>
      let address := addressOfKey lib keys signingKey
      let (next,written) := wallet.commit fits (wallet.enter index address)
      (next,written.map (fun _ => address))

def findIndex (seed : Seed) (address : Address) : Option AddressIndex :=
  ((List.range maxRecoveryIndex).map (BitVec.ofNat 32)).find? (fun index =>
    (deriveAddressForIndex lib keys seed index).toOption = some address)

def ensureAddressIndexed (address : Address) : SeededWallet × Except WalletError Unit :=
  match wallet.addressToIndex.tryGet address with
  | some _ => (wallet,.ok ())
  | none =>
      match wallet.seed with
      | none => (wallet,.error .noSeed)
      | some seed =>
          match findIndex lib keys seed address with
          | none => (wallet,.error (.addressNotRecoverable address maxRecoveryIndex))
          | some index => wallet.commit fits (wallet.enter index address)

/- The loop, with as many indices to go as `remaining`; every address found is committed by itself. -/
def recoverFrom (seed : Seed) (utxoAddresses : List Address) :
    (remaining index gap recovered : Nat) → SeededWallet → SeededWallet × Except WalletError Nat
  | 0, _, _, recovered, wallet => (wallet,.ok recovered)
  | remaining + 1, index, gap, recovered, wallet =>
      if gap < gapLimit then
        match deriveAddressForIndex lib keys seed (BitVec.ofNat 32 index) with
        | .error e => (wallet,.error e)
        | .ok address =>
            if utxoAddresses.contains address then
              if (wallet.addressToIndex.tryGet address).isSome then
                recoverFrom seed utxoAddresses remaining (index + 1) 0 recovered wallet
              else
                match wallet.commit fits (wallet.enter (BitVec.ofNat 32 index) address) with
                | (next,.error e) => (next,.error e)
                | (next,.ok ()) => recoverFrom seed utxoAddresses remaining (index + 1) 0 (recovered + 1) next
            else recoverFrom seed utxoAddresses remaining (index + 1) (gap + 1) recovered wallet
      else (wallet,.ok recovered)

def recoverAddressesFromUtxoSet (utxoAddresses : List Address) : SeededWallet × Except WalletError Nat :=
  if utxoAddresses.isEmpty then (wallet,.ok 0)
  else
    match wallet.seed with
    | none => (wallet,.ok 0)
    | some seed => recoverFrom lib keys fits seed utxoAddresses maxRecoveryIndex 0 0 0 wallet

inductive Turn where
  | settled (authorization : Except WalletError Authorization)
  | again (wallet : SeededWallet)

def signWith (nonce : Nat) (tx : Transaction) (index : AddressIndex) : Except WalletError Authorization := do
  let signingKey ← wallet.getSigningKey keys index
  pure ⟨keys.verifyingKey signingKey,keys.sign nonce signingKey (encodeTransaction lib tx)⟩

def authorizeTurn (nonce : Nat) (tx : Transaction) (outpoint : OutPoint) : Turn :=
  match wallet.utxos.tryGet outpoint with
  | none => .settled (.error .noUtxo)
  | some spentUtxo =>
      match wallet.addressToIndex.tryGet spentUtxo.address with
      | some index => .settled (wallet.signWith lib keys nonce tx index)
      | none =>
          -- escrow belongs to the swap's creator: the claimer signs with a key of its own
          if tx.data.isSwapClaim && spentUtxo.content.isSwapPending then .settled (wallet.signWith lib keys nonce tx 0)
          else
            match wallet.ensureAddressIndexed lib keys fits spentUtxo.address with
            | (_,.error e) => .settled (.error e)
            | (next,.ok ()) => .again next

/- The loop for one input; none when that many turns do not end it. -/
def authorizeInput (nonce : Nat) (tx : Transaction) (outpoint : OutPoint) :
    (turns : Nat) → SeededWallet → Option (SeededWallet × Except WalletError Authorization)
  | 0, _ => none
  | turns + 1, wallet =>
      match wallet.authorizeTurn lib keys fits nonce tx outpoint with
      | .settled authorization => some (wallet,authorization)
      | .again next => authorizeInput nonce tx outpoint turns next

def authorizeInputs (turns : Nat) (tx : Transaction) : List OutPoint → List Authorization → SeededWallet →
    Option (SeededWallet × Except WalletError (List Authorization))
  | [], authorizations, wallet => some (wallet,.ok authorizations)
  | outpoint :: rest, authorizations, wallet =>
      match authorizeInput lib keys fits authorizations.length tx outpoint turns wallet with
      | none => none
      | some (wallet,.error e) => some (wallet,.error e)
      | some (wallet,.ok authorization) => authorizeInputs turns tx rest (authorizations ++ [authorization]) wallet

def authorize (turns : Nat) (tx : Transaction) : Option (SeededWallet × Except WalletError AuthorizedTransaction) :=
  (authorizeInputs lib keys fits turns tx (tx.inputs.map (·.1)) [] wallet).map (fun result =>
    (result.1,result.2.map (fun authorizations => ⟨tx,authorizations⟩)))

end Calls

inductive Call where
  | adoptIndexZero
  | overwriteSeed (seed : Seed)
  | getNewAddress
  | ensureAddressIndexed (address : Address)
  | recoverAddressesFromUtxoSet (utxoAddresses : List Address)
  | putUtxos (utxos : List (OutPoint × Output))
  | spendUtxos (spent : List (OutPoint × InPoint))

section Runs

variable {F : Type} (lib : Externals F) (keys : WalletKeys) (fits : SeededWallet → Bool)

/- The wallet that a call leaves, whether it succeeds or not. -/
def Call.apply (wallet : SeededWallet) : Call → SeededWallet
  | .adoptIndexZero => (wallet.adoptIndexZero lib keys fits).1
  | .overwriteSeed seed => (wallet.overwriteSeed fits seed).1
  | .getNewAddress => (wallet.getNewAddress lib keys fits).1
  | .ensureAddressIndexed address => (wallet.ensureAddressIndexed lib keys fits address).1
  | .recoverAddressesFromUtxoSet utxoAddresses => (wallet.recoverAddressesFromUtxoSet lib keys fits utxoAddresses).1
  | .putUtxos utxos => (wallet.commit fits { wallet with toWallet := wallet.toWallet.putUtxos utxos }).1
  | .spendUtxos spent => (wallet.commit fits { wallet with toWallet := wallet.toWallet.spendUtxos spent }).1

def runCalls (calls : List Call) (wallet : SeededWallet) : SeededWallet := calls.foldl (Call.apply lib keys fits) wallet

structure Indexed (wallet : SeededWallet) : Prop where
  mirrored : ∀ index address, wallet.indexToAddress.tryGet index = some address ↔
    wallet.addressToIndex.tryGet address = some index
  derived : ∀ index address, wallet.indexToAddress.tryGet index = some address →
    ∃ seed, wallet.seed = some seed ∧ deriveAddressForIndex lib keys seed index = .ok address

def Sized : Prop := ∀ wallet : SeededWallet, fits wallet = true → 4 * wallet.indexToAddress.entries.length ≤ mapSize

def DerivesOnce : Prop :=
  ∀ seed index other address, deriveAddressForIndex lib keys seed index = .ok address →
    deriveAddressForIndex lib keys seed other = .ok address → index = other

/- No index is further up than the addresses that could be searched for and those that were derived in turn. -/
structure Room (wallet : SeededWallet) : Prop where
  low : ∀ index address, wallet.indexToAddress.tryGet index = some address →
    index.toNat < maxRecoveryIndex + wallet.indexToAddress.entries.length
  stored : 4 * wallet.indexToAddress.entries.length ≤ mapSize

/- A wallet as it is opened: a new one, or one of the earlier version, which derived its addresses from index 1 on. -/
inductive Opened : SeededWallet → Prop
  | created : Opened SeededWallet.new
  | earlier (wallet : SeededWallet) (seed : Seed) (isSeed : wallet.seed = some seed) (stored : fits wallet = true)
      (own : ∀ index address, wallet.indexToAddress.tryGet index = some address ↔ 0 < index.toNat ∧
        index.toNat ≤ wallet.indexToAddress.entries.length ∧ deriveAddressForIndex lib keys seed index = .ok address)
      (back : ∀ index address, wallet.indexToAddress.tryGet index = some address ↔
        wallet.addressToIndex.tryGet address = some index) : Opened wallet

inductive Writes (wallet : SeededWallet) : SeededWallet → Prop
  | entered {seed : Seed} {index : AddressIndex} {address : Address} (isSeed : wallet.seed = some seed)
      (derived : deriveAddressForIndex lib keys seed index = .ok address)
      (place : index.toNat < maxRecoveryIndex ∧
          (wallet.addressToIndex.tryGet address = none ∨ wallet.indexToAddress.tryGet index = none) ∨
        index = wallet.nextIndex)
      (stored : fits (wallet.enter index address) = true) : Writes wallet (wallet.enter index address)
  | cleared (seed : Seed) : Writes wallet { Wallet.new with seed := some seed }
  | coins (next : SeededWallet) (sameSeed : next.seed = wallet.seed) (sameAddresses : next.indexToAddress = wallet.indexToAddress)
      (sameIndices : next.addressToIndex = wallet.addressToIndex) : Writes wallet next

end Runs

section Writing

variable {F : Type} {lib : Externals F} {keys : WalletKeys} {fits : SeededWallet → Bool} {wallet next : SeededWallet}
  {index : AddressIndex} {address : Address}

/- A new index is above every index of the table, which never holds so many that it wraps. -/
theorem nextIndexIs (room : Room wallet) : wallet.nextIndex.toNat ≤ maxRecoveryIndex + wallet.indexToAddress.entries.length ∧
    ∀ other held, wallet.indexToAddress.tryGet other = some held → other.toNat < wallet.nextIndex.toNat := by
  unfold Wallet.nextIndex
  rw [← Table.last]
  cases isLast : wallet.indexToAddress.last with
  | none => exact ⟨Nat.zero_le _,fun other held found => absurd ((Table.lastNone isLast other).symm.trans found) (by simp)⟩
  | some entry =>
      obtain ⟨lastIndex,lastAddress⟩ := entry
      have below := room.low lastIndex lastAddress (Table.lastFound isLast)
      have stored := room.stored
      have next : (lastIndex + 1).toNat = lastIndex.toNat + 1 := by
        have one : (1 : AddressIndex).toNat = 1 := rfl
        rw [BitVec.toNat_add,one,Nat.mod_eq_of_lt]
        unfold mapSize maxRecoveryIndex at *
        omega
      dsimp only
      rw [next]
      refine ⟨below,fun other held found => Nat.lt_succ_of_le ?_⟩
      exact Table.lastRanks isLast found

theorem Indexed.absentBoth {seed : Seed} (indexed : Indexed lib keys wallet) (once : DerivesOnce lib keys) (isSeed : wallet.seed = some seed)
    (derived : deriveAddressForIndex lib keys seed index = .ok address)
    (absent : wallet.addressToIndex.tryGet address = none ∨ wallet.indexToAddress.tryGet index = none) :
    wallet.addressToIndex.tryGet address = none ∧ wallet.indexToAddress.tryGet index = none := by
  rcases absent with absent | absent
  · refine ⟨absent,Option.eq_none_iff_forall_ne_some.mpr (fun held found => ?_)⟩
    obtain ⟨seed',isSeed',gives⟩ := indexed.derived index held found
    cases isSeed.symm.trans isSeed'
    cases derived.symm.trans gives
    rw [(indexed.mirrored index address).mp found] at absent
    cases absent
  · refine ⟨Option.eq_none_iff_forall_ne_some.mpr (fun other found => ?_),absent⟩
    have back := (indexed.mirrored other address).mpr found
    obtain ⟨seed',isSeed',gives⟩ := indexed.derived other address back
    cases isSeed.symm.trans isSeed'
    cases once seed index other address derived gives
    rw [back] at absent
    cases absent

theorem Indexed.enter {seed : Seed} (indexed : Indexed lib keys wallet) (isSeed : wallet.seed = some seed)
    (derived : deriveAddressForIndex lib keys seed index = .ok address)
    (noAddress : wallet.addressToIndex.tryGet address = none) (noIndex : wallet.indexToAddress.tryGet index = none) :
    Indexed lib keys (wallet.enter index address) := by
  constructor
  · intro other held
    show (wallet.indexToAddress.put index address).tryGet other = some held ↔
      (wallet.addressToIndex.put address index).tryGet held = some other
    rw [Table.tryGetPut,Table.tryGetPut]
    have before := indexed.mirrored other held
    by_cases here : other = index
    · subst here
      rw [if_pos rfl]
      by_cases same : held = address
      · simp [same]
      · rw [if_neg same,← before,noIndex]
        simp [Ne.symm same]
    · rw [if_neg here]
      by_cases same : held = address
      · subst same
        rw [if_pos rfl,before,noAddress]
        simp [Ne.symm here]
      · rw [if_neg same]
        exact before
  · intro other held found
    have put : (wallet.indexToAddress.put index address).tryGet other = some held := found
    rw [Table.tryGetPut] at put
    split at put
    · next here =>
        cases put
        exact ⟨seed,isSeed,here ▸ derived⟩
    · exact indexed.derived other held put

theorem Room.enter (room : Room wallet) (noIndex : wallet.indexToAddress.tryGet index = none)
    (place : index.toNat ≤ maxRecoveryIndex + wallet.indexToAddress.entries.length)
    (stored : 4 * (wallet.enter index address).indexToAddress.entries.length ≤ mapSize) : Room (wallet.enter index address) := by
  have grows : (wallet.enter index address).indexToAddress.entries.length = wallet.indexToAddress.entries.length + 1 := by
    have entries := (@Table.putEntries _ _ _ wallet.indexToAddress index address).length_eq
    rwa [Table.deleteAbsent noIndex] at entries
  refine ⟨fun other held found => ?_,stored⟩
  have put : (wallet.indexToAddress.put index address).tryGet other = some held := found
  rw [grows]
  rw [Table.tryGetPut] at put
  split at put
  · next here =>
      rw [here]
      omega
  · have := room.low other held put
    omega

theorem emptyIndexed {seed : Option Seed} : Indexed lib keys { Wallet.new with seed } ∧ Room { Wallet.new with seed } := by
  have noAddress (index : AddressIndex) : (∅ : Table AddressIndex Address).tryGet index = none := Table.tryGetEmpty
  have noIndex (address : Address) : (∅ : Table Address AddressIndex).tryGet address = none := Table.tryGetEmpty
  refine ⟨⟨fun index address => ?_,fun index address found => ?_⟩,⟨fun index address found => ?_,Nat.zero_le _⟩⟩
  · show (∅ : Table AddressIndex Address).tryGet index = some address ↔ (∅ : Table Address AddressIndex).tryGet address = some index
    rw [noAddress,noIndex]
    simp
  · cases (noAddress index).symm.trans found
  · cases (noAddress index).symm.trans found

theorem Writes.keeps (writes : Writes lib keys fits wallet next) (once : DerivesOnce lib keys) (sized : Sized fits)
    (indexed : Indexed lib keys wallet) (room : Room wallet) : Indexed lib keys next ∧ Room next := by
  cases writes with
  | @entered seed index address isSeed derived place stored =>
      have absent : wallet.addressToIndex.tryGet address = none ∧ wallet.indexToAddress.tryGet index = none := by
        refine indexed.absentBoth once isSeed derived ?_
        rcases place with ⟨_,either⟩ | rfl
        · exact either
        · refine .inr (Option.eq_none_iff_forall_ne_some.mpr (fun held found => ?_))
          exact Nat.lt_irrefl _ ((nextIndexIs room).2 _ held found)
      refine ⟨indexed.enter isSeed derived absent.1 absent.2,room.enter absent.2 ?_ (sized _ stored)⟩
      rcases place with ⟨below,_⟩ | rfl
      · omega
      · exact (nextIndexIs room).1
  | cleared seed => exact emptyIndexed
  | coins _ sameSeed sameAddresses sameIndices =>
      refine ⟨⟨fun index address => ?_,fun index address found => ?_⟩,⟨fun index address found => ?_,?_⟩⟩
      · rw [sameAddresses,sameIndices]
        exact indexed.mirrored index address
      · rw [sameAddresses] at found
        rw [sameSeed]
        exact indexed.derived index address found
      · rw [sameAddresses] at found ⊢
        exact room.low index address found
      · rw [sameAddresses]
        exact room.stored

theorem commitWrites (writes : fits next = true → Writes lib keys fits wallet next) :
    Relation.ReflTransGen (Writes lib keys fits) wallet (wallet.commit fits next).1 := by
  unfold commit
  split
  · next stored => exact .single (writes stored)
  · exact .refl

theorem signingKeyOk {signingKey : SigningKey} (ok : wallet.getSigningKey keys index = .ok signingKey) :
    ∃ seed, wallet.seed = some seed ∧ deriveAddressForIndex lib keys seed index = .ok (addressOfKey lib keys signingKey) := by
  simp only [getSigningKey,bindOk,okOrOk] at ok
  obtain ⟨seed,isSeed,derived⟩ := ok
  refine ⟨seed,isSeed,?_⟩
  rw [deriveAddressForIndex,derived]
  rfl

theorem findIndexSource {seed : Seed} (found : findIndex lib keys seed address = some index) :
    index.toNat < maxRecoveryIndex ∧ deriveAddressForIndex lib keys seed index = .ok address := by
  unfold findIndex at found
  have passes := List.find?_some found
  rw [decide_eq_true_eq] at passes
  obtain ⟨n,mem,rfl⟩ := List.mem_map.mp (List.mem_of_find?_eq_some found)
  have small := List.mem_range.mp mem
  constructor
  · refine Nat.lt_of_le_of_lt ?_ small
    rw [BitVec.toNat_ofNat]
    exact Nat.mod_le _ _
  · exact toOptionOk passes

theorem recoverWrites {seed : Seed} {utxoAddresses : List Address} {remaining n gap recovered : Nat} (isSeed : wallet.seed = some seed)
    (inside : n + remaining ≤ maxRecoveryIndex) : Relation.ReflTransGen (Writes lib keys fits) wallet
      (recoverFrom lib keys fits seed utxoAddresses remaining n gap recovered wallet).1 := by
  induction remaining generalizing n gap recovered wallet with
  | zero => exact .refl
  | succ remaining ih =>
      unfold recoverFrom
      split
      · split
        · exact .refl
        · next address derived =>
            split
            · split
              · exact ih isSeed (by omega)
              · next absent =>
                  rw [Bool.not_eq_true,Option.isSome_eq_false_iff,Option.isNone_iff_eq_none] at absent
                  have low : (BitVec.ofNat 32 n).toNat < maxRecoveryIndex := by
                    rw [BitVec.toNat_ofNat]
                    exact Nat.lt_of_le_of_lt (Nat.mod_le _ _) (by omega)
                  cases stored : fits (wallet.enter (BitVec.ofNat 32 n) address) with
                  | true =>
                      simp only [commit,stored,if_true]
                      have first := Writes.entered isSeed derived (.inl ⟨low,.inl absent⟩) stored
                      exact (Relation.ReflTransGen.single first).trans (ih isSeed (by omega))
                  | false =>
                      simp only [commit,stored,Bool.false_eq_true,if_false]
                      exact .refl
            · exact ih isSeed (by omega)
      · exact .refl

theorem ensureWrites : Relation.ReflTransGen (Writes lib keys fits) wallet (wallet.ensureAddressIndexed lib keys fits address).1 := by
  unfold ensureAddressIndexed
  split
  · exact .refl
  · next absent =>
      split
      · exact .refl
      · next seed isSeed =>
          split
          · exact .refl
          · next index found =>
              obtain ⟨low,derived⟩ := findIndexSource found
              exact commitWrites (Writes.entered isSeed derived (.inl ⟨low,.inl absent⟩))

theorem putUtxosIndices {w : Wallet} {utxos : List (OutPoint × Output)} :
    (w.putUtxos utxos).addressToIndex = w.addressToIndex := by
  induction utxos generalizing w with
  | nil => rfl
  | cons u us ih => exact ih

theorem spendUtxosIndices {w : Wallet} {spent : List (OutPoint × InPoint)} :
    (w.spendUtxos spent).addressToIndex = w.addressToIndex := by
  induction spent generalizing w with
  | nil => rfl
  | cons first rest ih =>
      refine Eq.trans ih ?_
      unfold Wallet.spendUtxo
      split <;> rfl

theorem adoptWrites : Relation.ReflTransGen (Writes lib keys fits) wallet (wallet.adoptIndexZero lib keys fits).1 := by
  unfold adoptIndexZero
  split
  · exact .refl
  · split
    · exact .refl
    · split
      · exact .refl
      · next absent =>
          split
          · exact .refl
          · next signingKey derived =>
              obtain ⟨seed,isSeed,gives⟩ := @signingKeyOk _ lib keys wallet 0 signingKey derived
              exact commitWrites (Writes.entered isSeed gives (.inl ⟨by decide,.inr absent⟩))

theorem newAddressWrites : Relation.ReflTransGen (Writes lib keys fits) wallet (wallet.getNewAddress lib keys fits).1 := by
  unfold getNewAddress
  dsimp only
  split
  · exact .refl
  · next signingKey derived =>
      obtain ⟨seed,isSeed,gives⟩ := @signingKeyOk _ lib keys wallet _ signingKey derived
      exact commitWrites (Writes.entered isSeed gives (.inr rfl))

theorem recoverAllWrites {utxoAddresses : List Address} :
    Relation.ReflTransGen (Writes lib keys fits) wallet (wallet.recoverAddressesFromUtxoSet lib keys fits utxoAddresses).1 := by
  unfold recoverAddressesFromUtxoSet
  split
  · exact .refl
  · split
    · exact .refl
    · next seed isSeed => exact recoverWrites isSeed (Nat.le_of_eq (Nat.zero_add _))

theorem callWrites (call : Call) : Relation.ReflTransGen (Writes lib keys fits) wallet (call.apply lib keys fits wallet) := by
  cases call with
  | adoptIndexZero => exact adoptWrites
  | overwriteSeed seed => exact commitWrites (fun _ => .cleared seed)
  | getNewAddress => exact newAddressWrites
  | ensureAddressIndexed address => exact ensureWrites
  | recoverAddressesFromUtxoSet utxoAddresses => exact recoverAllWrites
  | putUtxos utxos => exact commitWrites (fun _ => .coins _ rfl putUtxosAddresses putUtxosIndices)
  | spendUtxos spent => exact commitWrites (fun _ => .coins _ rfl spendUtxosAddresses spendUtxosIndices)

theorem writesKeep (writes : Relation.ReflTransGen (Writes lib keys fits) wallet next) (once : DerivesOnce lib keys)
    (sized : Sized fits) (indexed : Indexed lib keys wallet) (room : Room wallet) : Indexed lib keys next ∧ Room next := by
  induction writes with
  | refl => exact ⟨indexed,room⟩
  | tail _ last ih => exact last.keeps once sized ih.1 ih.2

end Writing

section Signing

variable {F : Type} {lib : Externals F} {keys : WalletKeys} {fits : SeededWallet → Bool} {wallet next : SeededWallet}
  {address : Address} {nonce : Nat} {tx : Transaction} {outpoint : OutPoint}

theorem ensureFinds (ok : wallet.ensureAddressIndexed lib keys fits address = (next,.ok ())) :
    (next.addressToIndex.tryGet address).isSome = true ∧ next.utxos = wallet.utxos := by
  unfold ensureAddressIndexed at ok
  split at ok
  · next index found =>
      cases ok
      rw [found]
      exact ⟨rfl,rfl⟩
  · split at ok
    · cases congrArg Prod.snd ok
    · split at ok
      · cases congrArg Prod.snd ok
      · unfold commit at ok
        split at ok
        · cases ok
          refine ⟨?_,rfl⟩
          show ((wallet.addressToIndex.put address _).tryGet address).isSome = true
          rw [Table.tryGetPutSelf]
          rfl
        · cases congrArg Prod.snd ok

theorem turnAgain (again : wallet.authorizeTurn lib keys fits nonce tx outpoint = .again next) :
    Relation.ReflTransGen (Writes lib keys fits) wallet next ∧
    ∃ authorization, next.authorizeTurn lib keys fits nonce tx outpoint = .settled authorization := by
  unfold authorizeTurn at again
  split at again
  · cases again
  · next spentUtxo listed =>
      split at again
      · cases again
      · split at again
        · cases again
        · split at again
          · cases again
          · next found ensured =>
              cases again
              have writes := @ensureWrites _ lib keys fits wallet spentUtxo.address
              rw [ensured] at writes
              obtain ⟨isIndexed,utxos⟩ := ensureFinds ensured
              obtain ⟨index,isIndex⟩ := Option.isSome_iff_exists.mp isIndexed
              refine ⟨writes,next.signWith lib keys nonce tx index,?_⟩
              unfold authorizeTurn
              rw [utxos,listed]
              dsimp only
              rw [isIndex]

theorem inputSettles : ∃ result, authorizeInput lib keys fits nonce tx outpoint 2 wallet = some result ∧
    Relation.ReflTransGen (Writes lib keys fits) wallet result.1 := by
  unfold authorizeInput
  cases first : wallet.authorizeTurn lib keys fits nonce tx outpoint with
  | settled authorization => exact ⟨_,rfl,.refl⟩
  | again next =>
      obtain ⟨writes,authorization,second⟩ := turnAgain first
      refine ⟨(next,authorization),?_,writes⟩
      dsimp only
      rw [authorizeInput,second]

theorem inputsSettle (outpoints : List OutPoint) (authorizations : List Authorization) :
    ∃ result, authorizeInputs lib keys fits 2 tx outpoints authorizations wallet = some result ∧
      Relation.ReflTransGen (Writes lib keys fits) wallet result.1 := by
  induction outpoints generalizing authorizations wallet with
  | nil => exact ⟨_,rfl,.refl⟩
  | cons outpoint rest ih =>
      obtain ⟨⟨next,outcome⟩,settled,writes⟩ := @inputSettles _ lib keys fits wallet authorizations.length tx outpoint
      unfold authorizeInputs
      rw [settled]
      cases outcome with
      | error e => exact ⟨_,rfl,writes⟩
      | ok authorization =>
          obtain ⟨result,done,more⟩ := @ih next (authorizations ++ [authorization])
          exact ⟨result,done,writes.trans more⟩

theorem authorizeSettles : ∃ result, wallet.authorize lib keys fits 2 tx = some result ∧
    Relation.ReflTransGen (Writes lib keys fits) wallet result.1 := by
  obtain ⟨result,done,writes⟩ := @inputsSettle _ lib keys fits wallet tx (tx.inputs.map (·.1)) []
  refine ⟨(result.1,result.2.map (fun authorizations => ⟨tx,authorizations⟩)),?_,writes⟩
  unfold authorize
  rw [done]
  rfl

end Signing

section Run

variable {F : Type} {lib : Externals F} {keys : WalletKeys} {fits : SeededWallet → Bool} {start wallet : SeededWallet}
  {calls : List Call}

theorem Opened.indexed (opened : Opened lib keys fits start) (sized : Sized fits) : Indexed lib keys start ∧ Room start := by
  cases opened with
  | created => exact emptyIndexed
  | earlier _ seed isSeed stored own back =>
      refine ⟨⟨back,fun index address found => ?_⟩,⟨fun index address found => ?_,sized start stored⟩⟩
      · exact ⟨seed,isSeed,((own index address).mp found).2.2⟩
      · have inside := ((own index address).mp found).2.1
        unfold maxRecoveryIndex
        omega

theorem runWrites : Relation.ReflTransGen (Writes lib keys fits) start (runCalls lib keys fits calls start) := by
  induction calls generalizing start with
  | nil => exact .refl
  | cons call rest ih => exact (callWrites call).trans ih

theorem newAddressUnused (indexed : Indexed lib keys wallet) (once : DerivesOnce lib keys) (room : Room wallet) {address : Address}
    (ok : (wallet.getNewAddress lib keys fits).2 = .ok address) : wallet.addressToIndex.tryGet address = none := by
  unfold getNewAddress at ok
  dsimp only at ok
  split at ok
  · cases ok
  · next signingKey derived =>
      obtain ⟨seed,isSeed,gives⟩ := @signingKeyOk _ lib keys wallet _ signingKey derived
      obtain ⟨_,_,rfl⟩ := mapOk.mp ok
      refine (indexed.absentBoth once isSeed gives (.inr ?_)).1
      refine Option.eq_none_iff_forall_ne_some.mpr (fun held found => ?_)
      exact Nat.lt_irrefl _ ((nextIndexIs room).2 _ held found)

theorem newAddressIndexed {address : Address} (ok : (wallet.getNewAddress lib keys fits).2 = .ok address) :
    ((wallet.getNewAddress lib keys fits).1.addressToIndex.tryGet address).isSome = true := by
  unfold getNewAddress commit at ok ⊢
  dsimp only at ok ⊢
  split at ok
  · cases ok
  · split at ok
    · next stored =>
        rw [if_pos stored]
        cases ok
        show ((wallet.addressToIndex.put _ _).tryGet _).isSome = true
        rw [Table.tryGetPutSelf]
        rfl
    · cases ok

/- The tables after any calls, the next new address, and signing with two turns for each input. -/
theorem addressIndexConsistent (once : DerivesOnce lib keys) (sized : Sized fits) (opened : Opened lib keys fits start)
    (ran : runCalls lib keys fits calls start = wallet) :
    Indexed lib keys wallet ∧
    (∀ address, (wallet.getNewAddress lib keys fits).2 = .ok address → wallet.addressToIndex.tryGet address = none ∧
      ∀ index, wallet.indexToAddress.tryGet index ≠ some address) ∧
    ∀ tx, ∃ result, wallet.authorize lib keys fits 2 tx = some result ∧ Indexed lib keys result.1 := by
  obtain ⟨startIndexed,startRoom⟩ := opened.indexed sized
  obtain ⟨indexed,room⟩ := writesKeep runWrites once sized startIndexed startRoom
  rw [ran] at indexed room
  refine ⟨indexed,fun address ok => ?_,fun tx => ?_⟩
  · have unused := newAddressUnused indexed once room ok
    refine ⟨unused,fun index found => ?_⟩
    cases unused.symm.trans ((indexed.mirrored index address).mp found)
  · obtain ⟨result,done,writes⟩ := @authorizeSettles _ lib keys fits wallet tx
    exact ⟨result,done,(writesKeep writes once sized indexed room).1⟩

end Run

end SeededWallet

namespace Reference
open SeededWallet

def plainExternals : Externals Forest := { externals with blake3 := fun bytes => BitVec.ofNat 256 (wordValue bytes * 2 ^ 96) }

def plainKeys : WalletKeys := ⟨fun _ index => some (index.setWidth 256),id,fun _ => tag⟩

def plainAddress (index : AddressIndex) : Address := index.setWidth 160

def inMap (wallet : SeededWallet) : Bool := 4 * wallet.indexToAddress.entries.length ≤ mapSize

theorem plainAddressIs {seed : Seed} {index : AddressIndex} :
    deriveAddressForIndex plainExternals plainKeys seed index = .ok (plainAddress index) := by
  have small := index.isLt
  have key : (index.setWidth 256).toNat = index.toNat := BitVec.toNat_setWidth_of_le (by omega)
  have value : wordValue (wordBytes 32 index.toNat) = index.toNat := valueOfWord (Nat.lt_of_lt_of_le small (by norm_num))
  refine congrArg Except.ok (BitVec.eq_of_toNat_eq ?_)
  show ((BitVec.ofNat 256 (wordValue (wordBytes 32 (index.setWidth 256).toNat) * 2 ^ 96)).extractLsb' 96 160).toNat =
    (index.setWidth 160).toNat
  rw [key,value,BitVec.extractLsb'_toNat,BitVec.toNat_ofNat,BitVec.toNat_setWidth_of_le (by omega),Nat.shiftRight_eq_div_pow]
  omega

theorem plainOnce : DerivesOnce plainExternals plainKeys := by
  intro seed index other address gives otherGives
  rw [plainAddressIs] at gives otherGives
  have same : plainAddress index = plainAddress other := Except.ok.inj (gives.trans otherGives.symm)
  have values := congrArg BitVec.toNat same
  unfold plainAddress at values
  rw [BitVec.toNat_setWidth_of_le (by omega),BitVec.toNat_setWidth_of_le (by omega)] at values
  exact BitVec.eq_of_toNat_eq values

def earlierWallet : SeededWallet := { SeededWallet.new with seed := some 5 }.enter 1 (plainAddress 1)

theorem earlierOpened : Opened plainExternals plainKeys inMap earlierWallet := by
  have one : (1 : AddressIndex).toNat = 1 := rfl
  have entries : earlierWallet.indexToAddress.entries.length = 1 := by decide +kernel
  have index (i : AddressIndex) : earlierWallet.indexToAddress.tryGet i = if i = 1 then some (plainAddress 1) else none := by
    refine Table.tryGetPut.trans ?_
    rw [show (SeededWallet.new).indexToAddress.tryGet i = none from Table.tryGetEmpty]
  have back (a : Address) : earlierWallet.addressToIndex.tryGet a = if a = plainAddress 1 then some 1 else none := by
    refine Table.tryGetPut.trans ?_
    rw [show (SeededWallet.new).addressToIndex.tryGet a = none from Table.tryGetEmpty]
  refine .earlier earlierWallet 5 rfl (by decide +kernel) (fun i a => ?_) (fun i a => ?_)
  · rw [index,entries,plainAddressIs]
    by_cases here : i = 1
    · subst here
      simp
    · have other : ¬ (0 < i.toNat ∧ i.toNat ≤ 1) := fun between => here (BitVec.eq_of_toNat_eq (by rw [one]; omega))
      simp only [here,if_false,← and_assoc,other,false_and]
      simp
  · rw [index,back,Option.ite_none_right_eq_some,Option.ite_none_right_eq_some,Option.some.injEq,Option.some.injEq]
    exact ⟨fun both => ⟨both.2.symm,both.1.symm⟩,fun both => ⟨both.2.symm,both.1.symm⟩⟩

def earlierCalls : List Call := [.adoptIndexZero,.recoverAddressesFromUtxoSet [plainAddress 1,plainAddress 4],.getNewAddress]

theorem earlierWalletConsistent : ∃ wallet, runCalls plainExternals plainKeys inMap earlierCalls earlierWallet = wallet ∧
    wallet.indexToAddress.entries = [(0,plainAddress 0),(1,plainAddress 1),(4,plainAddress 4),(5,plainAddress 5)] ∧
    Indexed plainExternals plainKeys wallet ∧
    (wallet.getNewAddress plainExternals plainKeys inMap).2 = .ok (plainAddress 6) ∧
    wallet.addressToIndex.tryGet (plainAddress 6) = none := by
  have sized : Sized inMap := fun wallet stored => of_decide_eq_true stored
  have ran : runCalls plainExternals plainKeys inMap earlierCalls earlierWallet = _ := rfl
  obtain ⟨indexed,unused,_⟩ := addressIndexConsistent plainOnce sized earlierOpened ran
  have fresh : ((runCalls plainExternals plainKeys inMap earlierCalls earlierWallet).getNewAddress plainExternals plainKeys inMap).2 =
      .ok (plainAddress 6) := by decide +kernel
  exact ⟨_,rfl,by decide +kernel,indexed,fresh,(unused _ fresh).1⟩

end Reference

end Coinshift
