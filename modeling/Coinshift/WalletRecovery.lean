import Coinshift.GapScan
import Coinshift.WalletAddresses

/-! How a wallet that was restored from its seed finds its addresses in the node's outputs.
The scan that looks for them gives up after a gap, and the task that runs it does so until the wallet has an address. -/
namespace Coinshift
open Checked

namespace SeededWallet
open GapScan

section Recovery

variable {F : Type} (lib : Externals F) (keys : WalletKeys) (fits : SeededWallet → Bool)

def usedIndex (seed : Seed) (utxoAddresses : List Address) (n : Nat) : Bool :=
  match deriveAddressForIndex lib keys seed (BitVec.ofNat 32 n) with
  | .error _ => false
  | .ok address => utxoAddresses.contains address

def Found (seed : Seed) (utxoAddresses : List Address) (scanned : List Nat) (address : Address) (index : AddressIndex) :
    Prop :=
  ∃ n ∈ scanned, index = BitVec.ofNat 32 n ∧ deriveAddressForIndex lib keys seed index = .ok address ∧
    address ∈ utxoAddresses

structure Recovers (seed : Seed) (utxoAddresses : List Address) (scanned : List Nat) (entered : Nat)
    (wallet next : SeededWallet) : Prop where
  sameSeed : next.seed = wallet.seed
  sameUtxos : next.utxos = wallet.utxos
  sameStxos : next.stxos = wallet.stxos
  indexed : Indexed lib keys next
  found : ∀ address index, next.addressToIndex.tryGet address = some index ↔
    wallet.addressToIndex.tryGet address = some index ∨ Found lib keys seed utxoAddresses scanned address index
  entries : next.indexToAddress.entries.length = wallet.indexToAddress.entries.length + entered

end Recovery

section Scan

variable {F : Type} {lib : Externals F} {keys : WalletKeys} {fits : SeededWallet → Bool}
  {wallet middle next : SeededWallet} {seed : Seed}
  {utxoAddresses : List Address} {scanned later : List Nat} {entered more n : Nat} {address : Address}

theorem foundAppend {index : AddressIndex} : Found lib keys seed utxoAddresses (scanned ++ later) address index ↔
    Found lib keys seed utxoAddresses scanned address index ∨ Found lib keys seed utxoAddresses later address index := by
  simp only [Found,List.mem_append,or_and_right,exists_or]

theorem foundOne {index : AddressIndex} : Found lib keys seed utxoAddresses [n] address index ↔
    index = BitVec.ofNat 32 n ∧ deriveAddressForIndex lib keys seed index = .ok address ∧ address ∈ utxoAddresses := by
  simp only [Found,List.mem_singleton,exists_eq_left]

theorem Recovers.refl (indexed : Indexed lib keys wallet) : Recovers lib keys seed utxoAddresses [] 0 wallet wallet :=
  ⟨rfl,rfl,rfl,indexed,fun address index => by simp [Found],rfl⟩

theorem Recovers.trans (first : Recovers lib keys seed utxoAddresses scanned entered wallet middle)
    (second : Recovers lib keys seed utxoAddresses later more middle next) :
    Recovers lib keys seed utxoAddresses (scanned ++ later) (entered + more) wallet next := by
  refine ⟨second.sameSeed.trans first.sameSeed,second.sameUtxos.trans first.sameUtxos,
    second.sameStxos.trans first.sameStxos,second.indexed,fun address index => ?_,?_⟩
  · rw [second.found,first.found,foundAppend,or_assoc]
  · rw [second.entries,first.entries,Nat.add_assoc]

theorem Recovers.unused (indexed : Indexed lib keys wallet)
    (derived : deriveAddressForIndex lib keys seed (BitVec.ofNat 32 n) = .ok address) (absent : address ∉ utxoAddresses) :
    Recovers lib keys seed utxoAddresses [n] 0 wallet wallet := by
  refine ⟨rfl,rfl,rfl,indexed,fun other index => ?_,rfl⟩
  rw [foundOne]
  constructor
  · exact .inl
  · rintro (known | ⟨rfl,gives,mem⟩)
    · exact known
    · cases derived.symm.trans gives
      exact absurd mem absent

theorem Recovers.known (indexed : Indexed lib keys wallet) (once : DerivesOnce lib keys) (isSeed : wallet.seed = some seed)
    (derived : deriveAddressForIndex lib keys seed (BitVec.ofNat 32 n) = .ok address)
    (known : (wallet.addressToIndex.tryGet address).isSome = true) :
    Recovers lib keys seed utxoAddresses [n] 0 wallet wallet := by
  refine ⟨rfl,rfl,rfl,indexed,fun other index => ?_,rfl⟩
  rw [foundOne]
  constructor
  · exact .inl
  · rintro (there | ⟨rfl,gives,_⟩)
    · exact there
    · cases derived.symm.trans gives
      obtain ⟨held,isHeld⟩ := Option.isSome_iff_exists.mp known
      obtain ⟨seed',isSeed',again⟩ := indexed.derived held address ((indexed.mirrored held address).mpr isHeld)
      cases isSeed.symm.trans isSeed'
      cases once seed _ _ address derived again
      exact isHeld

theorem Recovers.enter (indexed : Indexed lib keys wallet) (once : DerivesOnce lib keys) (isSeed : wallet.seed = some seed)
    (derived : deriveAddressForIndex lib keys seed (BitVec.ofNat 32 n) = .ok address) (used : address ∈ utxoAddresses)
    (absent : wallet.addressToIndex.tryGet address = none) :
    Recovers lib keys seed utxoAddresses [n] 1 wallet (wallet.enter (BitVec.ofNat 32 n) address) := by
  obtain ⟨noAddress,noIndex⟩ := indexed.absentBoth once isSeed derived (.inl absent)
  refine ⟨rfl,rfl,rfl,indexed.enter isSeed derived noAddress noIndex,fun other index => ?_,?_⟩
  · show (wallet.addressToIndex.put address (BitVec.ofNat 32 n)).tryGet other = some index ↔ _
    rw [Table.tryGetPut,foundOne]
    split
    · next same =>
        subst same
        rw [absent]
        constructor
        · intro here
          cases here
          exact .inr ⟨rfl,derived,used⟩
        · rintro (there | ⟨rfl,_,_⟩)
          · cases there
          · rfl
    · next other_ =>
        constructor
        · exact .inl
        · rintro (there | ⟨rfl,gives,_⟩)
          · exact there
          · cases derived.symm.trans gives
            exact absurd rfl other_
  · have entries := (@Table.putEntries _ _ _ wallet.indexToAddress (BitVec.ofNat 32 n) address).length_eq
    rwa [Table.deleteAbsent noIndex] at entries

theorem scannedHere {used : Nat → Bool} {remaining gap stop : Nat} (open_ : gap < gapLimit) (inside : n < stop) :
    (visited used gapLimit (remaining + 1) n gap).filter (· < stop) =
      [n] ++ (visited used gapLimit remaining (n + 1) (if used n then 0 else gap + 1)).filter (· < stop) := by
  rw [visited,if_pos open_,List.filter_cons_of_pos (by simpa using inside)]
  rfl

theorem scannedNone {used : Nat → Bool} {remaining gap : Nat} :
    (visited used gapLimit remaining n gap).filter (· < n) = [] := by
  refine List.filter_eq_nil_iff.mpr (fun i mem => ?_)
  have low := visitedFrom mem
  rw [decide_eq_true_eq]
  omega

def Breaks (lib : Externals F) (keys : WalletKeys) (fits : SeededWallet → Bool) (seed : Seed) (next : SeededWallet)
    (n : Nat) (e : WalletError) : Prop :=
  deriveAddressForIndex lib keys seed (BitVec.ofNat 32 n) = .error e ∨
    e = .db ∧ ∃ address, deriveAddressForIndex lib keys seed (BitVec.ofNat 32 n) = .ok address ∧
      fits (next.enter (BitVec.ofNat 32 n) address) = false

structure Scans (lib : Externals F) (keys : WalletKeys) (fits : SeededWallet → Bool) (seed : Seed)
    (utxoAddresses : List Address) (looked : List Nat) (bound recovered : Nat) (wallet : SeededWallet)
    (result : SeededWallet × Except WalletError Nat)
    (stop entered : Nat) : Prop where
  recovers : Recovers lib keys seed utxoAddresses (looked.filter (· < stop)) entered wallet result.1
  done : ∀ total, result.2 = .ok total → stop = bound ∧ total = recovered + entered
  broken : ∀ e, result.2 = .error e → stop ∈ looked ∧ Breaks lib keys fits seed result.1 stop e

theorem Scans.cons {remaining gap bound recovered stop : Nat} {result : SeededWallet × Except WalletError Nat}
    (open_ : gap < gapLimit) (inside : n < stop) (first : Recovers lib keys seed utxoAddresses [n] entered wallet middle)
    (rest : Scans lib keys fits seed utxoAddresses (visited (usedIndex lib keys seed utxoAddresses) gapLimit remaining
      (n + 1) (if usedIndex lib keys seed utxoAddresses n then 0 else gap + 1)) bound (recovered + entered) middle result
      stop more) :
    Scans lib keys fits seed utxoAddresses (visited (usedIndex lib keys seed utxoAddresses) gapLimit (remaining + 1) n gap)
      bound recovered wallet result stop (entered + more) := by
  constructor
  · rw [scannedHere open_ inside]
    exact first.trans rest.recovers
  · intro total ok
    obtain ⟨atEnd,isTotal⟩ := rest.done total ok
    exact ⟨atEnd,isTotal.trans (Nat.add_assoc _ _ _)⟩
  · intro e failed
    obtain ⟨mem,breaks⟩ := rest.broken e failed
    refine ⟨?_,breaks⟩
    rw [visited,if_pos open_]
    exact List.mem_cons_of_mem _ mem

theorem Scans.ends {remaining gap bound recovered : Nat} {result : SeededWallet × Except WalletError Nat}
    (indexed : Indexed lib keys wallet) (same : result.1 = wallet)
    (done : ∀ total, result.2 = .ok total → n = bound ∧ total = recovered)
    (broken : ∀ e, result.2 = .error e → gap < gapLimit ∧ Breaks lib keys fits seed wallet n e) :
    Scans lib keys fits seed utxoAddresses (visited (usedIndex lib keys seed utxoAddresses) gapLimit (remaining + 1) n gap)
      bound recovered wallet result n 0 := by
  refine ⟨?_,done,fun e failed => ?_⟩
  · rw [scannedNone,same]
    exact Recovers.refl indexed
  · obtain ⟨open_,breaks⟩ := broken e failed
    rw [same,visited,if_pos open_]
    exact ⟨List.mem_cons_self,breaks⟩

theorem recoverScans {remaining gap recovered : Nat} (once : DerivesOnce lib keys) (indexed : Indexed lib keys wallet)
    (isSeed : wallet.seed = some seed) : ∃ stop entered, n ≤ stop ∧ Scans lib keys fits seed utxoAddresses
      (visited (usedIndex lib keys seed utxoAddresses) gapLimit remaining n gap) (n + remaining) recovered wallet
      (recoverFrom lib keys fits seed utxoAddresses remaining n gap recovered wallet) stop entered := by
  induction remaining generalizing n gap recovered wallet with
  | zero =>
      refine ⟨n,0,Nat.le_refl n,⟨?_,fun total ok => ⟨rfl,(Except.ok.inj ok).symm⟩,fun e failed => by cases failed⟩⟩
      exact Recovers.refl indexed
  | succ remaining ih =>
      rw [recoverFrom]
      split
      · next open_ =>
          cases derived : deriveAddressForIndex lib keys seed (BitVec.ofNat 32 n) with
          | error e =>
              refine ⟨n,0,Nat.le_refl n,Scans.ends indexed rfl (fun total ok => by cases ok)
                (fun e' failed => ⟨open_,.inl ?_⟩)⟩
              cases failed
              exact derived
          | ok address =>
              have isUsed : usedIndex lib keys seed utxoAddresses n = utxoAddresses.contains address := by
                unfold usedIndex
                rw [derived]
              dsimp only
              cases used : utxoAddresses.contains address with
              | false =>
                  have absent : address ∉ utxoAddresses := by simpa using used
                  obtain ⟨stop,entered,inside,scans⟩ := @ih wallet (n + 1) (gap + 1) recovered indexed isSeed
                  rw [Nat.add_right_comm] at scans
                  refine ⟨stop,0 + entered,by omega,Scans.cons open_ inside (Recovers.unused indexed derived absent) ?_⟩
                  rw [isUsed,used]
                  exact scans
              | true =>
                  have present : address ∈ utxoAddresses := by simpa using used
                  cases known : (wallet.addressToIndex.tryGet address).isSome with
                  | true =>
                      obtain ⟨stop,entered,inside,scans⟩ := @ih wallet (n + 1) 0 recovered indexed isSeed
                      rw [Nat.add_right_comm] at scans
                      refine ⟨stop,0 + entered,by omega,
                        Scans.cons open_ inside (Recovers.known indexed once isSeed derived known) ?_⟩
                      rw [isUsed,used]
                      exact scans
                  | false =>
                      have absent : wallet.addressToIndex.tryGet address = none := by simpa using known
                      cases stored : fits (wallet.enter (BitVec.ofNat 32 n) address) with
                      | false =>
                          simp only [commit,stored,Bool.false_eq_true,if_false,if_true]
                          refine ⟨n,0,Nat.le_refl n,Scans.ends indexed rfl (fun total ok => by cases ok)
                            (fun e failed => ⟨open_,.inr ?_⟩)⟩
                          cases failed
                          exact ⟨rfl,address,derived,stored⟩
                      | true =>
                          simp only [commit,stored,Bool.false_eq_true,if_false,if_true]
                          have entering := Recovers.enter indexed once isSeed derived present absent
                          obtain ⟨stop,entered,inside,scans⟩ := @ih (wallet.enter (BitVec.ofNat 32 n) address)
                            (n + 1) 0 (recovered + 1) entering.indexed isSeed
                          rw [Nat.add_right_comm] at scans
                          refine ⟨stop,1 + entered,by omega,Scans.cons open_ inside entering ?_⟩
                          rw [isUsed,used]
                          exact scans
      · next wide =>
          -- the gap was too wide already, and nothing is looked at
          refine ⟨n + (remaining + 1),0,by omega,⟨?_,fun total ok => ⟨rfl,(Except.ok.inj ok).symm⟩,
            fun e failed => by cases failed⟩⟩
          rw [visited,if_neg wide]
          exact Recovers.refl indexed

def Reaches (lib : Externals F) (keys : WalletKeys) (seed : Seed) (utxoAddresses : List Address) (n : Nat) : Prop :=
  Reached (usedIndex lib keys seed utxoAddresses) gapLimit 0 n

theorem foundReached {used : Nat → Bool} {stop : Nat} {index : AddressIndex} (low : stop ≤ maxRecoveryIndex) :
    Found lib keys seed utxoAddresses ((visited used gapLimit maxRecoveryIndex 0 0).filter (· < stop)) address index ↔
      index.toNat < stop ∧ Reached used gapLimit 0 index.toNat ∧ deriveAddressForIndex lib keys seed index = .ok address ∧
        address ∈ utxoAddresses := by
  have small (n : Nat) (inside : n < stop) : (BitVec.ofNat 32 n).toNat = n := by
    rw [BitVec.toNat_ofNat,Nat.mod_eq_of_lt]
    unfold maxRecoveryIndex at low
    omega
  constructor
  · rintro ⟨n,mem,rfl,derived,used⟩
    obtain ⟨looked,inside⟩ := List.mem_filter.mp mem
    rw [decide_eq_true_eq] at inside
    rw [small n inside]
    exact ⟨inside,(visitedReached.mp looked).2,derived,used⟩
  · rintro ⟨inside,reached,derived,used⟩
    refine ⟨index.toNat,List.mem_filter.mpr ⟨?_,decide_eq_true inside⟩,by simp,derived,used⟩
    exact visitedReached.mpr ⟨by omega,reached⟩

theorem recoverAllScans {outcome : Except WalletError Nat} (once : DerivesOnce lib keys)
    (indexed : Indexed lib keys wallet) (isSeed : wallet.seed = some seed)
    (ran : wallet.recoverAddressesFromUtxoSet lib keys fits utxoAddresses = (next,outcome)) :
    ∃ stop entered, stop ≤ maxRecoveryIndex ∧ Scans lib keys fits seed utxoAddresses
      (visited (usedIndex lib keys seed utxoAddresses) gapLimit maxRecoveryIndex 0 0) maxRecoveryIndex 0 wallet
      (next,outcome) stop entered := by
  unfold recoverAddressesFromUtxoSet at ran
  split at ran
  · next isEmpty =>
      cases ran
      have none := List.isEmpty_iff.mp isEmpty
      refine ⟨maxRecoveryIndex,0,Nat.le_refl _,⟨?_,fun total ok => ⟨rfl,(Except.ok.inj ok).symm⟩,
        fun e failed => by cases failed⟩⟩
      refine ⟨rfl,rfl,rfl,indexed,fun address index => ?_,rfl⟩
      rw [none]
      simp [Found]
  · rw [isSeed] at ran
    dsimp only at ran
    obtain ⟨stop,entered,_,scans⟩ :=
      @recoverScans _ lib keys fits wallet seed utxoAddresses 0 maxRecoveryIndex 0 0 once indexed isSeed
    rw [ran,Nat.zero_add] at scans
    refine ⟨stop,entered,?_,scans⟩
    cases outcome with
    | ok total => exact Nat.le_of_eq (scans.done total rfl).1
    | error e => exact Nat.le_of_lt (visitedReached.mp (scans.broken e rfl).1).1

/- What a recovery leaves, whatever its outcome: without an error it has found all that it reaches. -/
theorem recoveryFindsReached {outcome : Except WalletError Nat} (once : DerivesOnce lib keys)
    (indexed : Indexed lib keys wallet) (isSeed : wallet.seed = some seed)
    (ran : wallet.recoverAddressesFromUtxoSet lib keys fits utxoAddresses = (next,outcome)) :
    (next.seed = wallet.seed ∧ next.utxos = wallet.utxos ∧ next.stxos = wallet.stxos) ∧ Indexed lib keys next ∧
    ∃ stop ≤ maxRecoveryIndex,
      (∀ address index, next.addressToIndex.tryGet address = some index ↔
        wallet.addressToIndex.tryGet address = some index ∨
        index.toNat < stop ∧ Reaches lib keys seed utxoAddresses index.toNat ∧
          deriveAddressForIndex lib keys seed index = .ok address ∧ address ∈ utxoAddresses) ∧
      (∀ total, outcome = .ok total → stop = maxRecoveryIndex ∧
        next.indexToAddress.entries.length = wallet.indexToAddress.entries.length + total) ∧
      ∀ e, outcome = .error e → stop < maxRecoveryIndex ∧ Reaches lib keys seed utxoAddresses stop ∧
        Breaks lib keys fits seed next stop e := by
  obtain ⟨stop,entered,low,scans⟩ := recoverAllScans once indexed isSeed ran
  have recovers := scans.recovers
  refine ⟨⟨recovers.sameSeed,recovers.sameUtxos,recovers.sameStxos⟩,recovers.indexed,stop,low,fun address index => ?_,
    fun total ok => ?_,fun e failed => ?_⟩
  · rw [recovers.found,foundReached low]
    rfl
  · obtain ⟨atEnd,isTotal⟩ := scans.done total ok
    rw [isTotal,recovers.entries,Nat.zero_add]
    exact ⟨atEnd,rfl⟩
  · obtain ⟨looked,breaks⟩ := scans.broken e failed
    obtain ⟨inside,reached⟩ := visitedReached.mp looked
    exact ⟨inside,reached,breaks⟩

end Scan

end SeededWallet

structure WalletTask where
  wallet : SeededWallet
  needsRecovery : Bool

namespace WalletTask
open SeededWallet GapScan

section Task

variable {F : Type} (lib : Externals F) (keys : WalletKeys) (fits : SeededWallet → Bool)

def utxoAddresses (node : Ledger) : List Address := node.utxos.entries.map (·.2.address)

def recoverWalletAddresses (node : Ledger) (wallet : SeededWallet) : SeededWallet × Except WalletError Unit :=
  match wallet.seed with
  | none => (wallet,.ok ())
  | some _ =>
      if node.utxos.entries.isEmpty then (wallet,.ok ())
      else
        let (next,recovered) := wallet.recoverAddressesFromUtxoSet lib keys fits (utxoAddresses node)
        (next,recovered.map (fun _ => ()))

/- What is new is put in one transaction, and what is spent is taken out in another. -/
def updateWallet (node : Ledger) (wallet : SeededWallet) : SeededWallet × Except WalletError Unit :=
  let utxos := getUtxosByAddresses node wallet.getAddresses
  let outpoints := wallet.utxos.entries.map (·.1)
  let spent := (getSpentUtxos node outpoints).map (fun spent => (spent.1,spent.2.inpoint))
  match wallet.commit fits { wallet with toWallet := wallet.toWallet.putUtxos utxos } with
  | (next,.error e) => (next,.error e)
  | (next,.ok ()) => next.commit fits { next with toWallet := next.toWallet.spendUtxos spent }

/- An application that starts: it fails where a recovery or an update does. -/
def start (node : Ledger) (wallet : SeededWallet) : Except WalletError WalletTask :=
  match recoverWalletAddresses lib keys fits node wallet with
  | (_,.error e) => .error e
  | (wallet,.ok ()) =>
      match updateWallet fits node wallet with
      | (_,.error e) => .error e
      | (wallet,.ok ()) => .ok ⟨wallet,wallet.getAddresses.isEmpty && wallet.seed.isSome⟩

def recoverIfNeeded (node : Ledger) (task : WalletTask) : WalletTask :=
  if task.needsRecovery then
    match recoverWalletAddresses lib keys fits node task.wallet with
    | (wallet,.ok ()) => ⟨wallet,wallet.getAddresses.isEmpty⟩
    | (wallet,.error _) => ⟨wallet,true⟩
  else task

/- One turn of its loop; a failure is logged. -/
def onStateChange (task : WalletTask) (node : Ledger) : WalletTask :=
  let recovered := task.recoverIfNeeded lib keys fits node
  { recovered with wallet := (updateWallet fits node recovered.wallet).1 }

def run (nodes : List Ledger) (task : WalletTask) : WalletTask := nodes.foldl (onStateChange lib keys fits) task

def receives (seed : Seed) (node : Ledger) : Bool :=
  (List.range gapLimit).any (usedIndex lib keys seed (utxoAddresses node))

def Owned (seed : Seed) (node : Ledger) (address : Address) (index : AddressIndex) : Prop :=
  index.toNat < maxRecoveryIndex ∧ Reaches lib keys seed (utxoAddresses node) index.toNat ∧
    deriveAddressForIndex lib keys seed index = .ok address ∧ address ∈ utxoAddresses node

/- The wallet has the addresses that were found in the node's outputs then, and lists coins of these only. -/
structure Restored (seed : Seed) (first : Ledger) (wallet : SeededWallet) : Prop where
  indexed : Indexed lib keys wallet
  owned : ∀ address index, wallet.addressToIndex.tryGet address = some index ↔ Owned lib keys seed first address index
  lists : ∀ o x, wallet.utxos.tryGet o = some x → x.address ∈ wallet.getAddresses

end Task

section Run

variable {F : Type} {lib : Externals F} {keys : WalletKeys} {fits : SeededWallet → Bool} {wallet next : SeededWallet}
  {seed : Seed} {node first : Ledger} {nodes : List Ledger} {task : WalletTask}

/- What the task relies on: a key for each index it may look at, and room for what it writes. -/
structure Untroubled (lib : Externals F) (keys : WalletKeys) (fits : SeededWallet → Bool) (seed : Seed) : Prop where
  derives : ∀ n, n < maxRecoveryIndex → ∃ address, deriveAddressForIndex lib keys seed (BitVec.ofNat 32 n) = .ok address
  stores : ∀ wallet, fits wallet = true

theorem usedOf {address : Address} {index : AddressIndex} {addresses : List Address}
    (derived : deriveAddressForIndex lib keys seed index = .ok address) (mem : address ∈ addresses) :
    usedIndex lib keys seed addresses index.toNat = true := by
  unfold usedIndex
  rw [BitVec.ofNat_toNat,BitVec.setWidth_eq,derived]
  exact List.contains_iff_mem.mpr mem

theorem usedSource {addresses : List Address} {n : Nat} (used : usedIndex lib keys seed addresses n = true) :
    ∃ address, deriveAddressForIndex lib keys seed (BitVec.ofNat 32 n) = .ok address ∧ address ∈ addresses := by
  unfold usedIndex at used
  split at used
  · cases used
  · next address derived => exact ⟨address,derived,List.contains_iff_mem.mp used⟩

theorem ownedReceived {address : Address} {index : AddressIndex} (owned : Owned lib keys seed node address index) :
    receives lib keys seed node = true := by
  obtain ⟨_,reached,derived,mem⟩ := owned
  cases received : receives lib keys seed node with
  | true => rfl
  | false =>
      have unused (k : Nat) (_ : 0 ≤ k) (near : k < 0 + gapLimit) :
          usedIndex lib keys seed (utxoAddresses node) k = false := by
        have none := List.any_eq_false.mp received k (List.mem_range.mpr (by omega))
        exact Bool.eq_false_iff.mpr none
      have near := reached.before unused
      cases (unused _ (Nat.zero_le _) near).symm.trans (usedOf derived mem)

theorem receivedOwned (received : receives lib keys seed node = true) :
    ∃ address index, Owned lib keys seed node address index := by
  obtain ⟨n,mem,used⟩ := List.any_eq_true.mp received
  have near := List.mem_range.mp mem
  obtain ⟨address,derived,paid⟩ := usedSource used
  have value : (BitVec.ofNat 32 n).toNat = n := by
    rw [BitVec.toNat_ofNat,Nat.mod_eq_of_lt]
    unfold gapLimit at near
    omega
  refine ⟨address,BitVec.ofNat 32 n,?_,?_,derived,paid⟩
  · rw [value]
    unfold gapLimit at near
    unfold maxRecoveryIndex
    omega
  · rw [value]
    exact reachedSoon (by omega)

theorem recoverNode (untroubled : Untroubled lib keys fits seed) (once : DerivesOnce lib keys) :
    ∃ next, recoverWalletAddresses lib keys fits node { Wallet.new with seed := some seed } = (next,.ok ()) ∧
      next.seed = some seed ∧ next.utxos = ∅ ∧ next.stxos = ∅ ∧ Restored lib keys seed node next := by
  have unindexed : Indexed lib keys { Wallet.new with seed := some seed } := emptyIndexed.1
  have nothing (address : Address) : (∅ : Table Address AddressIndex).tryGet address = none := Table.tryGetEmpty
  have noCoins {lists : List Address} (o : OutPoint) (x : Output)
      (listed : (∅ : Table OutPoint Output).tryGet o = some x) : x.address ∈ lists := by
    rw [Table.tryGetEmpty] at listed
    cases listed
  unfold recoverWalletAddresses
  dsimp only
  split
  · next isEmpty =>
      refine ⟨_,rfl,rfl,rfl,rfl,⟨unindexed,fun address index => ?_,noCoins⟩⟩
      have none : utxoAddresses node = [] := by rw [utxoAddresses,List.isEmpty_iff.mp isEmpty]; rfl
      show (∅ : Table Address AddressIndex).tryGet address = some index ↔ _
      rw [nothing,Owned,none]
      simp
  · cases ran : recoverAddressesFromUtxoSet lib keys fits { Wallet.new with seed := some seed } (utxoAddresses node) with
    | mk next outcome =>
        obtain ⟨stop,entered,low,scans⟩ := recoverAllScans once unindexed rfl ran
        have recovers := scans.recovers
        cases outcome with
        | error e =>
            obtain ⟨looked,failed | ⟨_,address,_,full⟩⟩ := scans.broken e rfl
            · obtain ⟨address,derived⟩ := untroubled.derives stop (visitedReached.mp looked).1
              cases derived.symm.trans failed
            · cases full.symm.trans (untroubled.stores _)
        | ok total =>
            refine ⟨next,rfl,recovers.sameSeed,recovers.sameUtxos,recovers.sameStxos,recovers.indexed,
              fun address index => ?_,?_⟩
            · have before : ({ Wallet.new with seed := some seed } : SeededWallet).addressToIndex.tryGet address = none :=
                nothing address
              rw [recovers.found,before,foundReached low,(scans.done total rfl).1]
              simp [Owned,Reaches]
            · rw [recovers.sameUtxos]
              exact noCoins

abbrev fresh (seed : Seed) : SeededWallet := { Wallet.new with seed := some seed }

theorem noEntries {K V : Type} [DbKey K] : (∅ : Table K V).entries = [] := by
  refine List.eq_nil_iff_forall_not_mem.mpr (fun entry mem => ?_)
  have found := Table.memEntries.mp (show (entry.1,entry.2) ∈ (∅ : Table K V).entries from mem)
  rw [Table.tryGetEmpty] at found
  cases found

theorem freshAgain (sameSeed : next.seed = some seed) (noUtxos : next.utxos = ∅) (noStxos : next.stxos = ∅)
    (restored : Restored lib keys seed node next) (none : receives lib keys seed node = false) : next = fresh seed := by
  have noIndex (address : Address) : next.addressToIndex.tryGet address = Option.none := by
    refine Option.eq_none_iff_forall_ne_some.mpr (fun index found => ?_)
    cases none.symm.trans (ownedReceived ((restored.owned address index).mp found))
  have noAddress (index : AddressIndex) : next.indexToAddress.tryGet index = Option.none := by
    refine Option.eq_none_iff_forall_ne_some.mpr (fun address found => ?_)
    cases (noIndex address).symm.trans ((restored.indexed.mirrored index address).mp found)
  obtain ⟨⟨byAddress,byIndex,utxos,stxos⟩,held⟩ := next
  cases sameSeed
  cases noUtxos
  cases noStxos
  have emptyByAddress : byAddress = ∅ := Table.ext (fun address => (noIndex address).trans Table.tryGetEmpty.symm)
  have emptyByIndex : byIndex = ∅ := Table.ext (fun index => (noAddress index).trans Table.tryGetEmpty.symm)
  rw [emptyByAddress,emptyByIndex]
  rfl

theorem updated (untroubled : Untroubled lib keys fits seed) : updateWallet fits node wallet =
    ({ wallet with toWallet := Coinshift.updateWallet node wallet.toWallet },.ok ()) := by
  unfold updateWallet commit
  dsimp only
  rw [if_pos (untroubled.stores _)]
  dsimp only
  rw [if_pos (untroubled.stores _)]
  rfl

theorem freshAddresses : (fresh seed).getAddresses = [] :=
  congrArg (List.map (·.2)) (noEntries (K := AddressIndex) (V := Address))

theorem freshUpdated : Coinshift.updateWallet node (fresh seed).toWallet = (fresh seed).toWallet := by
  have noUtxos : getUtxosByAddresses node [] = [] := List.filter_eq_nil_iff.mpr (by simp)
  have noCoins : (fresh seed).utxos.entries = [] := noEntries
  unfold Coinshift.updateWallet
  rw [freshAddresses,noUtxos,noCoins]
  rfl

theorem Restored.update (restored : Restored lib keys seed first wallet) :
    Restored lib keys seed first { wallet with toWallet := Coinshift.updateWallet node wallet.toWallet } := by
  have byIndex : (Coinshift.updateWallet node wallet.toWallet).indexToAddress = wallet.indexToAddress := by
    rw [Coinshift.updateWallet,spendUtxosAddresses,putUtxosAddresses]
  have byAddress : (Coinshift.updateWallet node wallet.toWallet).addressToIndex = wallet.addressToIndex := by
    rw [Coinshift.updateWallet,spendUtxosIndices,putUtxosIndices]
  obtain ⟨⟨mirrored,derived⟩,owned,lists⟩ := restored
  refine ⟨⟨?_,?_⟩,?_,fun o x listed => ?_⟩
  · simpa only [byIndex,byAddress] using mirrored
  · simpa only [byIndex] using derived
  · simpa only [byAddress] using owned
  · rw [updateAt] at listed
    split at listed
    · cases listed
    · show x.address ∈ (Coinshift.updateWallet node wallet.toWallet).getAddresses
      rw [updateAddresses]
      cases here : ownedAt node wallet.toWallet o with
      | none =>
          rw [here] at listed
          exact lists o x listed
      | some y =>
          rw [here] at listed
          cases listed
          exact of_decide_eq_true (Option.filter_eq_some_iff.mp here).2

theorem updateLists {o : OutPoint} {x : Output} (there : node.utxos.tryGet o = some x)
    (unspent : node.stxos.tryGet o = none) (own : x.address ∈ wallet.getAddresses) :
    (Coinshift.updateWallet node wallet.toWallet).utxos.tryGet o = some x := by
  rw [updateAt,unspent,ownedAt,there,Option.filter_some,if_pos (decide_eq_true own)]
  simp

def Current (node : Ledger) (wallet : SeededWallet) : Prop :=
  ∀ o x, node.utxos.tryGet o = some x → node.stxos.tryGet o = none →
    (wallet.utxos.tryGet o = some x ↔ x.address ∈ wallet.getAddresses)

inductive Phase (lib : Externals F) (keys : WalletKeys) (seed : Seed) (seen : List Ledger) : WalletTask → Prop
  | waiting (none : seen.find? (receives lib keys seed) = none) : Phase lib keys seed seen ⟨fresh seed,true⟩
  | restored {first : Ledger} {wallet : SeededWallet} (found : seen.find? (receives lib keys seed) = some first)
      (restored : Restored lib keys seed first wallet) : Phase lib keys seed seen ⟨wallet,false⟩

theorem restoredCurrent (restored : Restored lib keys seed first wallet) :
    Current node { wallet with toWallet := Coinshift.updateWallet node wallet.toWallet } := by
  intro o x there unspent
  constructor
  · have now : Restored lib keys seed first { wallet with toWallet := Coinshift.updateWallet node wallet.toWallet } :=
      restored.update
    exact now.lists o x
  · intro own
    have same : x.address ∈ (Coinshift.updateWallet node wallet.toWallet).getAddresses := own
    rw [updateAddresses] at same
    exact updateLists there unspent same

theorem firstTurn (untroubled : Untroubled lib keys fits seed) (once : DerivesOnce lib keys) :
    start lib keys fits node (fresh seed) = .ok (onStateChange lib keys fits ⟨fresh seed,true⟩ node) ∧
    Phase lib keys seed [node] (onStateChange lib keys fits ⟨fresh seed,true⟩ node) ∧
    Current node (onStateChange lib keys fits ⟨fresh seed,true⟩ node).wallet := by
  obtain ⟨next,recovered,sameSeed,noUtxos,noStxos,restored⟩ := @recoverNode _ lib keys fits seed node untroubled once
  have turn : onStateChange lib keys fits ⟨fresh seed,true⟩ node =
      ⟨{ next with toWallet := Coinshift.updateWallet node next.toWallet },next.getAddresses.isEmpty⟩ := by
    unfold onStateChange recoverIfNeeded
    rw [if_pos rfl]
    dsimp only
    rw [recovered]
    dsimp only
    rw [updated untroubled]
  refine ⟨?_,?_,?_⟩
  · rw [turn,start,recovered]
    dsimp only
    rw [updated untroubled]
    show Except.ok (WalletTask.mk _
      ((Coinshift.updateWallet node next.toWallet).getAddresses.isEmpty && next.seed.isSome)) = _
    rw [updateAddresses,sameSeed,Option.isSome_some,Bool.and_true]
  · rw [turn]
    cases received : receives lib keys seed node with
    | false =>
        rw [freshAgain sameSeed noUtxos noStxos restored received,freshUpdated,freshAddresses]
        exact .waiting (List.find?_eq_none.mpr (by simp [received]))
    | true =>
        obtain ⟨address,index,owned⟩ := receivedOwned received
        have mem : address ∈ next.getAddresses :=
          memAddresses.mpr ⟨index,(restored.indexed.mirrored index address).mpr ((restored.owned address index).mpr owned)⟩
        have some_ : next.getAddresses.isEmpty = false := by
          cases isEmpty : next.getAddresses.isEmpty with
          | false => rfl
          | true =>
              rw [List.isEmpty_iff.mp isEmpty] at mem
              cases mem
        rw [some_]
        exact .restored (List.find?_cons_of_pos received) restored.update
  · rw [turn]
    exact restoredCurrent restored

theorem Phase.turn {seen : List Ledger} (phase : Phase lib keys seed seen task)
    (untroubled : Untroubled lib keys fits seed) (once : DerivesOnce lib keys) :
    Phase lib keys seed (seen ++ [node]) (onStateChange lib keys fits task node) ∧
      Current node (onStateChange lib keys fits task node).wallet := by
  cases phase with
  | waiting none =>
      obtain ⟨_,phase,current⟩ := @firstTurn _ lib keys fits seed node untroubled once
      refine ⟨?_,current⟩
      have sameFind : (seen ++ [node]).find? (receives lib keys seed) = [node].find? (receives lib keys seed) := by
        rw [List.find?_append,none,Option.none_or]
      generalize onStateChange lib keys fits ⟨fresh seed,true⟩ node = after at phase ⊢
      cases phase with
      | waiting absent => exact .waiting (sameFind.trans absent)
      | restored found restored => exact .restored (sameFind.trans found) restored
  | @restored first wallet found restored =>
      have turn : onStateChange lib keys fits ⟨wallet,false⟩ node =
          ⟨{ wallet with toWallet := Coinshift.updateWallet node wallet.toWallet },false⟩ := by
        unfold onStateChange recoverIfNeeded
        rw [if_neg Bool.false_ne_true]
        dsimp only
        rw [updated untroubled]
      rw [turn]
      refine ⟨.restored ?_ restored.update,restoredCurrent restored⟩
      rw [List.find?_append,found]
      rfl

theorem runPhase {seen : List Ledger} (phase : Phase lib keys seed seen task)
    (current : ∀ last, seen.getLast? = some last → Current last task.wallet) (untroubled : Untroubled lib keys fits seed)
    (once : DerivesOnce lib keys) : Phase lib keys seed (seen ++ nodes) (run lib keys fits nodes task) ∧
      ∀ last, (seen ++ nodes).getLast? = some last → Current last (run lib keys fits nodes task).wallet := by
  induction nodes generalizing seen task with
  | nil =>
      rw [List.append_nil]
      exact ⟨phase,current⟩
  | cons node rest ih =>
      obtain ⟨next,listed⟩ : Phase lib keys seed (seen ++ [node]) (onStateChange lib keys fits task node) ∧ _ :=
        phase.turn untroubled once
      have more := ih next (fun last isLast => ?_)
      · rwa [List.append_assoc] at more
      · rw [List.getLast?_concat] at isLast
        cases isLast
        exact listed

/- A wallet restored from its seed, through whatever states of the node: its addresses are those that a recovery found at
the first state in which one of the first addresses is paid, and it lists coins of no other address ever after. -/
theorem recoveredAtFirst (once : DerivesOnce lib keys) (untroubled : Untroubled lib keys fits seed) :
    ∃ task, start lib keys fits node (fresh seed) = .ok task ∧
      (∀ address index, (run lib keys fits nodes task).wallet.addressToIndex.tryGet address = some index ↔
        ∃ first, (node :: nodes).find? (receives lib keys seed) = some first ∧ Owned lib keys seed first address index) ∧
      ((run lib keys fits nodes task).needsRecovery = true ↔ (node :: nodes).find? (receives lib keys seed) = none) ∧
      ∀ now, (node :: nodes).getLast? = some now → ∀ o x, now.utxos.tryGet o = some x → now.stxos.tryGet o = none →
        ((run lib keys fits nodes task).wallet.utxos.tryGet o = some x ↔
          ∃ first index, (node :: nodes).find? (receives lib keys seed) = some first ∧
            Owned lib keys seed first x.address index) := by
  obtain ⟨started,phase,current⟩ := @firstTurn _ lib keys fits seed node untroubled once
  have begun (last : Ledger) (isLast : [node].getLast? = some last) :
      Current last (onStateChange lib keys fits ⟨fresh seed,true⟩ node).wallet := by
    cases isLast
    exact current
  obtain ⟨after,listed⟩ := @runPhase _ lib keys fits seed nodes _ [node] phase begun untroubled once
  refine ⟨_,started,?_⟩
  generalize run lib keys fits nodes (onStateChange lib keys fits ⟨fresh seed,true⟩ node) = task at after listed
  rw [List.singleton_append] at after listed
  have atEnd {now : Ledger} (isLast : (node :: nodes).getLast? = some now) {o : OutPoint} {x : Output}
      (there : now.utxos.tryGet o = some x) (unspent : now.stxos.tryGet o = none) :
      task.wallet.utxos.tryGet o = some x ↔ x.address ∈ task.wallet.getAddresses := listed now isLast o x there unspent
  cases after with
  | waiting none =>
      refine ⟨fun address index => ?_,by simp [none],fun now isLast o x there unspent => ?_⟩
      · have nothing : (fresh seed).addressToIndex.tryGet address = Option.none := Table.tryGetEmpty
        rw [nothing,none]
        simp
      · rw [atEnd isLast there unspent,freshAddresses,none]
        simp
  | @restored first wallet found restored =>
      refine ⟨fun address index => ?_,by simp [found],fun now isLast o x there unspent => ?_⟩
      · rw [restored.owned,found]
        simp
      · rw [atEnd isLast there unspent,memAddresses,found]
        simp only [restored.indexed.mirrored,restored.owned,Option.some.injEq,exists_and_left,exists_eq_left']

end Run

end WalletTask

namespace Reference
open SeededWallet WalletTask

theorem freshIndexed : Indexed plainExternals plainKeys (fresh 5) := emptyIndexed.1

def paidAddresses : List Address := [plainAddress 1,plainAddress 20,plainAddress 50]

def recoveredTo : SeededWallet × Except WalletError Nat :=
  (fresh 5).recoverAddressesFromUtxoSet plainExternals plainKeys inMap paidAddresses

theorem recoveredBeforeGap : recoveredTo.2 = .ok 2 ∧ recoveredTo.1.addressToIndex.tryGet (plainAddress 20) = some 20 ∧
    ¬ Reaches plainExternals plainKeys 5 paidAddresses 50 := by
  have total : recoveredTo.2 = .ok 2 := by decide +kernel
  have absent : recoveredTo.1.addressToIndex.tryGet (plainAddress 50) = none := by decide +kernel
  have paid : plainAddress 50 ∈ paidAddresses := by decide +kernel
  have inside : (50 : AddressIndex).toNat < maxRecoveryIndex := by decide +kernel
  have ran : (fresh 5).recoverAddressesFromUtxoSet plainExternals plainKeys inMap paidAddresses =
      (recoveredTo.1,recoveredTo.2) := Prod.mk.eta.symm
  obtain ⟨_,_,stop,_,found,done,_⟩ := recoveryFindsReached plainOnce freshIndexed rfl ran
  refine ⟨total,by decide +kernel,fun reached => ?_⟩
  rw [(done 2 total).1] at found
  have there := (found (plainAddress 50) 50).mpr (.inr ⟨inside,reached,plainAddressIs,paid⟩)
  cases absent.symm.trans there

theorem plainUntroubled : Untroubled plainExternals plainKeys (fun _ => true) 5 :=
  ⟨fun _ _ => ⟨_,plainAddressIs⟩,fun _ => rfl⟩

def coinOf (index : AddressIndex) : OutPoint × Output :=
  (.regular (index.setWidth 256) 0,⟨plainAddress index,.value ⟨1000⟩⟩)

def nodeWith (indices : List AddressIndex) : Ledger :=
  ⟨indices.foldl (fun utxos index => utxos.put (coinOf index).1 (coinOf index).2) ∅,∅⟩

def walletAfter (task : WalletTask) : SeededWallet :=
  (WalletTask.run plainExternals plainKeys (fun _ => true) [nodeWith [3],nodeWith [3,7]] task).wallet

/- The address of index 7 is paid after that of index 3 was found, and its coin is never listed. -/
theorem paidAfterRecovery :
    ∃ task, start plainExternals plainKeys (fun _ => true) (nodeWith []) (fresh 5) = .ok task ∧
      (walletAfter task).utxos.tryGet (coinOf 3).1 = some (coinOf 3).2 ∧
      (walletAfter task).addressToIndex.tryGet (plainAddress 7) = none ∧
      (walletAfter task).utxos.tryGet (coinOf 7).1 ≠ some (coinOf 7).2 := by
  obtain ⟨task,started,found,_,listed⟩ : ∃ task, start plainExternals plainKeys _ (nodeWith []) (fresh 5) = .ok task ∧ _ :=
    @recoveredAtFirst _ plainExternals plainKeys _ 5 (nodeWith []) [nodeWith [3],nodeWith [3,7]] plainOnce plainUntroubled
  have paidFirst : [nodeWith [],nodeWith [3],nodeWith [3,7]].find? (receives plainExternals plainKeys 5) =
      some (nodeWith [3]) := by
    have before : receives plainExternals plainKeys 5 (nodeWith []) = false := by decide +kernel
    have here : receives plainExternals plainKeys 5 (nodeWith [3]) = true := by decide +kernel
    rw [List.find?_cons_of_neg (Bool.eq_false_iff.mp before),List.find?_cons_of_pos here]
  have owned : Owned plainExternals plainKeys 5 (nodeWith [3]) (plainAddress 3) 3 :=
    ⟨by decide +kernel,GapScan.reachedSoon (by decide +kernel),plainAddressIs,by decide +kernel⟩
  have notOwned {first : Ledger} {index : AddressIndex} (isFirst : [nodeWith [],nodeWith [3],nodeWith [3,7]].find?
      (receives plainExternals plainKeys 5) = some first) :
      ¬ Owned plainExternals plainKeys 5 first (plainAddress 7) index := by
    intro owned
    cases paidFirst.symm.trans isFirst
    have unpaid : (utxoAddresses (nodeWith [3])).contains (plainAddress 7) = false := by decide +kernel
    cases unpaid.symm.trans (List.contains_iff_mem.mpr owned.2.2.2)
  have now (index : AddressIndex) (there : (nodeWith [3,7]).utxos.tryGet (coinOf index).1 = some (coinOf index).2) :=
    listed (nodeWith [3,7]) rfl _ _ there Table.tryGetEmpty
  refine ⟨task,started,?_,?_,fun there => ?_⟩
  · exact (now 3 (by decide +kernel)).mpr ⟨_,3,paidFirst,owned⟩
  · refine Option.eq_none_iff_forall_ne_some.mpr (fun index there => ?_)
    obtain ⟨first,isFirst,owned⟩ := (found _ index).mp there
    exact notOwned isFirst owned
  · obtain ⟨first,index,isFirst,owned⟩ := (now 7 (by decide +kernel)).mp there
    exact notOwned isFirst owned

end Reference

end Coinshift
