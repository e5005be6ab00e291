import Coinshift.State
import Mathlib.Data.List.Sort

/-! Withdrawal bundles: how the pending bundle is collected from the utxos, and what the main
chain's bundle events do to the ledger and to the peg tables, forwards and backwards. -/
namespace Coinshift
open Checked

namespace RollBack

variable {T : Type}

def new (value : T) (height : Nat) : RollBack T := ⟨⟨value,height⟩,[]⟩

def earliest (r : RollBack T) : HeightStamped T := r.head

def latest (r : RollBack T) : HeightStamped T := r.tail.getLast?.getD r.head

def pop (r : RollBack T) : Option (RollBack T) × HeightStamped T :=
  match r.tail.getLast? with
  | some value => (some ⟨r.head,r.tail.dropLast⟩,value)
  | none => (none,r.head)

def push (r : RollBack T) (value : T) (height : Nat) : Option (RollBack T) :=
  if height < r.latest.height then none else some ⟨r.head,r.tail ++ [⟨value,height⟩]⟩

end RollBack

structure Deposit where
  txid : Hash
  vout : UInt32
  output : Output
  deriving DecidableEq, Repr

structure WithdrawalBundleEvent where
  m6id : M6id
  status : WithdrawalBundleStatus
  deriving DecidableEq, Repr

inductive BlockEvent where
  | deposit (deposit : Deposit)
  | withdrawalBundle (event : WithdrawalBundleEvent)
  deriving DecidableEq, Repr

/- The main-chain blocks applied with a sidechain block, oldest first. -/
structure TwoWayPegData where
  blockInfo : List (Hash × List BlockEvent)
  deriving DecidableEq, Repr

def TwoWayPegData.events (data : TwoWayPegData) : List (Hash × BlockEvent) :=
  data.blockInfo.flatMap (fun block => block.2.map (fun event => (block.1,event)))

section Collection

structure AggregatedWithdrawal where
  spendUtxos : List (OutPoint × Output)
  mainAddress : MainAddress
  value : Amount
  mainFee : Amount
  deriving DecidableEq, Repr

def aggregateWithdrawal (aggregated : List AggregatedWithdrawal) (utxo : OutPoint × Output) :
    Except Error (List AggregatedWithdrawal) :=
  match utxo.2.content with
  | .withdrawal value mainFee mainAddress => do
      let current := (aggregated.find? (·.mainAddress = mainAddress)).getD
        ⟨[],mainAddress,Amount.zero,Amount.zero⟩
      let value ← okOr (current.value.checkedAdd value) .amountOverflow
      let mainFee ← okOr (current.mainFee.checkedAdd mainFee) .amountOverflow
      pure (aggregated.filter (·.mainAddress ≠ mainAddress) ++
        [⟨current.spendUtxos ++ [utxo],mainAddress,value,mainFee⟩])
  | _ => pure aggregated

/- Largest first, by main-chain fee, then value, then address. -/
def AggregatedWithdrawal.before (a b : AggregatedWithdrawal) : Bool :=
  if a.mainFee = b.mainFee then
    if a.value = b.value then b.mainAddress.place ≤ a.mainAddress.place else b.value < a.value
  else b.mainFee < a.mainFee

def varIntSize (n : Nat) : Nat :=
  if n < 0xfd then 1 else if n ≤ 0xffff then 3 else if n ≤ 0xffffffff then 5 else 9

def maxU32 : Nat := 4294967295

def txoutSize (spkSize : Nat) : Option Nat :=
  let size := 8 + varIntSize spkSize + spkSize
  if size ≤ maxU32 then some size else none

def maxStandardWeight : Nat := 400000

/- One treasury input, a fee output, a commitment output and `nOutputs` payouts. -/
def predictWeight (nOutputs sumTxoutSizes : Nat) : Option Nat :=
  let vin := 1 + 41
  let vout := varIntSize (nOutputs + 2) + (43 + 19 + sumTxoutSizes)
  let weight := (4 + vin + vout + 4) * 4
  if weight ≤ maxStandardWeight then some weight else none

structure BundleDraft where
  fee : Amount
  spendUtxos : List (OutPoint × Output)
  bundleOutputs : List TxOut
  bundleTxoutsSize : Nat

variable {F : Type} (lib : Externals F)

/- An unusable script is skipped; the first payout that does not fit ends the bundle. -/
def packBundle : BundleDraft → List AggregatedWithdrawal → Except Error BundleDraft
  | draft, [] => .ok draft
  | draft, aggregated :: rest =>
      let scriptPubkey := lib.scriptPubkey aggregated.mainAddress
      let nOutputs := draft.bundleOutputs.length + 1
      if maxU32 < nOutputs then .ok draft
      else if maxU32 < scriptPubkey.length then packBundle draft rest
      else match txoutSize scriptPubkey.length with
        | none => packBundle draft rest
        | some size =>
            let bundleTxoutsSize := draft.bundleTxoutsSize + size
            if maxU32 < bundleTxoutsSize then .ok draft
            else if (predictWeight nOutputs bundleTxoutsSize).isNone then .ok draft
            else match draft.fee.checkedAdd aggregated.mainFee with
              | none => .error .panic
              | some fee =>
                  packBundle ⟨fee,draft.spendUtxos ++ aggregated.spendUtxos,
                    draft.bundleOutputs ++ [⟨aggregated.value,scriptPubkey⟩],bundleTxoutsSize⟩ rest

/- The order of `OutPoint` itself, which compares indices as numbers. -/
def outPointPlace : OutPoint → Nat
  | .regular txid vout => txid.toNat * 2 ^ 32 + vout.toNat
  | .coinbase root vout => (2 ^ 256 + root.toNat) * 2 ^ 32 + vout.toNat
  | .deposit txid vout => (2 * 2 ^ 256 + txid.toNat) * 2 ^ 32 + vout.toNat

def sortByOutPoint (utxos : List (OutPoint × Output)) : List (OutPoint × Output) :=
  utxos.insertionSort (fun a b => outPointPlace a.1 ≤ outPointPlace b.1)

/- Two null-data outputs, the main-chain fee and the commitment to the inputs, then the payouts. -/
def WithdrawalBundle.new (blockHeight : Nat) (fee : Amount) (spendUtxos : List (OutPoint × Output))
    (bundleOutputs : List TxOut) : Except Error WithdrawalBundle := do
  let inputs := spendUtxos.map (·.1) ++ [.regular 0 (UInt32.ofNat blockHeight)]
  let commitment := lib.blake3 (encodeSeq encodeOutPoint inputs)
  let feeTxout : TxOut := ⟨Amount.zero,0x6a :: 8 :: wordBytes 8 fee.val⟩
  let inputsTxout : TxOut := ⟨Amount.zero,0x6a :: 32 :: hashBytes commitment⟩
  let outputs := feeTxout :: inputsTxout :: bundleOutputs
  ensure (lib.bundleWeight outputs ≤ maxStandardWeight)
    (.bundleTooHeavy (lib.bundleWeight outputs) maxStandardWeight)
  pure ⟨spendUtxos,outputs⟩

def WithdrawalBundle.computeM6id (b : WithdrawalBundle) : M6id := lib.bundleTxid b.outputs

def collectWithdrawalBundle (utxos : Table OutPoint Output) (blockHeight : Nat) :
    Except Error (Option WithdrawalBundle) := do
  let aggregated ← utxos.entries.foldlM aggregateWithdrawal []
  if aggregated.isEmpty then pure none
  else do
    let draft ← packBundle lib ⟨Amount.zero,[],[],0⟩
      (aggregated.insertionSort (fun a b => a.before b))
    let bundle ← WithdrawalBundle.new lib blockHeight draft.fee (sortByOutPoint draft.spendUtxos)
      draft.bundleOutputs
    pure (some bundle)

end Collection

structure PegProgress extends Ledger, PegTables where
  accumulatorDiff : AccumulatorDiff
  indexEvents : BlockIndexEvents
  latestDepositBlockHash : Option Hash
  latestWithdrawalBundleEventBlockHash : Option Hash

variable {F : Type} (lib : Externals F)

namespace PegProgress

def remove (p : PegProgress) (utxo : OutPoint × Output) : PegProgress :=
  { p with accumulatorDiff := p.accumulatorDiff.remove (utxoHash lib ⟨utxo.1,utxo.2⟩) }

def insert (p : PegProgress) (utxo : OutPoint × Output) : PegProgress :=
  { p with accumulatorDiff := p.accumulatorDiff.insert (utxoHash lib ⟨utxo.1,utxo.2⟩) }

def bundleSpend (m6id : M6id) (p : PegProgress) (utxo : OutPoint × Output) : PegProgress :=
  { p.remove lib utxo with
    utxos := p.utxos.delete utxo.1
    stxos := p.stxos.put utxo.1 ⟨utxo.2,.withdrawal m6id⟩
    indexEvents := { p.indexEvents with bundleSpends := p.indexEvents.bundleSpends ++ [(utxo.1,m6id)] } }

def bundleUnspend (p : PegProgress) (utxo : OutPoint × Output) : PegProgress :=
  { p.insert lib utxo with
    utxos := p.utxos.put utxo.1 utxo.2
    stxos := p.stxos.delete utxo.1 }

end PegProgress

section Connect

variable (blockHeight : Nat)

def connectWithdrawalBundleSubmitted (p : PegProgress) (m6id : M6id) : Except Error PegProgress :=
  match p.pendingWithdrawalBundle.filter (fun pending => pending.1.computeM6id lib = m6id) with
  | some (bundle,bundleBlockHeight) => do
      ensure (bundleBlockHeight + 1 = blockHeight) .panic
      let spent := bundle.spendUtxos.foldl (PegProgress.bundleSpend lib m6id) p
      pure { spent with
        withdrawalBundles := spent.withdrawalBundles.put m6id
          (.known bundle,RollBack.new .submitted blockHeight)
        pendingWithdrawalBundle := none }
  | none =>
      match p.withdrawalBundles.tryGet m6id with
      | some (_,status) => do
          ensure (status.earliest.value = .submitted) .panic
          pure p
      | none => pure { p with
          withdrawalBundles := p.withdrawalBundles.put m6id (.unknown,RollBack.new .submitted blockHeight) }

/- Mark every utxo spent by a bundle the node does not know. -/
def spendAllUtxos (p : PegProgress) (m6id : M6id) : PegProgress :=
  let spent := (sortByOutPoint p.utxos.entries).foldl (fun p utxo =>
    { p.remove lib utxo with stxos := p.stxos.put utxo.1 ⟨utxo.2,.withdrawal m6id⟩ }) p
  { spent with utxos := ∅ }

def connectWithdrawalBundleConfirmed (p : PegProgress) (eventBlockHash : Hash) (m6id : M6id) :
    Except Error PegProgress := do
  let (bundle,status) ← okOr (p.withdrawalBundles.tryGet m6id) (.unknownWithdrawalBundle m6id)
  if status.latest.value = .confirmed then pure p
  else do
    ensure (status.latest.value = .submitted) .panic
    let confirmed ← match bundle with
      | .known _ => pure (p,bundle)
      | _ => do
          ensure (blockHeight = 0) (.unknownWithdrawalBundleConfirmed eventBlockHash m6id)
          pure (spendAllUtxos lib p m6id,.unknownConfirmed (sortByOutPoint p.utxos.entries))
    let status ← okOr (status.push .confirmed blockHeight) .panic
    pure { confirmed.1 with
      withdrawalBundles := confirmed.1.withdrawalBundles.put m6id (confirmed.2,status) }

def pushLatestFailed (latest : Option (RollBack M6id)) (m6id : M6id) : Except Error (RollBack M6id) :=
  match latest with
  | some history => okOr (history.push m6id blockHeight) .panic
  | none => pure (RollBack.new m6id blockHeight)

def connectWithdrawalBundleFailed (p : PegProgress) (m6id : M6id) : Except Error PegProgress := do
  let (bundle,status) ← okOr (p.withdrawalBundles.tryGet m6id) (.unknownWithdrawalBundle m6id)
  if status.latest.value = .failed then pure p
  else do
    ensure (status.latest.value = .submitted) .panic
    let status ← okOr (status.push .failed blockHeight) .panic
    let failed ← match bundle with
      | .known bundle => do
          let restored := bundle.spendUtxos.foldl (PegProgress.bundleUnspend lib) p
          let latest ← pushLatestFailed blockHeight restored.latestFailedWithdrawalBundle m6id
          pure { restored with latestFailedWithdrawalBundle := some latest }
      | _ => pure p
    pure { failed with withdrawalBundles := failed.withdrawalBundles.put m6id (bundle,status) }

def connectWithdrawalBundleEvent (p : PegProgress) (eventBlockHash : Hash) (event : WithdrawalBundleEvent) :
    Except Error PegProgress :=
  match event.status with
  | .submitted => connectWithdrawalBundleSubmitted lib blockHeight p event.m6id
  | .confirmed => connectWithdrawalBundleConfirmed lib blockHeight p eventBlockHash event.m6id
  | .failed => connectWithdrawalBundleFailed lib blockHeight p event.m6id

def connectEvent (p : PegProgress) (event : Hash × BlockEvent) : Except Error PegProgress :=
  match event.2 with
  | .deposit d =>
      let utxo := (OutPoint.deposit d.txid d.vout,d.output)
      pure { p.insert lib utxo with
        utxos := p.utxos.put utxo.1 utxo.2
        indexEvents := { p.indexEvents with deposits := p.indexEvents.deposits ++ [utxo] }
        latestDepositBlockHash := some event.1 }
  | .withdrawalBundle bundleEvent => do
      let p ← connectWithdrawalBundleEvent lib blockHeight p event.1 bundleEvent
      pure { p with latestWithdrawalBundleEventBlockHash := some event.1 }

end Connect

section Disconnect

variable (blockHeight : Nat)

def restoreOutput (p : PegProgress) (utxo : OutPoint × Output) : Except Error PegProgress := do
  ensure ((p.stxos.tryGet utxo.1).isSome) (.noStxo utxo.1)
  pure (p.bundleUnspend lib utxo)

def disconnectWithdrawalBundleSubmitted (p : PegProgress) (m6id : M6id) : Except Error PegProgress :=
  match p.withdrawalBundles.tryGet m6id with
  | none => do
      ensure ((p.pendingWithdrawalBundle.filter
        (fun pending => pending.1.computeM6id lib = m6id)).isSome) (.unknownWithdrawalBundle m6id)
      pure p
  | some (bundle,history) => do
      let status := history.latest
      ensure (status.height ≤ blockHeight)
        (.unexpectedWithdrawalBundleStatus m6id status.value status.height blockHeight)
      if status.value = .submitted ∧ status.height = blockHeight then do
        let restored ← match bundle with
          | .known bundle => do
              let restored ← bundle.spendUtxos.reverse.foldlM (restoreOutput lib) p
              pure { restored with pendingWithdrawalBundle := some (bundle,status.height - 1) }
          | _ => pure p
        pure { restored with withdrawalBundles := restored.withdrawalBundles.delete m6id }
      else pure p

/- The status before the one this block recorded, which must be the submission. -/
def popStatus (history : RollBack WithdrawalBundleStatus) (expected : WithdrawalBundleStatus) :
    Except Error (RollBack WithdrawalBundleStatus) := do
  ensure (history.pop.2.value = expected) .panic
  ensure (history.pop.2.height = blockHeight) .panic
  let previous ← okOr history.pop.1 .panic
  ensure (previous.latest.value = .submitted) .panic
  pure previous

def disconnectWithdrawalBundleConfirmed (p : PegProgress) (m6id : M6id) : Except Error PegProgress := do
  let (bundle,history) ← okOr (p.withdrawalBundles.tryGet m6id) (.unknownWithdrawalBundle m6id)
  if history.pop.2.value = .submitted then pure p
  else do
    let previous ← popStatus blockHeight history .confirmed
    let restored ← match bundle with
      | .unknownConfirmed spendUtxos => do
          let restored ← spendUtxos.foldlM (restoreOutput lib) p
          pure (restored,WithdrawalBundleInfo.unknown)
      | _ => pure (p,bundle)
    pure { restored.1 with
      withdrawalBundles := restored.1.withdrawalBundles.put m6id (restored.2,previous) }

def refail (m6id : M6id) (p : PegProgress) (utxo : OutPoint × Output) : Except Error PegProgress := do
  ensure ((p.utxos.tryGet utxo.1).isSome) (.noUtxo utxo.1)
  pure { p.remove lib utxo with
    utxos := p.utxos.delete utxo.1
    stxos := p.stxos.put utxo.1 ⟨utxo.2,.withdrawal m6id⟩ }

def popLatestFailed (latest : Option (RollBack M6id)) (m6id : M6id) :
    Except Error (Option (RollBack M6id)) := do
  let history ← okOr latest .panic
  ensure (history.pop.2.value = m6id) .panic
  ensure (history.pop.2.height = blockHeight) .panic
  pure history.pop.1

def disconnectWithdrawalBundleFailed (p : PegProgress) (m6id : M6id) : Except Error PegProgress := do
  let (bundle,history) ← okOr (p.withdrawalBundles.tryGet m6id) (.unknownWithdrawalBundle m6id)
  if history.pop.2.value = .submitted then pure p
  else do
    let previous ← popStatus blockHeight history .failed
    let respent ← match bundle with
      | .known bundle => do
          let respent ← bundle.spendUtxos.reverse.foldlM (refail lib m6id) p
          let latest ← popLatestFailed blockHeight respent.latestFailedWithdrawalBundle m6id
          pure { respent with latestFailedWithdrawalBundle := latest }
      | _ => pure p
    pure { respent with withdrawalBundles := respent.withdrawalBundles.put m6id (bundle,previous) }

def disconnectWithdrawalBundleEvent (p : PegProgress) (event : WithdrawalBundleEvent) :
    Except Error PegProgress :=
  match event.status with
  | .submitted => disconnectWithdrawalBundleSubmitted lib blockHeight p event.m6id
  | .confirmed => disconnectWithdrawalBundleConfirmed lib blockHeight p event.m6id
  | .failed => disconnectWithdrawalBundleFailed lib blockHeight p event.m6id

def disconnectEvent (p : PegProgress) (event : Hash × BlockEvent) : Except Error PegProgress :=
  match event.2 with
  | .deposit d => do
      let utxo := (OutPoint.deposit d.txid d.vout,d.output)
      ensure ((p.utxos.tryGet utxo.1).isSome) (.noUtxo utxo.1)
      pure { p.remove lib utxo with
        utxos := p.utxos.delete utxo.1
        latestDepositBlockHash := p.latestDepositBlockHash.or (some event.1) }
  | .withdrawalBundle bundleEvent => do
      let p ← disconnectWithdrawalBundleEvent lib blockHeight p bundleEvent
      pure { p with
        latestWithdrawalBundleEventBlockHash :=
          p.latestWithdrawalBundleEventBlockHash.or (some event.1) }

end Disconnect

end Coinshift
