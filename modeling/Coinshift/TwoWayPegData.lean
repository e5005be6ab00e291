import Coinshift.Withdrawal

/-! Connection and disconnection of two-way-peg data, with the scan of the parent chains and
the expiry of swaps that go with it. What the parent chains' RPC servers answer is an
argument: it may differ from node to node. -/
namespace Coinshift
open Checked

structure TransactionInfo where
  txid : Text
  confirmations : UInt32
  blockheight : Option UInt32
  deriving DecidableEq, Repr

/- For each swap asked about: no RPC configured, a failed call, or the matching transactions. -/
abbrev RpcReplies := SwapId → Option (Except Unit (List (Text × TransactionInfo)))

section ParentChain

/- The characters with the Unicode property White_Space. -/
def isUnicodeSpace (c : Char) : Bool :=
  let n := c.toNat
  (9 ≤ n && n ≤ 13) || n = 32 || n = 0x85 || n = 0xa0 || n = 0x1680 || (0x2000 ≤ n && n ≤ 0x200a) ||
    n = 0x2028 || n = 0x2029 || n = 0x202f || n = 0x205f || n = 0x3000

def trim (text : Text) : Text := ((text.dropWhile isUnicodeSpace).reverse.dropWhile isUnicodeSpace).reverse

def hexDigit (c : Char) : Option Nat :=
  if '0' ≤ c ∧ c ≤ '9' then some (c.toNat - '0'.toNat)
  else if 'a' ≤ c ∧ c ≤ 'f' then some (c.toNat - 'a'.toNat + 10)
  else if 'A' ≤ c ∧ c ≤ 'F' then some (c.toNat - 'A'.toNat + 10)
  else none

def hexDecode : Text → Option (List Byte)
  | [] => some []
  | high :: low :: rest => do
      let h ← hexDigit high
      let l ← hexDigit low
      let bytes ← hexDecode rest
      some (UInt8.ofNat (h * 16 + l) :: bytes)
  | [_] => none

/- A txid as the RPC prints it, stored in the opposite byte order. -/
def SwapTxId.fromHexRpc (text : Text) : Option SwapTxId := do
  let trimmed := trim text
  guard ((utf8 trimmed).length = 64)
  let bytes ← hexDecode trimmed
  guard (bytes.length = 32)
  some (.hash32 (hashOfBytes bytes.reverse))

def TransactionInfo.acceptable (maxAge : UInt32) (info : TransactionInfo) : Bool :=
  info.confirmations ≠ 0 && info.blockheight.isSome && info.confirmations ≤ maxAge

def queryAndUpdateSwap (w : SwapTables) (found : List (Text × TransactionInfo)) (swap : Swap)
    (blockHash : BlockHash) (blockHeight : Nat) : Option Swap := do
  let (_,info) ← (found.filter (fun m => m.2.acceptable swap.parentChain.maxL1TxAgeBlocks)).head?
  let l1Txid ← SwapTxId.fromHexRpc info.txid
  if swap.l1Txid.isUnset then
    match w.getSwapByL1Txid swap.parentChain l1Txid with
    | some existing => guard (existing.id = swap.id)
    | none => pure ()
    some (((swap.updateL1Txid l1Txid).setL1TxidValidationBlock blockHash blockHeight).withConfirmations
      info.confirmations swap.requiredConfirmations)
  else
    let current := match swap.state with
      | .waitingConfirmations current _ => current
      | _ => 0
    guard (current < info.confirmations)
    some (swap.withConfirmations info.confirmations swap.requiredConfirmations)

def Swap.isAwaiting (swap : Swap) : Bool :=
  match swap.state with
  | .pending | .waitingConfirmations .. => true
  | _ => false

def Swap.isExpiredAt (swap : Swap) (height : Nat) : Bool :=
  match swap.expiresAtHeight with
  | some expiresAt => expiresAt ≤ height
  | none => false

def scanSwap (rpc : RpcReplies) (blockHash : BlockHash) (blockHeight : Nat) (w : SwapTables)
    (swap : Swap) : SwapTables :=
  match rpc swap.id with
  | some (.ok found) =>
      match queryAndUpdateSwap w found swap blockHash blockHeight with
      | some updated => w.saveSwap updated
      | none => w
  | _ => w

def expireSwap (acc : SwapTables × List ExpiredSwapReversal) (swap : Swap) :
    SwapTables × List ExpiredSwapReversal :=
  ((acc.1.unlockAllOutputsForSwap swap.id).saveSwap { swap with state := .cancelled },
    acc.2 ++ [(swap.id,swap.state,acc.1.lockedOutputsOf swap.id)])

def processSwap (rpc : RpcReplies) (blockHash : BlockHash) (blockHeight : Nat)
    (acc : SwapTables × List ExpiredSwapReversal) (swap : Swap) : SwapTables × List ExpiredSwapReversal :=
  if swap.isAwaiting = false then acc
  else if swap.isExpiredAt blockHeight then expireSwap acc swap
  else (scanSwap rpc blockHash blockHeight acc.1 swap,acc.2)

def processCoinshiftTransactions (w : SwapTables) (blockHeight : Nat) (blockHash : BlockHash)
    (rpc : RpcReplies) : SwapTables :=
  let processed := w.loadAllSwaps.foldl (processSwap rpc blockHash blockHeight) (w,[])
  if processed.2.isEmpty then processed.1
  else { processed.1 with expiredSwaps := processed.1.expiredSwaps.put blockHeight processed.2 }

end ParentChain

variable {F : Type} (lib : Externals F)

def withdrawalBundleFailureGap : Nat := 4

def PegTables.getLatestFailedWithdrawalBundle (t : PegTables) : Except Error (Option (Nat × M6id)) :=
  match t.latestFailedWithdrawalBundle with
  | none => .ok none
  | some latest => do
      let m6id := latest.latest.value
      let (_,history) ← okOr (t.withdrawalBundles.tryGet m6id) .panic
      ensure (history.latest.value = .failed) .panic
      pure (some (history.latest.height,m6id))

def nextSeqIdx (t : Table UInt32 (Hash × Nat)) : UInt32 :=
  match t.last with
  | some (seqIdx,_) => seqIdx + 1
  | none => 0

/- Append an event block under the next sequence number, when there was one. -/
def pushEventBlock (t : Table UInt32 (Hash × Nat)) (latest : Option Hash) (blockHeight : Nat) :
    Table UInt32 (Hash × Nat) :=
  match latest with
  | some blockHash => t.put (nextSeqIdx t) (blockHash,blockHeight)
  | none => t

def popEventBlock (t : Table UInt32 (Hash × Nat)) (latest : Option Hash) (blockHeight : Nat)
    (missing : Error) : Except Error (Table UInt32 (Hash × Nat)) :=
  match latest with
  | some blockHash => do
      let (seqIdx,(lastHash,lastHeight)) ← okOr t.last missing
      ensure (blockHash = lastHash) .panic
      ensure (blockHeight = lastHeight) .panic
      pure (t.delete seqIdx)
  | none => .ok t

def PegProgress.start (s : State F) : PegProgress :=
  { s.toLedger, s.toPegTables with
    accumulatorDiff := AccumulatorDiff.empty
    indexEvents := ⟨[],[]⟩
    latestDepositBlockHash := none
    latestWithdrawalBundleEventBlockHash := none }

def collectPending (p : PegTables) (utxos : Table OutPoint Output) (blockHeight : Nat) :
    Except Error (Option (WithdrawalBundle × Nat)) := do
  let failed ← p.getLatestFailedWithdrawalBundle
  let failureHeight := (failed.map (·.1)).getD 0
  -- an unsigned subtraction
  ensure (failureHeight ≤ blockHeight) .panic
  if withdrawalBundleFailureGap ≤ blockHeight - failureHeight ∧ p.pendingWithdrawalBundle.isNone then do
    let bundle ← collectWithdrawalBundle lib utxos blockHeight
    pure (bundle.map (fun b => (b,blockHeight)))
  else pure p.pendingWithdrawalBundle

def connectTwoWayPegData (s : State F) (data : TwoWayPegData) (rpc : RpcReplies) :
    Except Error (State F) := do
  let blockHeight ← okOr s.height .noTip
  let progress ← data.events.foldlM (connectEvent lib blockHeight) (PegProgress.start s)
  let blockIndexEvents :=
    if progress.indexEvents.deposits.isEmpty && progress.indexEvents.bundleSpends.isEmpty
    then progress.blockIndexEvents
    else progress.blockIndexEvents.put blockHeight progress.indexEvents
  let blockHash ← okOr s.tip .noTip
  let swaps := processCoinshiftTransactions s.toSwapTables blockHeight blockHash rpc
  let peg := { progress.toPegTables with
    blockIndexEvents
    depositBlocks := pushEventBlock progress.depositBlocks progress.latestDepositBlockHash blockHeight
    withdrawalBundleEventBlocks := pushEventBlock progress.withdrawalBundleEventBlocks
      progress.latestWithdrawalBundleEventBlockHash blockHeight }
  let pendingWithdrawalBundle ← collectPending lib peg progress.utxos blockHeight
  let accumulator ← applyDiff lib (s.accumulator lib) progress.accumulatorDiff
  pure { s with
    toLedger := progress.toLedger
    toSwapTables := swaps
    toPegTables := { peg with pendingWithdrawalBundle }
    utreexoAccumulator := some accumulator }

def restoreExpired (w : SwapTables) (reversal : ExpiredSwapReversal) : SwapTables :=
  let restored := match w.getSwap reversal.1 with
    | some swap => w.saveSwap { swap with state := reversal.2.1 }
    | none => w
  reversal.2.2.foldl (fun w outpoint => w.lockOutputToSwap outpoint reversal.1) restored

def restoreExpiredSwaps (w : SwapTables) (blockHeight : Nat) : SwapTables :=
  match w.expiredSwaps.tryGet blockHeight with
  | some reversals =>
      let restored := reversals.foldl restoreExpired w
      { restored with expiredSwaps := restored.expiredSwaps.delete blockHeight }
  | none => w

def dropPending (t : PegTables) (blockHeight : Nat) : Except Error (Option (WithdrawalBundle × Nat)) := do
  let failed ← t.getLatestFailedWithdrawalBundle
  let failureHeight := (failed.map (·.1)).getD 0
  ensure (failureHeight ≤ blockHeight) .panic
  if withdrawalBundleFailureGap ≤ blockHeight - failureHeight then
    pure (t.pendingWithdrawalBundle.filter (fun pending => pending.2 ≠ blockHeight))
  else pure t.pendingWithdrawalBundle

def disconnectTwoWayPegData (s : State F) (data : TwoWayPegData) : Except Error (State F) := do
  let blockHeight ← okOr s.height .panic
  let swaps := restoreExpiredSwaps s.toSwapTables blockHeight
  let start := { PegProgress.start s with blockIndexEvents := s.blockIndexEvents.delete blockHeight }
  let progress ← data.events.reverse.foldlM (disconnectEvent lib blockHeight) start
  let withdrawalBundleEventBlocks ← popEventBlock progress.withdrawalBundleEventBlocks
    progress.latestWithdrawalBundleEventBlockHash blockHeight .noWithdrawalBundleEventBlock
  let peg := { progress.toPegTables with withdrawalBundleEventBlocks }
  let pendingWithdrawalBundle ← dropPending peg blockHeight
  let depositBlocks ← popEventBlock progress.depositBlocks progress.latestDepositBlockHash blockHeight
    .noDepositBlock
  let accumulator ← applyDiff lib (s.accumulator lib) progress.accumulatorDiff
  pure { s with
    toLedger := progress.toLedger
    toSwapTables := swaps
    toPegTables := { peg with pendingWithdrawalBundle, depositBlocks }
    utreexoAccumulator := some accumulator }

end Coinshift
