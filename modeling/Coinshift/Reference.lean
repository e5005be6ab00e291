import Coinshift.BlockSource
import Coinshift.Node

/-! A reference instance of the third-party code, on which runs can be evaluated: a polynomial
hash, a keyed tag for signatures, the complete binary merkle tree and a forest that is the list
of its leaves. It meets what is assumed of the real code; nothing else is claimed of it. -/
namespace Coinshift.Reference
open Checked

abbrev Forest := List Hash

instance : LawfulBEq Hash := inferInstance

def polyHash (bytes : List Byte) : Hash :=
  BitVec.ofNat 256 (bytes.foldl (fun h b =>
    ((h + b.toNat + 1) * 0x9e3779b97f4a7c15f39cc0605cedc8341082276bf3a27251f86c6a11d0c18e95) % 2 ^ 256) 1)

def tag (key : VerifyingKey) (message : List Byte) : Signature :=
  BitVec.ofNat 512 (polyHash (wordBytes 32 key.toNat ++ message)).toNat

def checkTag (key : VerifyingKey) (signature : Signature) (message : List Byte) : Bool :=
  signature = tag key message

/- Leaf `i` of `n` stands at place `i + n - 1`; the children of place `i` at `2 i + 1` and `2 i + 2`. -/
def treeNode (merge : CbmtNode → CbmtNode → Option CbmtNode) (leaves : List CbmtNode) :
    Nat → Nat → Option CbmtNode
  | 0, _ => none
  | fuel + 1, i =>
      if i + 1 < leaves.length then do
        let left ← treeNode merge leaves fuel (2 * i + 1)
        let right ← treeNode merge leaves fuel (2 * i + 2)
        merge left right
      else leaves[i + 1 - leaves.length]?

def treeRoot (merge : CbmtNode → CbmtNode → Option CbmtNode) (leaves : List CbmtNode) : Option CbmtNode :=
  if leaves.isEmpty then some ⟨0,Amount.zero,0,0⟩ else treeNode merge leaves (leaves.length + 1) 0

def modify (forest : Forest) (add del : List Hash) : Except Text Forest :=
  if del.all (· ∈ forest) then .ok (forest.filter (· ∉ del) ++ add) else .error []

def txOutSize (out : TxOut) : Nat := 8 + varIntSize out.scriptPubkey.length + out.scriptPubkey.length

def externals : Externals Forest where
  blake3 := polyHash
  verifySignature := checkTag
  batchVerify _ items :=
    !items.isEmpty && items.all (fun item => checkTag item.1.verifyingKey item.1.signature item.2)
  buildMerkleRoot := treeRoot
  emptyForest := []
  modify := modify
  getRoots forest := if forest.isEmpty then [] else [forest.foldl (· + ·) 0]
  verify forest _ del := .ok (del.all (· ∈ forest))
  scriptPubkey address := 0 :: 20 :: wordBytes 20 address.place
  bundleWeight outs := 4 * (10 + (outs.map txOutSize).sum)
  bundleTxid outs := polyHash (outs.flatMap (fun out => encodeAmount out.value ++ out.scriptPubkey))

def context : BatchVerificationContext := ⟨0⟩

theorem batchSound : BatchSound externals context := by
  intro items nonempty
  have isEmpty : items.isEmpty = false := by simpa using nonempty
  simp [externals,isEmpty]

section Mining

def spending (outpoint : OutPoint) (output : Output) : OutPoint × Hash :=
  (outpoint,utxoHash externals ⟨outpoint,output⟩)

def transaction (inputs : List (OutPoint × Output)) (outputs : List Output) (data : TxData) : Transaction :=
  ⟨inputs.map (fun i => spending i.1 i.2),⟨[],[]⟩,outputs,data⟩

def sign (key : VerifyingKey) (tx : Transaction) : Authorization := ⟨key,tag key (encodeTransaction externals tx)⟩

def body (txs : List (Transaction × List VerifyingKey)) (coinbase : List Output) : Body :=
  ⟨coinbase,txs.map (·.1),txs.flatMap (fun tx => tx.2.map (fun key => sign key tx.1))⟩

def mine (s : State Forest) (body : Body) : Header :=
  let filled := (collect (fillTransaction s) body.transactions).toOption.getD []
  let header : Header := ⟨(Body.computeMerkleRoot externals body.coinbase filled).toOption.getD 0,s.tip,0,[]⟩
  let applied := applyDiff externals (s.accumulator externals) (connectDiff externals header body)
  { header with roots := applied.toOption.elim [] externals.getRoots }

/- What a node does in a script: take in a block with its peg data, give the latest block up
again, or run an operation of its own. -/
inductive Move where
  | grow (body : Body) (deposits : List Deposit) (rpc : RpcReplies)
  | shrink
  | locally (op : LocalOp)

def pegData (deposits : List Deposit) : TwoWayPegData :=
  ⟨if deposits.isEmpty then [] else [(1,deposits.map BlockEvent.deposit)]⟩

structure Connected where
  header : Header
  body : Body
  data : TwoWayPegData
  before : Option Forest

def Move.steps (connected : List Connected) (s : State Forest) : Move → List (Step Forest)
  | .grow body deposits rpc => [.connect (mine s body) body,.connectPeg (pegData deposits) rpc]
  | .shrink =>
      match connected with
      | [] => []
      | top :: _ => [.disconnectPeg top.data,.disconnect top.header top.body,.restoreAccumulator top.before]
  | .locally op => [.localOp op]

def Move.track (connected : List Connected) (s : State Forest) : Move → List Connected
  | .grow body deposits _ => ⟨mine s body,body,pegData deposits,s.utreexoAccumulator⟩ :: connected
  | .shrink => connected.tail
  | .locally _ => connected

def play : List Move → List Connected → State Forest → Except Error (List (Step Forest) × State Forest)
  | [], _, s => .ok ([],s)
  | move :: rest, connected, s => do
      let t ← run externals context (move.steps connected s) s
      let (steps,last) ← play rest (move.track connected s) t
      pure (move.steps connected s ++ steps,last)

theorem playRun {script connected s steps t} (ok : play script connected s = .ok (steps,t)) :
    run externals context steps s = .ok t := by
  induction script generalizing connected s steps with
  | nil =>
      cases ok
      rfl
  | cons move rest ih =>
      simp only [play,bindOk,pureOk] at ok
      obtain ⟨middle,first,⟨tail,last⟩,more,same⟩ := ok
      cases same
      exact foldAppendOk.mpr ⟨middle,first,ih more⟩

def plays (script : List Move) (check : List (Step Forest) → State Forest → Bool) : Bool :=
  match play script [] (State.new Forest) with
  | .ok (steps,s) => check steps s
  | .error _ => false

theorem playsRun {script check} (ok : plays script check = true) :
    ∃ steps s, run externals context steps (State.new Forest) = .ok s ∧ check steps s = true := by
  unfold plays at ok
  split at ok
  · next steps s played => exact ⟨steps,s,playRun played,ok⟩
  · cases ok

theorem playSteps {script connected s steps t} {P : Step Forest → Prop} (ok : play script connected s = .ok (steps,t))
    (all : ∀ move ∈ script, ∀ connected s, ∀ step ∈ move.steps connected s, P step) : ∀ step ∈ steps, P step := by
  induction script generalizing connected s steps with
  | nil =>
      cases ok
      simp
  | cons move rest ih =>
      simp only [play,bindOk,pureOk] at ok
      obtain ⟨middle,_,⟨tail,last⟩,more,same⟩ := ok
      cases same
      intro step mem
      rcases List.mem_append.mp mem with here | later
      · exact all move List.mem_cons_self connected s step here
      · exact ih more (fun move mem => all move (List.mem_cons_of_mem _ mem)) step later

theorem playsSteps {script check} {P : Step Forest → Prop} (ok : plays script check = true)
    (all : ∀ move ∈ script, ∀ connected s, ∀ step ∈ move.steps connected s, P step) :
    ∃ steps s, run externals context steps (State.new Forest) = .ok s ∧ check steps s = true ∧ ∀ step ∈ steps, P step := by
  unfold plays at ok
  split at ok
  · next steps s played => exact ⟨steps,s,playRun played,ok,playSteps played all⟩
  · cases ok

def reaches (script : List Move) (check : State Forest → Bool) : Bool :=
  plays script (fun steps s => (chainOf steps).isSome && check s)

theorem reachesReachable {script check} (ok : reaches script check = true) :
    ∃ s, Reachable externals context s ∧ check s = true := by
  obtain ⟨steps,s,ran,checked⟩ := playsRun ok
  simp only [Bool.and_eq_true,Option.isSome_iff_exists] at checked
  obtain ⟨⟨chain,tracked⟩,passed⟩ := checked
  exact ⟨s,⟨steps,chain,tracked,ran⟩,passed⟩

def everyStep (check : State Forest → Step Forest → Bool) (steps : List (Step Forest)) (s : State Forest) : Bool :=
  every (Step.apply externals context) check steps s

theorem everyStepTakes {check : State Forest → Step Forest → Bool} {steps later : List (Step Forest)}
    {s t : State Forest} {step : Step Forest} (passes : everyStep check steps (State.new Forest) = true)
    (takes : Takes externals context steps s step t later) : check s step = true := by
  obtain ⟨⟨earlier,rfl,reached⟩,_⟩ := takes
  exact everyTaken passes reached

def playsEvery (script : List Move) (check : State Forest → Step Forest → Bool) (final : State Forest → Bool) : Bool :=
  plays script (fun steps s => everyStep check steps (State.new Forest) && final s)

theorem playsEveryRun {script check final} (ok : playsEvery script check final = true) :
    ∃ steps s, run externals context steps (State.new Forest) = .ok s ∧
      (∀ s step t later, Takes externals context steps s step t later → check s step = true) ∧ final s = true := by
  obtain ⟨steps,s,ran,checked⟩ := playsRun ok
  obtain ⟨every,passed⟩ := Bool.and_eq_true_iff.mp checked
  exact ⟨steps,s,ran,fun _ _ _ _ takes => everyStepTakes every takes,passed⟩

def accepts (block : Body) (s : State Forest) : Bool :=
  (prevalidate externals s context (mine s block) block).isOk

theorem acceptsOk {block : Body} {s : State Forest} (accepted : accepts block s = true) :
    ∃ pre, prevalidate externals s context (mine s block) block = .ok pre := isOkExists accepted

def roundTrips (block : Body) (check : State Forest → State Forest → Bool) (s : State Forest) : Bool :=
  let result := do
    let pre ← prevalidate externals s context (mine s block) block
    let connected ← connectPrevalidated externals s (mine s block) block pre
    disconnectTip externals connected (mine s block) block
  match result with
  | .ok back => check s back
  | .error _ => false

theorem roundTripsOk {block : Body} {check : State Forest → State Forest → Bool} {s : State Forest}
    (ok : roundTrips block check s = true) :
    ∃ pre connected back, prevalidate externals s context (mine s block) block = .ok pre ∧
      connectPrevalidated externals s (mine s block) block pre = .ok connected ∧
      disconnectTip externals connected (mine s block) block = .ok back ∧ check s back = true := by
  unfold roundTrips at ok
  dsimp only at ok
  split at ok
  · next back result =>
      simp only [bindOk] at result
      obtain ⟨pre,accepted,connected,connects,disconnects⟩ := result
      exact ⟨pre,connected,back,accepted,connects,disconnects,ok⟩
  · cases ok

end Mining

section Actors

def alice : VerifyingKey := 11

def bob : VerifyingKey := 12

def addressOf (key : VerifyingKey) : Address := Coinshift.getAddress externals key

def coin (owner : VerifyingKey) (sats : UInt64) : Output := ⟨addressOf owner,.value ⟨sats⟩⟩

def deposit (n : Nat) (output : Output) : Deposit := ⟨BitVec.ofNat 256 n,0,output⟩

def deposited (n : Nat) (output : Output) : OutPoint × Output := (.deposit (BitVec.ofNat 256 n) 0,output)

def outputOf (tx : Transaction) (n : Nat) (output : Output) : OutPoint × Output :=
  (.regular (tx.txid externals) (UInt32.ofNat n),output)

def noRpc : RpcReplies := fun _ => none

def grow (txs : List (Transaction × List VerifyingKey)) : Move := .grow (body txs []) [] noRpc

/- A first block with Alice's coin of 1000 and Bob's of 500, and an empty one on top. -/
def funded : List Move :=
  [.grow (body [] []) [deposit 1 (coin alice 1000),deposit 2 (coin bob 500)] noRpc,grow []]

def pendingId (s : State Forest) : M6id :=
  match s.pendingWithdrawalBundle with
  | some (bundle,_) => bundle.computeM6id externals
  | none => 0

def reportSteps (m6id : M6id) (statuses : List WithdrawalBundleStatus) (s : State Forest) : List (Step Forest) :=
  [.connect (mine s (body [] [])) (body [] []),
    .connectPeg ⟨[(2,statuses.map (fun status => .withdrawalBundle ⟨m6id,status⟩))]⟩ noRpc]

def playReports (m6id : M6id) :
    List (List WithdrawalBundleStatus) → State Forest → Except Error (List (Step Forest) × State Forest)
  | [], s => .ok ([],s)
  | statuses :: rest, s => do
      let t ← run externals context (reportSteps m6id statuses s) s
      let (steps,last) ← playReports m6id rest t
      pure (reportSteps m6id statuses s ++ steps,last)

theorem playReportsRun {m6id reports s steps t} (ok : playReports m6id reports s = .ok (steps,t)) :
    run externals context steps s = .ok t := by
  induction reports generalizing s steps with
  | nil =>
      cases ok
      rfl
  | cons statuses rest ih =>
      simp only [playReports,bindOk,pureOk] at ok
      obtain ⟨middle,first,⟨tail,last⟩,more,same⟩ := ok
      cases same
      exact foldAppendOk.mpr ⟨middle,first,ih more⟩

def playsReported (script : List Move) (reports : List (List WithdrawalBundleStatus))
    (check : List (Step Forest) → State Forest → Bool) : Bool :=
  plays script (fun steps s =>
    match playReports (pendingId s) reports s with
    | .ok (more,last) => check (steps ++ more) last
    | .error _ => false)

theorem playsReportedRun {script reports check} (ok : playsReported script reports check = true) :
    ∃ steps s, run externals context steps (State.new Forest) = .ok s ∧ check steps s = true := by
  obtain ⟨steps,s,ran,checked⟩ := playsRun ok
  split at checked
  · next more last played => exact ⟨steps ++ more,last,foldAppendOk.mpr ⟨s,ran,playReportsRun played⟩,checked⟩
  · cases checked

def withdrawal : Output := ⟨addressOf alice,.withdrawal ⟨800⟩ ⟨100⟩ ⟨5⟩⟩

def withdraw : Transaction := transaction [deposited 1 (coin alice 1000)] [withdrawal,coin alice 100] .regular

def collected : List Move := funded ++ [grow [(withdraw,[alice])],grow [],grow []]

def openId : SwapId := SwapId.fromL2ToL1 externals ['x'] ⟨7⟩ (addressOf alice) none

def openCreate : SwapCreate := ⟨openId,.regtest,List.replicate 32 0,1,none,900,['x'],7⟩

def openEscrow : Output := ⟨addressOf alice,.swapPending ⟨900⟩ openId⟩

def createOpen : Transaction :=
  transaction [deposited 1 (coin alice 1000)] [openEscrow,coin alice 100] (.swapCreate openCreate)

def acceptOpen : Transaction :=
  transaction [deposited 2 (coin bob 500)] [coin bob 500] (.swapAccept openId (addressOf bob))

def namedId : SwapId := SwapId.fromL2ToL1 externals ['x'] ⟨7⟩ (addressOf alice) (some (addressOf bob))

def namedCreate : SwapCreate := ⟨namedId,.regtest,List.replicate 32 0,1,some (addressOf bob),900,['x'],7⟩

def namedEscrow : Output := ⟨addressOf alice,.swapPending ⟨900⟩ namedId⟩

def createNamed : Transaction :=
  transaction [deposited 1 (coin alice 1000)] [namedEscrow,coin alice 100] (.swapCreate namedCreate)

def claimNamed : Transaction :=
  transaction [outputOf createNamed 0 namedEscrow] [coin bob 900] (.swapClaim namedId none none)

def claimWithCoin : Transaction :=
  transaction [outputOf createNamed 0 namedEscrow,deposited 2 (coin bob 500)] [coin bob 1400]
    (.swapClaim namedId none none)

end Actors

end Coinshift.Reference
