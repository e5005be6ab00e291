import Coinshift.ConnectTotal
import Coinshift.FirstAccept
import Coinshift.MerkleRoot

/-! The plain path of a block: `validate` and `connect`, written apart from `prevalidate` and its connection.
`validate` fills every transaction first and keeps the accumulator diff as it goes; `connect` reads the coins a
transaction spends from the tables as they are when it is reached. -/
namespace Coinshift
open Checked

variable {F : Type}

section Plain

variable (lib : Externals F) (s : State F)

structure Tally where
  allInputKeys : List OutPoint
  accumulatorDiff : AccumulatorDiff
  totalFees : Amount

def tallyTransaction (accumulator : F) (t : Tally) (filled : FilledTransaction) : Except Error Tally := do
  let tx := filled.transaction
  validateBlockTransaction lib s tx filled
  let fee ← validateFilledTransaction lib filled
  let totalFees ← okOr (t.totalFees.checkedAdd fee) .amountOverflow
  let verified ← verifyProof lib accumulator tx.proof (tx.inputs.map (·.2))
  ensure (verified = true) (.utreexoProofFailed (tx.txid lib))
  pure ⟨t.allInputKeys ++ tx.inputs.map (·.1),t.accumulatorDiff.recordAll (tx.requests lib),totalFees⟩

def coinbaseDiff (merkleRoot : MerkleRoot) (coinbase : List Output) : AccumulatorDiff :=
  AccumulatorDiff.empty.recordAll (coinbaseRequests lib merkleRoot coinbase)

def Block.validate (ctxt : BatchVerificationContext) (header : Header) (body : Body) :
    Except Error (Amount × MerkleRoot) := do
  ensure (header.prevSideHash = s.tip) (.invalidHeader (.prevSideHash s.tip header.prevSideHash))
  let height := s.nextHeight
  ensure (body.authorizations.length ≤ bodySigopsLimit height) .tooManySigops
  ensure ((encodeBody lib body).length ≤ bodySizeLimit height) .bodyTooLarge
  let accumulator := s.accumulator lib
  let filledTransactions ← collect (fillTransaction s) body.transactions
  let merkleRoot ← Body.computeMerkleRoot lib body.coinbase filledTransactions
  ensure (merkleRoot = header.merkleRoot) (.invalidBody header.merkleRoot merkleRoot)
  let coinbaseValue ← okOr (Amount.checkedSum (body.coinbase.map Output.getValue)) .amountOverflow
  let tally ← filledTransactions.foldlM (tallyTransaction lib s accumulator)
    ⟨[],coinbaseDiff lib merkleRoot body.coinbase,Amount.zero⟩
  ensure tally.allInputKeys.Nodup .utxoDoubleSpent
  ensure (coinbaseValue ≤ tally.totalFees) .notEnoughFees
  checkAddresses lib body.authorizations filledTransactions
  (verifyAuthorizations lib ctxt body).mapError (fun _ => .authorization)
  let applied ← applyDiff lib accumulator tally.accumulatorDiff
  ensure (lib.getRoots applied = header.roots) .utreexoRootsMismatch
  pure (tally.totalFees,merkleRoot)

def spendFilling (txid : Txid) (acc : Ledger × List Output) (input : (OutPoint × Hash) × Nat) :
    Except Error (Ledger × List Output) := do
  let spentOutput ← okOr (acc.1.utxos.tryGet input.1.1) (.noUtxo input.1.1)
  let l ← acc.1.spend txid input
  pure (l,acc.2 ++ [spentOutput])

def connectFilling (acc : Ledger × List FilledTransaction) (tx : Transaction) :
    Except Error (Ledger × List FilledTransaction) := do
  let (l,spentUtxos) ← tx.inputs.zipIdx.foldlM (spendFilling (tx.txid lib)) (acc.1,[])
  pure ((tx.createdOutputs lib).foldl Ledger.putOutput l,acc.2 ++ [⟨tx,spentUtxos⟩])

def Block.connect (header : Header) (body : Body) : Except Error (State F) := do
  ensure (s.tip = header.prevSideHash) (.invalidHeader (.prevSideHash s.tip header.prevSideHash))
  let coins := (coinbaseOutputs header.merkleRoot body.coinbase).foldl Ledger.putOutput s.toLedger
  let (coins,filledTxs) ← body.transactions.foldlM (connectFilling lib) (coins,[])
  let merkleRoot ← Body.computeMerkleRoot lib body.coinbase filledTxs
  ensure (merkleRoot = header.merkleRoot) (.invalidBody header.merkleRoot merkleRoot)
  let accumulator ← applyDiff lib (s.accumulator lib) ((coinbaseDiff lib header.merkleRoot body.coinbase).recordAll
    (body.transactions.flatMap (Transaction.requests lib)))
  pure { s with
    toLedger := coins
    tip := some (header.hash lib)
    height := some s.nextHeight
    utreexoAccumulator := some accumulator }

end Plain

variable {lib : Externals F} {ctxt : BatchVerificationContext} {s : State F} {header : Header} {body : Body}
  {pre : PrevalidatedBlock}

section Validators

variable {accumulator : F} {txs : List Transaction} {filled : List FilledTransaction} {g g' : Gathered}
  {diff : AccumulatorDiff}

def Gathered.tally (diff : AccumulatorDiff) (g : Gathered) : Tally :=
  ⟨g.allInputKeys,diff.recordAll g.accumulatorDiffTxs,g.totalFees⟩

theorem recordAllAppend {first second : List (Bool × Hash)} :
    diff.recordAll (first ++ second) = (diff.recordAll first).recordAll second := List.foldl_append

theorem fillTransactionIs {tx : Transaction} {f : FilledTransaction} (fill : fillTransaction s tx = .ok f) :
    f.transaction = tx := (fillSource fill).transaction

theorem tallyDiff {t t' : Tally} {f : FilledTransaction} (ok : tallyTransaction lib s accumulator t f = .ok t') :
    t'.accumulatorDiff = t.accumulatorDiff.recordAll (f.transaction.requests lib) := by
  simp only [tallyTransaction,bindOk,pureOk] at ok
  obtain ⟨_,_,_,_,_,_,_,_,_,_,rfl⟩ := ok
  rfl

theorem gatherStep (diff : AccumulatorDiff) {tx : Transaction} : gatherTransaction lib s accumulator g tx = .ok g' ↔
    ∃ f, fillTransaction s tx = .ok f ∧ tallyTransaction lib s accumulator (g.tally diff) f = .ok (g'.tally diff) ∧
      g'.filledTransactions = g.filledTransactions ++ [f] ∧
      g'.accumulatorDiffTxs = g.accumulatorDiffTxs ++ tx.requests lib := by
  constructor
  · intro ok
    simp only [gatherTransaction,bindOk,pureOk,ensureOk] at ok
    obtain ⟨f,fill,verified,proof,_,isTrue,_,swap,fee,value,total,sum,rfl⟩ := ok
    have same := fillTransactionIs fill
    subst same
    refine ⟨f,fill,?_,rfl,rfl⟩
    simp only [tallyTransaction,bindOk,pureOk,ensureOk,okOrOk]
    refine ⟨(),swap,fee,value,total,okOrOk.mp sum,verified,proof,(),isTrue,?_⟩
    rw [Gathered.tally,Gathered.tally,recordAllAppend]
  · rintro ⟨f,fill,tallied,isFilled,isRequests⟩
    have same := fillTransactionIs fill
    subst same
    simp only [tallyTransaction,bindOk,pureOk,ensureOk,okOrOk] at tallied
    obtain ⟨_,swap,fee,value,total,sum,verified,proof,_,isTrue,same⟩ := tallied
    simp only [gatherTransaction,bindOk,pureOk,ensureOk,okOrOk]
    refine ⟨f,fill,verified,proof,(),isTrue,(),swap,fee,value,total,sum,?_⟩
    simp only [Gathered.tally,Tally.mk.injEq] at same
    obtain ⟨keys,_,fees⟩ := same
    cases g'
    simp_all

/- By induction on the transactions: the two loops go together. -/
theorem gatherTallies (diff : AccumulatorDiff) (ok : txs.foldlM (gatherTransaction lib s accumulator) g = .ok g') : ∃ filled,
    collect (fillTransaction s) txs = .ok filled ∧
    filled.foldlM (tallyTransaction lib s accumulator) (g.tally diff) = .ok (g'.tally diff) ∧
    g'.filledTransactions = g.filledTransactions ++ filled := by
  induction txs generalizing g with
  | nil =>
      cases foldNilOk.mp ok
      exact ⟨[],rfl,rfl,(List.append_nil _).symm⟩
  | cons tx txs ih =>
      obtain ⟨middle,first,rest⟩ := foldConsOk.mp ok
      obtain ⟨f,fill,tallied,isFilled,_⟩ := (gatherStep diff).mp first
      obtain ⟨filled,fills,tallies,all⟩ := ih rest
      refine ⟨f :: filled,?_,foldConsOk.mpr ⟨_,tallied,tallies⟩,?_⟩
      · rw [collect,fill,okBind,fills]
        rfl
      · rw [all,isFilled,List.append_assoc,List.singleton_append]

theorem talliesGather {t : Tally} (fills : collect (fillTransaction s) txs = .ok filled)
    (tallies : filled.foldlM (tallyTransaction lib s accumulator) (g.tally diff) = .ok t) : ∃ g',
    txs.foldlM (gatherTransaction lib s accumulator) g = .ok g' ∧ t = g'.tally diff ∧
    g'.filledTransactions = g.filledTransactions ++ filled := by
  induction txs generalizing g filled with
  | nil =>
      cases fills
      cases foldNilOk.mp tallies
      exact ⟨g,rfl,rfl,(List.append_nil _).symm⟩
  | cons tx txs ih =>
      simp only [collect,bindOk,pureOk] at fills
      obtain ⟨f,fill,filled,fills,rfl⟩ := fills
      obtain ⟨middle,tallied,rest⟩ := foldConsOk.mp tallies
      have isDiff : middle.accumulatorDiff = diff.recordAll (g.accumulatorDiffTxs ++ tx.requests lib) := by
        rw [tallyDiff tallied,fillTransactionIs fill,recordAllAppend]
        rfl
      have next : middle = Gathered.tally diff ⟨middle.allInputKeys,g.accumulatorDiffTxs ++ tx.requests lib,
          g.filledTransactions ++ [f],middle.totalFees⟩ := by
        rw [Gathered.tally,← isDiff]
      rw [next] at tallied rest
      have first := (gatherStep diff).mpr ⟨f,fill,tallied,rfl,rfl⟩
      obtain ⟨g',gathered,same,all⟩ := ih fills rest
      exact ⟨g',foldConsOk.mpr ⟨_,first,gathered⟩,same,by rw [all,List.append_assoc,List.singleton_append]⟩

theorem validatorsAgree (s : State F) (header : Header) (body : Body) (fees : Amount) (root : MerkleRoot) :
    Block.validate lib s ctxt header body = .ok (fees,root) ↔
      ∃ pre, prevalidate lib s ctxt header body = .ok pre ∧ pre.totalFees = fees ∧ pre.computedMerkleRoot = root := by
  constructor
  · intro ok
    simp only [Block.validate,bindOk,pureOk,ensureOk,okOrOk,mapErrorOk,Prod.mk.injEq] at ok
    obtain ⟨_,parent,_,sigops,_,size,filled,fills,computed,rooted,_,isRoot,value,sum,tally,tallies,_,distinct,_,enough,
      _,addresses,_,authorized,applied,apply,_,roots,rfl,rfl⟩ := ok
    obtain ⟨g,gathered,rfl,same⟩ := talliesGather (g := Gathered.empty) fills tallies
    obtain rfl : g.filledTransactions = filled := same
    refine ⟨⟨g.filledTransactions,computed,g.totalFees,value,s.nextHeight,
      (coinbaseDiff lib computed body.coinbase).recordAll g.accumulatorDiffTxs⟩,?_,rfl,rfl⟩
    simp only [prevalidate,bindOk,pureOk,ensureOk,okOrOk,mapErrorOk]
    exact ⟨(),parent,(),sigops,(),size,g,gathered,_,rooted,(),isRoot,(),distinct,value,sum,(),enough,(),addresses,
      (),authorized,applied,apply,(),roots,rfl⟩
  · rintro ⟨pre,ok,rfl,rfl⟩
    simp only [prevalidate,bindOk,pureOk,ensureOk,okOrOk,mapErrorOk] at ok
    obtain ⟨_,parent,_,sigops,_,size,g,gathered,root,rooted,_,isRoot,_,distinct,value,sum,_,enough,_,addresses,_,
      authorized,applied,apply,_,roots,rfl⟩ := ok
    obtain ⟨filled,fills,tallies,same⟩ := gatherTallies (coinbaseDiff lib root body.coinbase) gathered
    obtain rfl : g.filledTransactions = filled := same
    simp only [Block.validate,bindOk,pureOk,ensureOk,okOrOk,mapErrorOk]
    exact ⟨(),parent,(),sigops,(),size,_,fills,root,rooted,(),isRoot,value,sum,_,tallies,(),distinct,(),enough,
      (),addresses,(),authorized,applied,apply,(),roots,rfl⟩

end Validators

section Connectors

structure SameTables (t u : State F) : Prop where
  utxos : t.utxos = u.utxos
  stxos : t.stxos = u.stxos
  tip : t.tip = u.tip
  height : t.height = u.height
  accumulator : t.utreexoAccumulator = u.utreexoAccumulator
  swaps : t.getSwap = u.getSwap
  locks : t.isOutputLockedToSwap = u.isOutputLockedToSwap
  reservations : t.getSwapReservation = u.getSwapReservation

/- Two connections of a block: both reject it, or they leave the same tables. -/
def LeaveSame : Except Error (State F) → Except Error (State F) → Prop
  | .ok t, .ok u => SameTables t u
  | .error _, .error _ => True
  | _, _ => False

section Refill

def Ledger.filling (l : Ledger) (tx : Transaction) : FilledTransaction :=
  ⟨tx,tx.inputs.filterMap (fun input => l.utxos.tryGet input.1)⟩

variable (lib : Externals F)

/- The transactions with the coins they find: those of the ledger, and in their place what earlier ones have made. -/
def refill : Ledger → List Transaction → List FilledTransaction
  | _, [] => []
  | l, tx :: txs => l.filling tx :: refill ((tx.createdOutputs lib).foldl Ledger.putOutput l) txs

def refilled (s : State F) (header : Header) (body : Body) : List FilledTransaction :=
  refill lib ((coinbaseOutputs header.merkleRoot body.coinbase).foldl Ledger.putOutput s.toLedger) body.transactions

/- Each transaction pays the fee that it pays with the coins of the state, also where the block has put others there. -/
def SameFees (s : State F) (header : Header) (body : Body) : Prop :=
  (refilled lib s header body).map FilledTransaction.getFee =
    (body.transactions.map s.toLedger.filling).map FilledTransaction.getFee

end Refill

variable {l m : Ledger}

theorem putOutputsCongr {ps : List PointedOutput} {o : OutPoint} (same : l.utxos.tryGet o = m.utxos.tryGet o) :
    (ps.foldl Ledger.putOutput l).utxos.tryGet o = (ps.foldl Ledger.putOutput m).utxos.tryGet o := by
  induction ps generalizing l m with
  | nil => exact same
  | cons p ps ih =>
      refine ih ?_
      simp only [Ledger.putOutput,Table.tryGetPut,same]

theorem putOutputsPresent {ps : List PointedOutput} {o : OutPoint} (present : (l.utxos.tryGet o).isSome = true) :
    ((ps.foldl Ledger.putOutput l).utxos.tryGet o).isSome = true := by
  induction ps generalizing l with
  | nil => exact present
  | cons p ps ih =>
      refine ih ?_
      simp only [Ledger.putOutput,Table.tryGetPut]
      split
      · rfl
      · exact present

theorem fillingIs {inputs : List (OutPoint × Hash)} (present : ∀ input ∈ inputs, (l.utxos.tryGet input.1).isSome = true) :
    List.Forall₂ (fun input utxo => l.utxos.tryGet input.1 = some utxo) inputs
      (inputs.filterMap (fun input => l.utxos.tryGet input.1)) := by
  induction inputs with
  | nil => exact .nil
  | cons input inputs ih =>
      obtain ⟨utxo,found⟩ := Option.isSome_iff_exists.mp (present input List.mem_cons_self)
      rw [List.filterMap_cons_some (f := fun input : OutPoint × Hash => l.utxos.tryGet input.1) found]
      exact .cons found (ih (fun other mem => present other (List.mem_cons_of_mem _ mem)))

theorem fillingFound {inputs : List (OutPoint × Hash)} {spent : List Output}
    (found : List.Forall₂ (fun input utxo => l.utxos.tryGet input.1 = some utxo) inputs spent) :
    inputs.filterMap (fun input => l.utxos.tryGet input.1) = spent := by
  induction found with
  | nil => rfl
  | cons first _ ih => rw [List.filterMap_cons_some (f := fun input : OutPoint × Hash => l.utxos.tryGet input.1) first,ih]

theorem filledFilling {txs : List Transaction} {filled : List FilledTransaction}
    (sources : List.Forall₂ (TransactionSource lib s) txs filled) : txs.map s.toLedger.filling = filled := by
  induction sources with
  | nil => rfl
  | @cons tx f txs filled source rest ih =>
      have coins := fillingFound (l := s.toLedger) source.fill.spent
      rw [List.map_cons,ih,Ledger.filling,coins,← source.fill.transaction]

theorem refillTransactions {txs : List Transaction} : (refill lib l txs).map (·.transaction) = txs := by
  induction txs generalizing l with
  | nil => rfl
  | cons tx txs ih => rw [refill,List.map_cons,ih]; rfl

theorem spendsFilling {txid : Txid} {inputs : List (OutPoint × Hash)} {spent : List Output} (kept : List Output) {n : Nat}
    (found : List.Forall₂ (fun input utxo => m.utxos.tryGet input.1 = some utxo) inputs spent)
    (distinct : (inputs.map (·.1)).Nodup) (same : ∀ o ∈ inputs.map (·.1), l.utxos.tryGet o = m.utxos.tryGet o) : ∃ l',
    (inputs.zipIdx n).foldlM (spendFilling txid) (l,kept) = .ok (l',kept ++ spent) ∧
    (inputs.zipIdx n).foldlM (Ledger.spend txid) l = .ok l' ∧
    ∀ o, o ∉ inputs.map (·.1) → l'.utxos.tryGet o = l.utxos.tryGet o := by
  induction found generalizing l kept n with
  | nil => exact ⟨l,by rw [List.append_nil]; rfl,rfl,fun _ _ => rfl⟩
  | @cons input utxo inputs spent first rest ih =>
      rw [List.map_cons,List.nodup_cons] at distinct
      obtain ⟨apart,distinct⟩ := distinct
      have isHere : l.utxos.tryGet input.1 = some utxo := (same _ List.mem_cons_self).trans first
      let next : Ledger := ⟨l.utxos.delete input.1,l.stxos.put input.1 ⟨utxo,.regular txid (UInt32.ofNat n)⟩⟩
      have spends : l.spend txid (input,n) = .ok next := by
        rw [Ledger.spend,isHere]
        rfl
      have fills : spendFilling txid (l,kept) (input,n) = .ok (next,kept ++ [utxo]) := by
        rw [spendFilling,isHere]
        simp only [okOr,okBind,spends]
        rfl
      have elsewhere {o : OutPoint} (other : o ≠ input.1) : next.utxos.tryGet o = l.utxos.tryGet o :=
        Table.tryGetDeleteOther other
      have sameNext : ∀ o ∈ inputs.map (·.1), next.utxos.tryGet o = m.utxos.tryGet o := by
        intro o mem
        rw [elsewhere (fun here => apart (here ▸ mem))]
        exact same o (List.mem_cons_of_mem _ mem)
      obtain ⟨l',filled,spent,kept'⟩ := ih (kept ++ [utxo]) (n := n + 1) distinct sameNext
      refine ⟨l',foldConsOk.mpr ⟨_,fills,?_⟩,foldConsOk.mpr ⟨_,spends,spent⟩,fun o absent => ?_⟩
      · rw [filled,List.append_assoc,List.singleton_append]
      · rw [List.map_cons,List.mem_cons,not_or] at absent
        rw [kept' o absent.2,elsewhere absent.1]

/- By induction on the transactions: what is not spent yet is as in the ledger to which the outputs are only added. -/
theorem connectsFilling {txs : List Transaction} (kept : List FilledTransaction)
    (distinct : (txs.flatMap (fun tx => tx.inputs.map (·.1))).Nodup)
    (present : ∀ o ∈ txs.flatMap (fun tx => tx.inputs.map (·.1)), (m.utxos.tryGet o).isSome = true)
    (same : ∀ o ∈ txs.flatMap (fun tx => tx.inputs.map (·.1)), l.utxos.tryGet o = m.utxos.tryGet o) : ∃ l',
    txs.foldlM (connectFilling lib) (l,kept) = .ok (l',kept ++ refill lib m txs) ∧
      txs.foldlM (connectLedger lib) l = .ok l' := by
  induction txs generalizing l m kept with
  | nil => exact ⟨l,by rw [refill,List.append_nil]; rfl,rfl⟩
  | cons tx txs ih =>
      rw [List.flatMap_cons] at distinct present same
      obtain ⟨own,others,disjoint⟩ := List.nodup_append.mp distinct
      have stored (input : OutPoint × Hash) (mem : input ∈ tx.inputs) : (m.utxos.tryGet input.1).isSome = true :=
        present input.1 (List.mem_append_left _ (List.mem_map_of_mem mem))
      have found := fillingIs stored
      obtain ⟨middle,fills,spends,untouched⟩ := @spendsFilling l m (tx.txid lib) _ _ [] 0
        found own (fun o mem => same o (List.mem_append_left _ mem))
      let next := (tx.createdOutputs lib).foldl Ledger.putOutput middle
      have step : connectFilling lib (l,kept) tx = .ok (next,kept ++ [m.filling tx]) := by
        rw [connectFilling,fills]
        rfl
      have ledger : connectLedger lib l tx = .ok next := by
        rw [connectLedger,spends]
        rfl
      obtain ⟨l',last,all⟩ := ih (l := next) (kept ++ [m.filling tx]) others
        (fun o mem => putOutputsPresent (present o (List.mem_append_right _ mem))) (by
          intro o mem
          refine putOutputsCongr ?_
          rw [untouched o (fun here => disjoint o here o mem rfl)]
          exact same o (List.mem_append_right _ mem))
      refine ⟨l',foldConsOk.mpr ⟨_,step,?_⟩,foldConsOk.mpr ⟨_,ledger,all⟩⟩
      rw [last,refill,List.append_assoc,List.singleton_append]

structure PlainSource (lib : Externals F) (s : State F) (header : Header) (body : Body) (coins : Ledger) (applied : F) :
    Prop where
  connected : connectCoins lib header body s.toLedger = .ok coins
  accumulator : applyDiff lib (s.accumulator lib) (connectDiff lib header body) = .ok applied
  connects : ∀ t, Block.connect lib s header body = .ok t ↔
    Body.computeMerkleRoot lib body.coinbase (refilled lib s header body) = .ok header.merkleRoot ∧
      t = { s with
        toLedger := coins,tip := some (header.hash lib),height := some s.nextHeight
        utreexoAccumulator := some applied }

theorem plainSource (ok : prevalidate lib s ctxt header body = .ok pre) :
    ∃ coins applied, PlainSource lib s header body coins applied := by
  have source := prevalidateSource ok
  obtain ⟨applied,apply,_⟩ := source.accumulator
  let minted := (coinbaseOutputs header.merkleRoot body.coinbase).foldl Ledger.putOutput s.toLedger
  have present (o : OutPoint) (mem : o ∈ body.transactions.flatMap (fun tx => tx.inputs.map (·.1))) :
      (minted.utxos.tryGet o).isSome = true := putOutputsPresent (inputsPresent source.transactions mem)
  obtain ⟨coins,fills,connects⟩ := @connectsFilling _ lib minted minted _ [] source.distinct present (fun _ _ => rfl)
  refine ⟨coins,applied,connects,apply,fun t => ?_⟩
  simp only [Block.connect,bindOk,ensureOk,pureOk]
  constructor
  · rintro ⟨_,_,filled,isFilled,root,rooted,_,rfl,applied',apply',rfl⟩
    cases fills.symm.trans isFilled
    cases apply.symm.trans apply'
    exact ⟨rooted,rfl⟩
  · rintro ⟨rooted,rfl⟩
    exact ⟨(),source.parent.symm,_,fills,_,rooted,(),rfl,applied,apply,rfl⟩

theorem refilledRootIff (complete : CompleteRoots lib) (ok : prevalidate lib s ctxt header body = .ok pre)
    (clean : Collisionless lib (hashedStrings lib body.coinbase pre.filledTransactions ++
      hashedStrings lib body.coinbase (refilled lib s header body))) :
    Body.computeMerkleRoot lib body.coinbase (refilled lib s header body) = .ok header.merkleRoot ↔
      SameFees lib s header body := by
  have source := prevalidateSource ok
  have rooted := acceptedRoot ok
  have filled := filledFilling source.transactions
  have transactions : (refilled lib s header body).map (·.transaction) = pre.filledTransactions.map (·.transaction) :=
    refillTransactions.trans (filledTransactions source.transactions).symm
  rw [SameFees,filled]
  constructor
  · intro rootedToo
    exact rootFixesFees complete rootedToo rooted (fun x mem => List.mem_append_right _ mem)
      (fun x mem => List.mem_append_left _ mem) clean (by simpa using congrArg List.length transactions)
  · intro fees
    rw [rootOfFees fees transactions]
    exact rooted

/- A block that leaves the swap tables as they are: it creates and claims none, and what it accepts is so reserved. -/
structure LeavesSwaps (s : State F) (body : Body) : Prop where
  creates : ∀ tx ∈ body.transactions, ∀ create, tx.data ≠ .swapCreate create
  claims : ∀ tx ∈ body.transactions, ∀ swapId declared proof, tx.data ≠ .swapClaim swapId declared proof
  accepts : ∀ swapId claimer, (acceptsOf swapId body.transactions).getLast? = some claimer →
    s.getSwapReservation swapId = some ⟨claimer,s.nextHeight⟩

theorem foldlKept {α σ : Type} {f : σ → α → σ} {xs : List α} {s : σ} (kept : ∀ x ∈ xs, ∀ s, f s x = s) :
    xs.foldl f s = s := by
  induction xs generalizing s with
  | nil => rfl
  | cons x xs ih => rw [List.foldl_cons,kept x List.mem_cons_self,ih (fun y mem => kept y (List.mem_cons_of_mem x mem))]

theorem LeavesSwaps.connects (leaves : LeavesSwaps s body) (source : PrevalidateSource lib ctxt s header body pre) :
    ∃ w, connectSwaps lib pre s.toSwapTables = .ok w ∧ w.getSwap = s.getSwap ∧
      w.isOutputLockedToSwap = s.isOutputLockedToSwap ∧ w.getSwapReservation = s.getSwapReservation := by
  have isTx {f : FilledTransaction} (mem : f ∈ pre.filledTransactions) : f.transaction ∈ body.transactions :=
    (filledSource source.transactions mem).1
  obtain ⟨w,connected⟩ : ∃ w, connectSwaps lib pre s.toSwapTables = .ok w := by
    refine foldTotal (fun w f mem => connectSwapOk.mpr ⟨?_,?_⟩)
    · intro swapId claimer proof kind
      exact absurd kind (leaves.claims _ (isTx mem) _ _ _)
    · intro create kind
      exact absurd kind (leaves.creates _ (isTx mem) _)
  obtain ⟨locks,reservations,records,_⟩ := connectSwapsEffect connected
  refine ⟨w,connected,?_,?_,?_⟩
  · rw [records]
    refine foldlKept (fun f mem r => ?_)
    funext swapId
    unfold recordsAfter
    cases kind : f.transaction.data with
    | swapCreate create => exact absurd kind (leaves.creates _ (isTx mem) _)
    | swapClaim claimed claimer proof => exact absurd kind (leaves.claims _ (isTx mem) _ _ _)
    | _ => rfl
  · rw [locks,filledTransactions source.transactions]
    refine foldlKept (fun tx mem r => ?_)
    funext o
    unfold locksAfter
    cases kind : tx.data with
    | swapCreate create => exact absurd kind (leaves.creates tx mem _)
    | swapClaim claimed claimer proof => exact absurd kind (leaves.claims tx mem _ _ _)
    | _ => rfl
  · rw [reservations,filledTransactions source.transactions,source.nextHeight]
    funext swapId
    rw [reservationsAfterAccepts]
    cases last : (acceptsOf swapId body.transactions).getLast? with
    | none => rfl
    | some claimer => exact (leaves.accepts swapId claimer last).symm

theorem connectSwapsCreated {w w' : SwapTables} (ok : connectSwaps lib pre w = .ok w') {f : FilledTransaction}
    (mem : f ∈ pre.filledTransactions) {create : SwapCreate} (kind : f.transaction.data = .swapCreate create) :
    (w'.getSwap create.swapId).isSome = true := by
  refine foldEstablished (P := fun w => (w.getSwap create.swapId).isSome = true) mem ?_ ?_ ok
  · intro u v connected
    rw [(connectSwapEffect connected).2.2.1,recordsAfter,kind]
    simp only [if_true,Option.isSome_some]
  · intro u g v recorded connected
    rw [(connectSwapEffect connected).2.2.1,recordsAfter]
    cases g.transaction.data with
    | swapCreate made =>
        dsimp only
        split
        · rfl
        · exact recorded
    | swapClaim claimed claimer proof =>
        dsimp only
        split
        · rw [Option.isSome_map]
          exact recorded
        · exact recorded
    | _ => exact recorded

/- What a claim spends is not locked to its swap any more: only a creation locks, and none is of a recorded swap. -/
theorem connectSwapsClaimed (source : PrevalidateSource lib ctxt s header body pre) {w : SwapTables}
    (ok : connectSwaps lib pre s.toSwapTables = .ok w) {f : FilledTransaction} (mem : f ∈ pre.filledTransactions)
    {swapId : SwapId} {declared : Option Address} {proof : Option (List Byte)}
    (kind : f.transaction.data = .swapClaim swapId declared proof) {swap : Swap} (recorded : s.getSwap swapId = some swap)
    {o : OutPoint} (spent : o ∈ f.transaction.inputs.map (·.1)) : w.isOutputLockedToSwap o ≠ some swapId := by
  have others {g : FilledTransaction} (isBlock : g ∈ pre.filledTransactions) {create : SwapCreate}
      (creates : g.transaction.data = .swapCreate create) : create.swapId ≠ swapId := by
    intro same
    have absent := source.unrecorded (filledSource source.transactions isBlock).1 creates
    rw [same,recorded] at absent
    cases absent
  obtain ⟨before,after,split⟩ := List.append_of_mem mem
  unfold connectSwaps at ok
  rw [split] at ok
  obtain ⟨u,_,rest⟩ := foldAppendOk.mp ok
  obtain ⟨v,claimed,more⟩ := foldConsOk.mp rest
  refine foldInvariant (P := fun w => w.isOutputLockedToSwap o ≠ some swapId) ?_ ?_ more
  · intro u g v isAfter unlocked connected
    rw [(connectSwapEffect connected).1,locksAfter]
    cases creates : g.transaction.data with
    | swapCreate create =>
        dsimp only
        split
        · intro locked
          refine others ?_ creates (Option.some.inj locked)
          rw [split]
          exact List.mem_append_right before (List.mem_cons_of_mem f isAfter)
        · exact unlocked
    | swapClaim claimed claimer proof =>
        dsimp only
        split
        · simp
        · exact unlocked
    | _ => exact unlocked
  · rw [(connectSwapEffect claimed).1,locksAfter,kind]
    dsimp only
    split
    · simp
    · next here => exact fun locked => here ⟨spent,locked⟩

theorem sameTablesIff {coins : Ledger} {applied : F} (source : PrevalidateSource lib ctxt s header body pre)
    (plain : PlainSource lib s header body coins applied) {t : State F} (connected : Block.connect lib s header body = .ok t) :
    (∃ u, connectPrevalidated lib s header body pre = .ok u ∧ SameTables t u) ↔ LeavesSwaps s body := by
  obtain ⟨_,rfl⟩ := (plain.connects t).mp connected
  have isFilled {tx : Transaction} (mem : tx ∈ body.transactions) :
      ∃ f ∈ pre.filledTransactions, f.transaction = tx := by
    obtain ⟨f,inside,txSource⟩ := relatedLeft source.transactions mem
    exact ⟨f,inside,txSource.fill.transaction⟩
  constructor
  · rintro ⟨u,result,tables⟩
    have swaps := (connectSource source result).swaps
    refine ⟨?_,?_,?_⟩
    · intro tx mem create kind
      obtain ⟨f,inside,rfl⟩ := isFilled mem
      have recorded := connectSwapsCreated swaps inside kind
      have absent := (congrFun tables.swaps create.swapId).symm.trans (source.unrecorded mem kind)
      rw [absent] at recorded
      cases recorded
    · intro tx mem swapId declared proof kind
      obtain ⟨f,inside,rfl⟩ := isFilled mem
      obtain ⟨swap,_,_,claim⟩ := source.claim mem kind
      obtain ⟨input,isInput,locked⟩ := claim.escrow
      refine connectSwapsClaimed source swaps inside kind claim.recorded (List.mem_map_of_mem isInput) ?_
      exact (congrFun tables.locks input.1).symm.trans locked
    · intro swapId claimer last
      have reserved := congrFun (connectSwapsEffect swaps).2.1 swapId
      rw [filledTransactions source.transactions,reservationsAfterAccepts,last,source.nextHeight] at reserved
      exact (congrFun tables.reservations swapId).trans reserved
  · intro leaves
    obtain ⟨w,swaps,records,locks,reservations⟩ := leaves.connects source
    obtain ⟨u,connected⟩ := (connectTotal source).mpr ⟨⟨coins,plain.connected⟩,w,swaps⟩
    have result := connectSource source connected
    obtain ⟨applied',apply',isApplied⟩ := result.accumulator
    cases plain.accumulator.symm.trans apply'
    cases swaps.symm.trans result.swaps
    have sameCoins : coins = u.toLedger := Except.ok.inj (plain.connected.symm.trans result.coins)
    exact ⟨u,connected,by rw [sameCoins],by rw [sameCoins],result.tip.symm,result.height.symm,isApplied.symm,records.symm,
      locks.symm,reservations.symm⟩

/- The condition on the fees decides whether the plain connection accepts. Where it does not, they agree if the
other one rejects too. -/
theorem connectorsAgreeIff (complete : CompleteRoots lib) (ok : prevalidate lib s ctxt header body = .ok pre)
    (clean : Collisionless lib (hashedStrings lib body.coinbase pre.filledTransactions ++
      hashedStrings lib body.coinbase (refilled lib s header body))) :
    LeaveSame (Block.connect lib s header body) (connectPrevalidated lib s header body pre) ↔
      SameFees lib s header body ∧ LeavesSwaps s body ∨
        ¬ SameFees lib s header body ∧ ¬ (OpenClaimsDeclare s body ∧ CreatesFit body) := by
  have source := prevalidateSource ok
  obtain ⟨coins,applied,plain⟩ := plainSource ok
  have fees := refilledRootIff complete ok clean
  by_cases same : SameFees lib s header body
  · have connected := (plain.connects _).mpr ⟨fees.mpr same,rfl⟩
    simp only [same,true_and,not_true,false_and,or_false]
    rw [← sameTablesIff source plain connected,connected]
    cases connectPrevalidated lib s header body pre with
    | error e => simp [LeaveSame]
    | ok u => simp [LeaveSame]
  · have refused : ∃ e, Block.connect lib s header body = .error e := by
      cases connected : Block.connect lib s header body with
      | error e => exact ⟨e,rfl⟩
      | ok t => exact absurd (fees.mp ((plain.connects t).mp connected).1) same
    obtain ⟨e,refused⟩ := refused
    have connects : (∃ u, connectPrevalidated lib s header body pre = .ok u) ↔ OpenClaimsDeclare s body ∧ CreatesFit body := by
      rw [connectTotal source,swapsConnectIff source]
      exact and_iff_right (coinsConnect source)
    simp only [same,false_and,not_false_eq_true,true_and,false_or]
    rw [← connects,refused]
    cases connectPrevalidated lib s header body pre with
    | error e => simp [LeaveSame]
    | ok u => simp [LeaveSame]

end Connectors

section Reached
open Reference

instance decidableSameFees {lib : Externals F} {s : State F} {header : Header} {body : Body} :
    Decidable (SameFees lib s header body) := inferInstanceAs (Decidable (_ = _))

def payBob : Transaction := transaction [deposited 1 (coin alice 1000)] [coin bob 900] .regular

def payBlock : Body := Reference.body [(payBob,[alice])] []

def paysSame (block : Body) (s : State Forest) : Bool :=
  match prevalidate externals s context (mine s block) block with
  | .ok pre => decide (SameFees externals s (mine s block) block) &&
      collisionless (hashedStrings externals block.coinbase pre.filledTransactions ++
        hashedStrings externals block.coinbase (refilled externals s (mine s block) block))
  | .error _ => false

theorem connectorsAgreeOnPayment : ∃ s pre, Reachable externals context s ∧
    prevalidate externals s context (mine s payBlock) payBlock = .ok pre ∧
    LeaveSame (Block.connect externals s (mine s payBlock) payBlock)
      (connectPrevalidated externals s (mine s payBlock) payBlock pre) := by
  have played : reaches funded (paysSame payBlock) = true := by decide +kernel
  obtain ⟨s,reachable,checked⟩ := reachesReachable played
  unfold paysSame at checked
  split at checked
  · next pre ok =>
      obtain ⟨fees,clean⟩ := Bool.and_eq_true_iff.mp checked
      have regular (tx : Transaction) (mem : tx ∈ payBlock.transactions) : tx.data = .regular := by
        obtain rfl : tx = payBob := List.mem_singleton.mp mem
        rfl
      have leaves : LeavesSwaps s payBlock := by
        constructor
        · intro tx mem create kind
          cases (regular tx mem).symm.trans kind
        · intro tx mem swapId declared proof kind
          cases (regular tx mem).symm.trans kind
        · intro swapId claimer last
          cases last
      exact ⟨s,pre,reachable,ok,(connectorsAgreeIff referenceComplete ok (collisionlessSound clean)).mpr
        (.inl ⟨of_decide_eq_true fees,leaves⟩)⟩
  · cases checked

def recordsApart (block : Body) (swapId : SwapId) (s : State Forest) : Bool :=
  let header := mine s block
  match prevalidate externals s context header block with
  | .ok pre =>
      match Block.connect externals s header block,connectPrevalidated externals s header block pre with
      | .ok t,.ok u => (t.getSwap swapId).isNone && (u.getSwap swapId).isSome
      | _,_ => false
  | .error _ => false

theorem connectorsDiffer : ∃ s header body pre, Reachable externals context s ∧
    prevalidate externals s context header body = .ok pre ∧
    ¬ LeaveSame (Block.connect externals s header body) (connectPrevalidated externals s header body pre) := by
  have played : reaches funded (recordsApart (Reference.body [(createOpen,[alice])] []) openId) = true := by
    decide +kernel
  obtain ⟨s,reachable,apart⟩ := reachesReachable played
  simp only [recordsApart] at apart
  split at apart
  · next pre accepted =>
      split at apart
      · next t u plain connected =>
          refine ⟨s,_,_,pre,reachable,accepted,fun same => ?_⟩
          rw [plain,connected] at same
          obtain ⟨absent,recorded⟩ := Bool.and_eq_true_iff.mp apart
          rw [congrFun (SameTables.swaps same) openId,Option.isNone_iff_eq_none] at absent
          rw [absent] at recorded
          cases recorded
      · cases apart
  · cases apart

end Reached

end Coinshift
