import Coinshift.CanonicalEncoding
import Coinshift.CompleteTree
import Coinshift.CreatedOnce
import Coinshift.Reference

/-! What the merkle root of a block binds.
The transactions are the leaves of a complete binary tree whose size the root does not tell. Unless strings that were hashed
collide, the root determines the coinbase and every transaction, as they are on the wire. -/
namespace Coinshift
open Checked

variable {F : Type} {lib : Externals F}

section Strings

/- The root that is built is that of the complete binary tree; without leaves it is the default node. -/
def CompleteRoots (lib : Externals F) : Prop :=
  ∀ merge leaves, lib.buildMerkleRoot merge leaves =
    if leaves.isEmpty then some ⟨0,Amount.zero,0,0⟩ else CompleteTree.root merge leaves

variable (lib)

def leafBytes (fees : Amount) (tx : Transaction) : List Byte :=
  encodeAmount fees ++ bytesLE 8 (tx.canonicalSize lib) ++ encodeTransaction lib tx

def nodeBytes (fees : Amount) (lnode rnode : CbmtNode) : List Byte :=
  hashBytes lnode.commitment ++ encodeAmount fees ++ bytesLE 8 (lnode.canonicalSize + rnode.canonicalSize) ++
    hashBytes rnode.commitment

def merkleLeaves (txs : List FilledTransaction) : Except Error (List CbmtNode) :=
  collect (fun tx => merkleLeaf lib txs.length tx.2 tx.1) txs.zipIdx

def leafStrings (txs : List FilledTransaction) : List (List Byte) :=
  txs.filterMap (fun f => f.getFee.toOption.map (fun fees => leafBytes lib fees f.transaction))

def innerString (all : List CbmtNode) (i : Nat) : Option (List Byte) := do
  let lnode ← all[2 * i + 1]?
  let rnode ← all[2 * i + 2]?
  let fees ← lnode.fees.checkedAdd rnode.fees
  some (nodeBytes fees lnode rnode)

def coinbaseString (coinbase : List Output) : List Byte := encodeSeq (encodeOutput lib) coinbase

def topString (coinbase : List Output) (txsRoot : CbmtNode) : List Byte :=
  hashBytes (lib.blake3 (coinbaseString lib coinbase)) ++ hashBytes txsRoot.commitment

def hashedStrings (coinbase : List Output) (txs : List FilledTransaction) : List (List Byte) :=
  match merkleLeaves lib txs with
  | .error _ => []
  | .ok leaves =>
      coinbaseString lib coinbase :: (leafStrings lib txs ++
        (CompleteTree.places (mergeFeeSizeTotal lib) leaves).toList.flatMap (fun all =>
          (List.range all.length).filterMap (innerString all)) ++
        (lib.buildMerkleRoot (mergeFeeSizeTotal lib) leaves).toList.map (topString lib coinbase))

/- Of these strings no two have one hash, and none has the zero hash. -/
structure Collisionless (strings : List (List Byte)) : Prop where
  apart : ∀ x ∈ strings, ∀ y ∈ strings, lib.blake3 x = lib.blake3 y → x = y
  nonZero : ∀ x ∈ strings, lib.blake3 x ≠ 0

end Strings

section Source

variable {coinbase : List Output} {txs : List FilledTransaction} {root : MerkleRoot}

theorem leafSource {n idx : Nat} {f : FilledTransaction} {leaf : CbmtNode} (ok : merkleLeaf lib n idx f = .ok leaf) :
    ∃ fees, f.getFee = .ok fees ∧ leaf.commitment = lib.blake3 (leafBytes lib fees f.transaction) := by
  simp only [merkleLeaf,bindOk,mapErrorOk,pureOk] at ok
  obtain ⟨fees,isFee,rfl⟩ := ok
  exact ⟨fees,isFee,rfl⟩

theorem mergeSource {lnode rnode parent : CbmtNode} (ok : mergeFeeSizeTotal lib lnode rnode = some parent) :
    ∃ fees, lnode.fees.checkedAdd rnode.fees = some fees ∧ parent.commitment = lib.blake3 (nodeBytes fees lnode rnode) := by
  simp only [mergeFeeSizeTotal,Option.bind_eq_bind,Option.bind_eq_some_iff] at ok
  obtain ⟨fees,added,_,_,same⟩ := ok
  cases same
  exact ⟨fees,added,rfl⟩

structure RootSource (lib : Externals F) (coinbase : List Output) (txs : List FilledTransaction) (root : MerkleRoot)
    (leaves : List CbmtNode) (top : CbmtNode) : Prop where
  collected : merkleLeaves lib txs = .ok leaves
  built : lib.buildMerkleRoot (mergeFeeSizeTotal lib) leaves = some top
  hashed : root = lib.blake3 (topString lib coinbase top)

theorem rootSource (ok : Body.computeMerkleRoot lib coinbase txs = .ok root) :
    ∃ leaves top, RootSource lib coinbase txs root leaves top := by
  simp only [Body.computeMerkleRoot,bindOk,okOrOk,pureOk] at ok
  obtain ⟨leaves,isLeaves,top,isTop,same⟩ := ok
  exact ⟨leaves,top,isLeaves,isTop,same.symm⟩

theorem leavesSource {leaves : List CbmtNode} (ok : merkleLeaves lib txs = .ok leaves) :
    List.Forall₂ (fun f (leaf : CbmtNode) => ∃ fees, f.getFee = .ok fees ∧
      leaf.commitment = lib.blake3 (leafBytes lib fees f.transaction)) txs leaves := by
  have each := collectOk.mp ok
  have zipped : txs = txs.zipIdx.map Prod.fst := (List.zipIdx_map_fst 0 txs).symm
  rw [zipped,List.forall₂_map_left_iff]
  exact each.imp (fun _ _ isLeaf => leafSource isLeaf)

end Source

section Binding

variable {coinbase coinbase' : List Output} {txs txs' : List FilledTransaction} {root : MerkleRoot} {strings : List (List Byte)}
  {leaves leaves' all all' : List CbmtNode} {top top' : CbmtNode}

theorem nodeBytesSplit {fees fees' : Amount} {l r l' r' : CbmtNode} (same : nodeBytes fees l r = nodeBytes fees' l' r') :
    l.commitment = l'.commitment ∧ r.commitment = r'.commitment := by
  simp only [nodeBytes,List.append_assoc] at same
  obtain ⟨left,rest⟩ := hashDelimits l.commitment l'.commitment _ _ trivial trivial same
  obtain ⟨_,rest⟩ := List.append_inj rest (bytesLELength.trans bytesLELength.symm)
  obtain ⟨_,right⟩ := List.append_inj rest (bytesLELength.trans bytesLELength.symm)
  have ends : hashBytes r.commitment ++ [] = hashBytes r'.commitment ++ [] := by rw [right]
  exact ⟨left,(hashDelimits r.commitment r'.commitment _ _ trivial trivial ends).1⟩

theorem leafBytesSplit {fees fees' : Amount} {tx tx' : Transaction} (same : leafBytes lib fees tx = leafBytes lib fees' tx') :
    fees = fees' ∧ encodeTransaction lib tx = encodeTransaction lib tx' := by
  simp only [leafBytes,List.append_assoc] at same
  obtain ⟨sameFees,rest⟩ := amountDelimits fees fees' _ _ trivial trivial same
  exact ⟨sameFees,(List.append_inj rest (bytesLELength.trans bytesLELength.symm)).2⟩

theorem leafNotNode {fees fees' : Amount} {tx : Transaction} {l r : CbmtNode} (long : (encodeTransaction lib tx).length ≠ 64) :
    leafBytes lib fees tx ≠ nodeBytes fees' l r := by
  intro same
  have lengths := congrArg List.length same
  simp only [leafBytes,nodeBytes,List.length_append,encodeAmount,encodeU64,bytesLELength,hashLength] at lengths
  omega

theorem memLeafStrings {f : FilledTransaction} {fees : Amount} (mem : f ∈ txs) (isFee : f.getFee = .ok fees) :
    leafBytes lib fees f.transaction ∈ leafStrings lib txs :=
  List.mem_filterMap.mpr ⟨f,mem,by rw [isFee]; rfl⟩

theorem memInnerStrings {l r p : CbmtNode} {fees : Amount}
    (inner : CompleteTree.Inner (mergeFeeSizeTotal lib) all l r p) (added : l.fees.checkedAdd r.fees = some fees) :
    nodeBytes fees l r ∈ (List.range all.length).filterMap (innerString all) := by
  obtain ⟨i,here⟩ := inner
  refine List.mem_filterMap.mpr ⟨i,List.mem_range.mpr (List.getElem?_eq_some_iff.mp here.parent).1,?_⟩
  simp only [innerString,here.left,here.right,added,Option.bind_eq_bind,Option.bind_some]

structure Among (lib : Externals F) (strings : List (List Byte)) (coinbase : List Output) (txs : List FilledTransaction)
    (all : List CbmtNode) (top : CbmtNode) : Prop where
  outputs : coinbaseString lib coinbase ∈ strings
  leaf : ∀ f ∈ txs, ∀ fees, f.getFee = .ok fees → leafBytes lib fees f.transaction ∈ strings
  inner : ∀ l r p fees, CompleteTree.Inner (mergeFeeSizeTotal lib) all l r p → l.fees.checkedAdd r.fees = some fees →
    nodeBytes fees l r ∈ strings
  ends : topString lib coinbase top ∈ strings

theorem RootSource.among (source : RootSource lib coinbase txs root leaves top)
    (places : CompleteTree.places (mergeFeeSizeTotal lib) leaves = some all)
    (inside : ∀ x ∈ hashedStrings lib coinbase txs, x ∈ strings) : Among lib strings coinbase txs all top := by
  have isStrings : hashedStrings lib coinbase txs = coinbaseString lib coinbase :: (leafStrings lib txs ++
      (List.range all.length).filterMap (innerString all) ++ [topString lib coinbase top]) := by
    simp only [hashedStrings,source.collected,places,source.built,Option.toList_some,List.flatMap_singleton,List.map_singleton]
  rw [isStrings] at inside
  refine ⟨inside _ List.mem_cons_self,fun f mem fees isFee => inside _ ?_,fun l r p fees inner added => inside _ ?_,inside _ ?_⟩
  · exact List.mem_cons_of_mem _ (List.mem_append_left _ (List.mem_append_left _ (memLeafStrings mem isFee)))
  · exact List.mem_cons_of_mem _ (List.mem_append_left _ (List.mem_append_right _ (memInnerStrings inner added)))
  · exact List.mem_cons_of_mem _ (List.mem_append_right _ (List.mem_singleton.mpr rfl))

theorem RootSource.tree (source : RootSource lib coinbase txs root leaves top) (complete : CompleteRoots lib) :
    ∃ all, CompleteTree.places (mergeFeeSizeTotal lib) leaves = some all ∧
      (leaves = [] ∧ top.commitment = 0 ∨ leaves ≠ [] ∧ all.head? = some top) := by
  have built := source.built
  rw [complete] at built
  split at built
  · next empty =>
      cases List.isEmpty_iff.mp empty
      cases built
      exact ⟨[],rfl,.inl ⟨rfl,rfl⟩⟩
  · next filled =>
      obtain ⟨all,places,isHead⟩ := Option.bind_eq_some_iff.mp built
      exact ⟨all,places,.inr ⟨fun empty => filled (List.isEmpty_iff.mpr empty),isHead⟩⟩

theorem splitsApart (among : Among lib strings coinbase txs all top) (among' : Among lib strings coinbase' txs' all' top')
    (clean : Collisionless lib strings) : CompleteTree.Splits (mergeFeeSizeTotal lib) CbmtNode.commitment all all' := by
  intro l r p l' r' p' inner inner' same
  obtain ⟨_,here⟩ := id inner
  obtain ⟨_,here'⟩ := id inner'
  obtain ⟨fees,added,isHash⟩ := mergeSource here.merged
  obtain ⟨fees',added',isHash'⟩ := mergeSource here'.merged
  rw [isHash,isHash'] at same
  exact nodeBytesSplit (clean.apart _ (among.inner l r p fees inner added) _ (among'.inner l' r' p' fees' inner' added') same)

/- The first leaf of the smaller tree would be an inner place of the other. -/
theorem notFewer (among : Among lib strings coinbase txs all top) (among' : Among lib strings coinbase' txs' all' top')
    (clean : Collisionless lib strings) (tree : CompleteTree.Tree (mergeFeeSizeTotal lib) leaves all)
    (tree' : CompleteTree.Tree (mergeFeeSizeTotal lib) leaves' all') (collected : merkleLeaves lib txs = .ok leaves)
    (top : all.head?.map CbmtNode.commitment = all'.head?.map CbmtNode.commitment) (nonEmpty : leaves ≠ [])
    (long : ∀ f ∈ txs, (encodeTransaction lib f.transaction).length ≠ 64) : ¬ leaves.length < leaves'.length := by
  intro fewer
  obtain ⟨leaf,later,rfl⟩ := List.exists_cons_of_ne_nil nonEmpty
  obtain ⟨f,mem,fees,isFee,isLeaf⟩ := relatedRight (leavesSource collected) (List.mem_cons_self (a := leaf))
  obtain ⟨l,r,p,inner,same⟩ := CompleteTree.firstLeafInner tree tree' (splitsApart among among' clean) top rfl fewer
  obtain ⟨_,here⟩ := id inner
  obtain ⟨fees',added,isHash⟩ := mergeSource here.merged
  rw [isLeaf,isHash] at same
  exact leafNotNode (long f mem) (clean.apart _ (among.leaf f mem fees isFee) _ (among'.inner l r p fees' inner added) same)

theorem sameLeafStrings
    (each : List.Forall₂ (fun f (leaf : CbmtNode) => ∃ fees, f.getFee = .ok fees ∧
      leaf.commitment = lib.blake3 (leafBytes lib fees f.transaction)) txs leaves)
    (each' : List.Forall₂ (fun f (leaf : CbmtNode) => ∃ fees, f.getFee = .ok fees ∧
      leaf.commitment = lib.blake3 (leafBytes lib fees f.transaction)) txs' leaves')
    (among : ∀ f ∈ txs, ∀ fees, f.getFee = .ok fees → leafBytes lib fees f.transaction ∈ strings)
    (among' : ∀ f ∈ txs', ∀ fees, f.getFee = .ok fees → leafBytes lib fees f.transaction ∈ strings)
    (clean : Collisionless lib strings) (same : leaves.map CbmtNode.commitment = leaves'.map CbmtNode.commitment) :
    List.Forall₂ (fun f f' => f.getFee = f'.getFee ∧
      encodeTransaction lib f.transaction = encodeTransaction lib f'.transaction) txs txs' := by
  induction each generalizing txs' leaves' with
  | nil =>
      cases each' with
      | nil => exact .nil
      | cons _ _ => cases same
  | cons first rest ih =>
      cases each' with
      | nil => cases same
      | cons first' rest' =>
          obtain ⟨fees,isFee,isLeaf⟩ := first
          obtain ⟨fees',isFee',isLeaf'⟩ := first'
          obtain ⟨head,tail⟩ := List.cons.inj same
          rw [isLeaf,isLeaf'] at head
          have strings := clean.apart _ (among _ List.mem_cons_self fees isFee) _ (among' _ List.mem_cons_self fees' isFee') head
          obtain ⟨rfl,encoded⟩ := leafBytesSplit strings
          exact .cons ⟨isFee.trans isFee'.symm,encoded⟩ (ih rest' (fun f mem => among f (List.mem_cons_of_mem _ mem))
            (fun f mem => among' f (List.mem_cons_of_mem _ mem)) tail)

theorem topNonZero (source : RootSource lib coinbase txs root leaves top) (among : Among lib strings coinbase txs all top)
    (clean : Collisionless lib strings) (tree : CompleteTree.Tree (mergeFeeSizeTotal lib) leaves all)
    (isHead : all.head? = some top) (nonEmpty : leaves ≠ []) : top.commitment ≠ 0 := by
  rw [List.head?_eq_getElem?] at isHead
  obtain ⟨leaf,later,rfl⟩ := List.exists_cons_of_ne_nil nonEmpty
  cases later with
  | nil =>
      have stands := tree.leaf 0 (Nat.succ_pos _)
      obtain rfl := Option.some.inj (isHead.symm.trans stands)
      obtain ⟨f,mem,fees,isFee,isLeaf⟩ := relatedRight (leavesSource source.collected) (List.mem_cons_self (a := top))
      rw [isLeaf]
      exact clean.nonZero _ (among.leaf f mem fees isFee)
  | cons second later =>
      obtain ⟨l,r,p,here⟩ := tree.inner 0 (by simp only [List.length_cons]; omega)
      obtain rfl := Option.some.inj (isHead.symm.trans here.parent)
      obtain ⟨fees,added,isHash⟩ := mergeSource here.merged
      rw [isHash]
      exact clean.nonZero _ (among.inner l r top fees ⟨0,here⟩ added)

structure TwoTrees (lib : Externals F) (strings : List (List Byte)) (coinbase coinbase' : List Output)
    (txs txs' : List FilledTransaction) (leaves leaves' all all' : List CbmtNode) (top top' : CbmtNode) : Prop where
  collected : merkleLeaves lib txs = .ok leaves
  collected' : merkleLeaves lib txs' = .ok leaves'
  among : Among lib strings coinbase txs all top
  among' : Among lib strings coinbase' txs' all' top'
  tree : CompleteTree.Tree (mergeFeeSizeTotal lib) leaves all
  tree' : CompleteTree.Tree (mergeFeeSizeTotal lib) leaves' all'
  coinbases : lib.blake3 (coinbaseString lib coinbase) = lib.blake3 (coinbaseString lib coinbase')
  heads : leaves = [] ∧ leaves' = [] ∨
    leaves ≠ [] ∧ leaves' ≠ [] ∧ all.head?.map CbmtNode.commitment = all'.head?.map CbmtNode.commitment

theorem rootTrees (complete : CompleteRoots lib) (ok : Body.computeMerkleRoot lib coinbase txs = .ok root)
    (ok' : Body.computeMerkleRoot lib coinbase' txs' = .ok root)
    (inside : ∀ x ∈ hashedStrings lib coinbase txs, x ∈ strings) (inside' : ∀ x ∈ hashedStrings lib coinbase' txs', x ∈ strings)
    (clean : Collisionless lib strings) : ∃ leaves leaves' all all' top top',
      TwoTrees lib strings coinbase coinbase' txs txs' leaves leaves' all all' top top' := by
  obtain ⟨leaves,top,source⟩ := rootSource ok
  obtain ⟨leaves',top',source'⟩ := rootSource ok'
  obtain ⟨all,places,shape⟩ := source.tree complete
  obtain ⟨all',places',shape'⟩ := source'.tree complete
  have among := source.among places inside
  have among' := source'.among places' inside'
  have tree := CompleteTree.placesTree places
  have tree' := CompleteTree.placesTree places'
  have tops := clean.apart _ among.ends _ among'.ends (source.hashed.symm.trans source'.hashed)
  obtain ⟨coinbases,rest⟩ := hashDelimits _ _ _ _ trivial trivial tops
  have ends : hashBytes top.commitment ++ [] = hashBytes top'.commitment ++ [] := by rw [rest]
  obtain ⟨roots,_⟩ := hashDelimits _ _ _ _ trivial trivial ends
  refine ⟨leaves,leaves',all,all',top,top',source.collected,source'.collected,among,among',tree,tree',coinbases,?_⟩
  rcases shape with ⟨rfl,zero⟩ | ⟨nonEmpty,isHead⟩
  · rcases shape' with ⟨rfl,_⟩ | ⟨nonEmpty',isHead'⟩
    · exact .inl ⟨rfl,rfl⟩
    · exact absurd (roots.symm.trans zero) (topNonZero source' among' clean tree' isHead' nonEmpty')
  · rcases shape' with ⟨rfl,zero⟩ | ⟨nonEmpty',isHead'⟩
    · exact absurd (roots.trans zero) (topNonZero source among clean tree isHead nonEmpty)
    · refine .inr ⟨nonEmpty,nonEmpty',?_⟩
      rw [isHead,isHead',Option.map_some,Option.map_some,roots]

theorem TwoTrees.leafStrings (trees : TwoTrees lib strings coinbase coinbase' txs txs' leaves leaves' all all' top top')
    (clean : Collisionless lib strings) (count : leaves.length = leaves'.length) :
    List.Forall₂ (fun f f' => f.getFee = f'.getFee ∧
      encodeTransaction lib f.transaction = encodeTransaction lib f'.transaction) txs txs' := by
  refine sameLeafStrings (leavesSource trees.collected) (leavesSource trees.collected') trees.among.leaf trees.among'.leaf
    clean ?_
  rcases trees.heads with ⟨rfl,rfl⟩ | ⟨_,_,heads⟩
  · rfl
  · exact CompleteTree.sameLeaves trees.tree trees.tree' (splitsApart trees.among trees.among' clean) heads count

theorem rootFixes (complete : CompleteRoots lib) (ok : Body.computeMerkleRoot lib coinbase txs = .ok root)
    (ok' : Body.computeMerkleRoot lib coinbase' txs' = .ok root)
    (inside : ∀ x ∈ hashedStrings lib coinbase txs, x ∈ strings) (inside' : ∀ x ∈ hashedStrings lib coinbase' txs', x ∈ strings)
    (clean : Collisionless lib strings) (long : ∀ f ∈ txs ++ txs', (encodeTransaction lib f.transaction).length ≠ 64) :
    encodeSeq (encodeOutput lib) coinbase = encodeSeq (encodeOutput lib) coinbase' ∧
      txs.map (fun f => encodeTransaction lib f.transaction) = txs'.map (fun f => encodeTransaction lib f.transaction) := by
  obtain ⟨leaves,leaves',all,all',top,top',trees⟩ := rootTrees complete ok ok' inside inside' clean
  have count : leaves.length = leaves'.length := by
    rcases trees.heads with ⟨rfl,rfl⟩ | ⟨nonEmpty,nonEmpty',heads⟩
    · rfl
    · have notLess := notFewer trees.among trees.among' clean trees.tree trees.tree' trees.collected heads nonEmpty
        (fun f mem => long f (List.mem_append_left _ mem))
      have notMore := notFewer trees.among' trees.among clean trees.tree' trees.tree trees.collected' heads.symm nonEmpty'
        (fun f mem => long f (List.mem_append_right _ mem))
      omega
  refine ⟨clean.apart _ trees.among.outputs _ trees.among'.outputs trees.coinbases,?_⟩
  rw [← List.forall₂_eq_eq_eq,List.forall₂_map_left_iff,List.forall₂_map_right_iff]
  exact (trees.leafStrings clean count).imp (fun _ _ same => same.2)

theorem rootFixesFees (complete : CompleteRoots lib) (ok : Body.computeMerkleRoot lib coinbase txs = .ok root)
    (ok' : Body.computeMerkleRoot lib coinbase' txs' = .ok root)
    (inside : ∀ x ∈ hashedStrings lib coinbase txs, x ∈ strings) (inside' : ∀ x ∈ hashedStrings lib coinbase' txs', x ∈ strings)
    (clean : Collisionless lib strings) (count : txs.length = txs'.length) :
    txs.map FilledTransaction.getFee = txs'.map FilledTransaction.getFee := by
  obtain ⟨leaves,leaves',all,all',top,top',trees⟩ := rootTrees complete ok ok' inside inside' clean
  have leafCount := (leavesSource trees.collected).length_eq
  have leafCount' := (leavesSource trees.collected').length_eq
  rw [← List.forall₂_eq_eq_eq,List.forall₂_map_left_iff,List.forall₂_map_right_iff]
  exact (trees.leafStrings clean (by omega)).imp (fun _ _ same => same.1)

theorem rootOfFees (fees : txs.map FilledTransaction.getFee = txs'.map FilledTransaction.getFee)
    (same : txs.map (·.transaction) = txs'.map (·.transaction)) :
    Body.computeMerkleRoot lib coinbase txs = Body.computeMerkleRoot lib coinbase txs' := by
  have leaves (n k : Nat) : collect (fun tx => merkleLeaf lib n tx.2 tx.1) (txs.zipIdx k) =
      collect (fun tx => merkleLeaf lib n tx.2 tx.1) (txs'.zipIdx k) := by
    induction txs generalizing txs' k with
    | nil =>
        cases txs' with
        | nil => rfl
        | cons _ _ => cases same
    | cons f txs ih =>
        cases txs' with
        | nil => cases same
        | cons f' txs' =>
            obtain ⟨fee,fees⟩ := List.cons.inj fees
            obtain ⟨tx,same⟩ := List.cons.inj same
            have sameTx : f.transaction = f'.transaction := tx
            have head : merkleLeaf lib n k f = merkleLeaf lib n k f' := by
              unfold merkleLeaf
              rw [fee,sameTx]
            simp only [List.zipIdx_cons,collect,head,ih fees same]
  have count : txs.length = txs'.length := by simpa using congrArg List.length same
  unfold Body.computeMerkleRoot
  rw [count,leaves]

end Binding

section Runs

variable {ctxt : BatchVerificationContext} {s last : State F} {steps earlier later : List (Step F)} {header : Header} {body : Body}
  {pre : PrevalidatedBlock}

theorem acceptedRoot (ok : prevalidate lib s ctxt header body = .ok pre) :
    Body.computeMerkleRoot lib body.coinbase pre.filledTransactions = .ok header.merkleRoot := by
  simp only [prevalidate,bindOk,pureOk,ensureOk,mapErrorOk] at ok
  obtain ⟨_,_,_,_,_,_,gathered,_,root,isRoot,_,rootIs,_,_,_,_,_,_,_,_,_,_,_,_,_,_,rfl⟩ := ok
  exact rootIs ▸ isRoot

variable (lib) (ctxt)

def Step.hashed (s : State F) : Step F → List (List Byte)
  | .connect header body =>
      match prevalidate lib s ctxt header body with
      | .ok pre => hashedStrings lib body.coinbase pre.filledTransactions
      | .error _ => []
  | _ => []

def runHashes : List (Step F) → State F → List (List Byte)
  | [], _ => []
  | step :: steps, s => step.hashed lib ctxt s ++
      match step.apply lib ctxt s with
      | .ok t => runHashes steps t
      | .error _ => []

variable {lib} {ctxt}

theorem stepHashes {t : State F} {step : Step F} (reached : run lib ctxt earlier s = .ok t) :
    ∀ x ∈ step.hashed lib ctxt t, x ∈ runHashes lib ctxt (earlier ++ step :: later) s := by
  induction earlier generalizing s with
  | nil =>
      cases reached
      exact fun x mem => List.mem_append_left _ mem
  | cons first earlier ih =>
      obtain ⟨next,applied,rest⟩ := foldConsOk.mp reached
      intro x mem
      rw [List.cons_append,runHashes,applied]
      exact List.mem_append_right _ (ih rest x mem)

theorem minedRoot (ok : run lib ctxt steps (State.new F) = .ok last) (taken : .connect header body ∈ steps) :
    ∃ txs, Body.computeMerkleRoot lib body.coinbase txs = .ok header.merkleRoot ∧ txs.map (·.transaction) = body.transactions ∧
      ∀ x ∈ hashedStrings lib body.coinbase txs, x ∈ runHashes lib ctxt steps (State.new F) := by
  obtain ⟨s,t,later,⟨earlier,rfl,reached⟩,applied⟩ := takesOfMem ok taken
  simp only [Step.apply,connectBlock,bindOk] at applied
  obtain ⟨pre,accepted,_⟩ := applied
  refine ⟨pre.filledTransactions,acceptedRoot accepted,filledTransactions (prevalidateSource accepted).transactions,?_⟩
  have strings : (Step.connect header body).hashed lib ctxt s = hashedStrings lib body.coinbase pre.filledTransactions := by
    rw [Step.hashed,accepted]
  exact strings ▸ stepHashes reached

/- In a run no two blocks share a merkle root and differ in what it is computed from. -/
theorem rootsBindBlocks (complete : CompleteRoots lib) (ok : run lib ctxt steps (State.new F) = .ok last)
    (clean : Collisionless lib (runHashes lib ctxt steps (State.new F)))
    (long : ∀ tx ∈ transactionsOf steps, (encodeTransaction lib tx).length ≠ 64) : RootsBind lib (minedBlocks steps) := by
  intro a memA b memB same
  have takenA := memMinedBlocks.mp memA
  have takenB := memMinedBlocks.mp memB
  obtain ⟨txsA,rootA,isA,insideA⟩ := minedRoot ok takenA
  obtain ⟨txsB,rootB,isB,insideB⟩ := minedRoot ok takenB
  rw [← same] at rootB
  have longAll (f : FilledTransaction) (mem : f ∈ txsA ++ txsB) : (encodeTransaction lib f.transaction).length ≠ 64 := by
    rcases List.mem_append.mp mem with inA | inB
    · exact long _ (memTransactionsOf.mpr ⟨a.1,a.2,takenA,isA ▸ List.mem_map_of_mem inA⟩)
    · exact long _ (memTransactionsOf.mpr ⟨b.1,b.2,takenB,isB ▸ List.mem_map_of_mem inB⟩)
  obtain ⟨coinbases,transactions⟩ := rootFixes complete rootA rootB insideA insideB clean longAll
  refine ⟨coinbases,?_⟩
  rw [← isA,← isB,List.map_map,List.map_map]
  exact transactions

end Runs

section Reached
open Reference

theorem referenceNode {merge : CbmtNode → CbmtNode → Option CbmtNode} {leaves : List CbmtNode} {fuel i : Nat} :
    treeNode merge leaves fuel i = CompleteTree.descend merge leaves fuel i := by
  induction fuel generalizing i with
  | zero => rfl
  | succ fuel ih => rw [treeNode,CompleteTree.descend,ih,ih]

theorem referenceComplete : CompleteRoots externals := by
  intro merge leaves
  show treeRoot merge leaves = _
  unfold treeRoot
  split
  · rfl
  · next filled =>
      rw [referenceNode,CompleteTree.descendRoot (fun empty => filled (List.isEmpty_iff.mpr empty))]

def collisionless (strings : List (List Byte)) : Bool :=
  strings.all (fun x => strings.all (fun y => !(polyHash x == polyHash y) || x == y) && !(polyHash x == 0))

theorem collisionlessSound {strings : List (List Byte)} (checked : collisionless strings = true) :
    Collisionless externals strings := by
  simp only [collisionless,List.all_eq_true,Bool.and_eq_true,Bool.or_eq_true,Bool.not_eq_true',beq_eq_false_iff_ne,
    beq_iff_eq] at checked
  exact ⟨fun x inX y inY same => ((checked x inX).1 y inY).resolve_left (fun no => no same),fun x inX => (checked x inX).2⟩

theorem collectedBound : ∃ (steps : List (Step Forest)) (last : State Forest),
    run externals context steps (State.new Forest) = .ok last ∧ transactionsOf steps ≠ [] ∧
    RootsBind externals (minedBlocks steps) := by
  have played : plays collected (fun steps _ => collisionless (runHashes externals context steps (State.new Forest)) &&
      (transactionsOf steps).all (fun tx => (encodeTransaction externals tx).length != 64) && !(transactionsOf steps).isEmpty) = true := by
    decide +kernel
  obtain ⟨steps,last,ran,checked⟩ := playsRun played
  simp only [Bool.and_eq_true,List.all_eq_true,Bool.not_eq_true',bne_iff_ne] at checked
  obtain ⟨⟨hashes,long⟩,some⟩ := checked
  have nonEmpty : transactionsOf steps ≠ [] := by
    intro none
    rw [none] at some
    cases some
  exact ⟨steps,last,ran,nonEmpty,rootsBindBlocks referenceComplete ran (collisionlessSound hashes) long⟩

end Reached

end Coinshift
