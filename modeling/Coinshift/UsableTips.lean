import Coinshift.HeaderStore
import Coinshift.SideTipRuns

/-! What the listed tips rest on. A tip is listed with its body in the archive and unlisted before the body is deleted;
an invalidation takes header and body away and asks no listing. -/
namespace Coinshift.NetTask
open Checked

variable {F : Type} {lib : Externals F} {ctxt : BatchVerificationContext}
  {prove : F → List Hash → Except Text UtreexoProof} {rpc : BlockHash → RpcReplies} {world : World}
  {archive archive' : Archive F} {b : BlockHash} {m : MainHash}

section Backed

variable {bodies : Table BlockHash Body} {tips tips' : SideTips}

structure Backed (bodies : Table BlockHash Body) (tips : SideTips) : Prop where
  bodies : ∀ {b info}, tips.sidechainTips.tryGet b = some info → (bodies.tryGet b).isSome = true
  listed : ∀ {info b}, tips.orderedSidechainTips.tryGet info = some b → tips.sidechainTips.tryGet b = some info

theorem Backed.connect (backed : Backed bodies tips) (hasBody : (bodies.tryGet b).isSome = true) {w : Nat}
    {prevSideHash : Option BlockHash} (ok : tips.connectSidechainTip m w b prevSideHash = .ok tips') :
    Backed bodies tips' := by
  obtain ⟨height,_,⟨_,rfl⟩ | ⟨isNew,rfl⟩⟩ := Archive.connectTipSource ok
  · exact backed
  · constructor
    · intro c info found
      rw [Table.tryGetPut] at found
      split at found
      · next here => exact here ▸ hasBody
      · exact backed.bodies found
    · intro info c found
      rw [Table.tryGetPut] at found
      rw [Table.tryGetPut]
      split at found
      · next here =>
          cases found
          rw [if_pos rfl,here]
      · have before := backed.listed found
        rw [if_neg]
        · exact before
        · intro here
          rw [here] at before
          rw [before] at isNew
          cases isNew

theorem Backed.disconnect (backed : Backed bodies tips) : Backed bodies (tips.disconnectSidechainTip b) := by
  unfold SideTips.disconnectSidechainTip
  split
  · exact backed
  · next info isListed =>
      constructor
      · intro c info' found
        rw [Table.tryGetDelete] at found
        split at found
        · cases found
        · exact backed.bodies found
      · intro info' c found
        rw [Table.tryGetDelete] at found
        split at found
        · cases found
        · next other =>
            have before := backed.listed found
            rw [Table.tryGetDeleteOther]
            · exact before
            · intro here
              rw [here,isListed] at before
              exact other (Option.some.inj before).symm

theorem Backed.delete (backed : Backed bodies tips) (unlisted : tips.sidechainTips.tryGet b = none) :
    Backed (bodies.delete b) tips := by
  refine ⟨fun {c info} found => ?_,backed.listed⟩
  have other : c ≠ b := fun here => by
    rw [here,unlisted] at found
    cases found
  rw [Table.tryGetDeleteOther other]
  exact backed.bodies found

theorem disconnectUnlisted : (tips.disconnectSidechainTip b).sidechainTips.tryGet b = none := by
  unfold SideTips.disconnectSidechainTip
  split
  · next missing => exact missing
  · exact Table.tryGetDeleteSelf

end Backed

section Steps

def TipsBacked (archive : Archive F) : Prop := Backed archive.bodies archive.sideTips

theorem TipsBacked.update (backed : TipsBacked archive) {mainTip : MainHash} {header : Header} {more : List BlockHash}
    (hasBody : (archive.bodies.tryGet b).isSome = true)
    (ok : Archive.updateSideTips mainTip archive b header = .ok (archive',more)) : TipsBacked archive' := by
  simp only [Archive.updateSideTips,bindOk] at ok
  obtain ⟨acc,listed,rest⟩ := ok
  have kept : TipsBacked acc.1 ∧ acc.1.bodies = archive.bodies := by
    refine foldInvariant (P := fun acc : Archive F × Bool => TipsBacked acc.1 ∧ acc.1.bodies = archive.bodies)
      (fun acc entry acc' _ holds step => ?_) ⟨backed,rfl⟩ listed
    rcases Archive.listAtSource step with ⟨rfl,_⟩ | ⟨_,_,_,w,tips,_,connected,rfl⟩
    · exact holds
    · exact ⟨Backed.connect holds.1 (holds.2 ▸ hasBody) connected,holds.2⟩
  split at rest
  · simp only [bindOk,pureOk,Prod.mk.injEq] at rest
    obtain ⟨_,_,rfl,_⟩ := rest
    exact kept.1
  · cases rest
    exact kept.1

theorem TipsBacked.updateQueue (backed : TipsBacked archive) {mainTip : MainHash} {fuel : Nat} {queue : List BlockHash}
    (ok : Archive.updateQueue mainTip fuel archive queue = .ok archive') : TipsBacked archive' := by
  rw [Archive.updateQueueDrain] at ok
  refine Worklist.drainInvariant (P := fun archive _ => TipsBacked archive) (fun a k queue a' more holds round => ?_)
    backed ok
  unfold Archive.updateRound at round
  split at round
  · cases round
    exact holds
  · next hasBody =>
      simp only [bindOk] at round
      obtain ⟨header,_,updated⟩ := round
      exact holds.update (by rwa [Bool.not_eq_false] at hasBody) updated

theorem TipsBacked.putBody (backed : TipsBacked archive) {body : Body} (ok : archive.putBody b body = .ok archive') :
    TipsBacked archive' := by
  simp only [Archive.putBody,bindOk] at ok
  obtain ⟨header,_,⟨middle,queue⟩,updated,rest⟩ := ok
  have put : TipsBacked { archive with bodies := archive.bodies.put b body } := by
    refine ⟨fun {c info} found => ?_,backed.listed⟩
    rw [Table.tryGetPut]
    split
    · rfl
    · exact backed.bodies found
  refine TipsBacked.updateQueue (put.update ?_ updated) rest
  rw [Table.tryGetPutSelf]
  rfl

theorem TipsBacked.disconnectQueue (backed : TipsBacked archive) {fuel : Nat} {queue : List BlockHash}
    (ok : Archive.disconnectQueue fuel archive queue = .ok archive') : TipsBacked archive' := by
  rw [Archive.disconnectQueueDrain] at ok
  refine Worklist.drainInvariant (P := fun archive _ => TipsBacked archive) (fun a k queue a' more holds round => ?_)
    backed ok
  unfold Archive.disconnectRound at round
  split at round
  · cases round
    exact holds
  · simp only [bindOk,pureOk,Prod.mk.injEq] at round
    obtain ⟨_,_,rfl,_⟩ := round
    exact Backed.disconnect holds

theorem TipsBacked.deleteBody (backed : TipsBacked archive) (ok : archive.deleteBody b = .ok archive') :
    TipsBacked archive' := by
  unfold Archive.deleteBody at ok
  dsimp only at ok
  unfold Archive.disconnectQueue at ok
  split at ok
  · next unlisted =>
      have left : TipsBacked { archive with bodies := archive.bodies.delete b } :=
        Backed.delete backed (Option.isNone_iff_eq_none.mp unlisted)
      exact left.disconnectQueue ok
  · simp only [bindOk] at ok
    obtain ⟨_,_,rest⟩ := ok
    have left : TipsBacked { archive with
        bodies := archive.bodies.delete b
        sideTips := archive.sideTips.disconnectSidechainTip b } :=
      Backed.delete (Backed.disconnect backed) disconnectUnlisted
    exact left.disconnectQueue rest

theorem TipsBacked.same (backed : TipsBacked archive) (bodies : archive'.bodies = archive.bodies)
    (tips : archive'.sideTips = archive.sideTips) : TipsBacked archive' := by
  unfold TipsBacked
  rw [bodies,tips]
  exact backed

theorem TipsBacked.putHeader (backed : TipsBacked archive) {header : Header}
    (ok : archive.putHeader lib header = .ok archive') : TipsBacked archive' := by
  obtain ⟨_,_,_,_,_,_,_,_,_,_,rfl⟩ := Archive.putHeaderSource ok
  exact backed.same rfl rfl

theorem TipsBacked.putMainHeader (backed : TipsBacked archive) {info : BlockHeaderInfo}
    (ok : archive.putMainHeaderInfo info = .ok archive') : TipsBacked archive' := by
  obtain ⟨_,_,_,_,_,_,_,_,_,rfl⟩ := Archive.putMainHeaderSource ok
  exact backed.same rfl rfl

theorem TipsBacked.putMainInfo (backed : TipsBacked archive) {blockInfo : BlockInfo}
    (ok : archive.putMainBlockInfo m blockInfo = .ok archive') : TipsBacked archive' := by
  obtain ⟨_,_,_,⟨_,rfl⟩ | ⟨_,_,_,_,_,_,rfl⟩⟩ := Archive.putMainInfoSource ok
  · exact backed.same rfl rfl
  · exact backed.same rfl rfl

theorem TipsBacked.connectEvent (backed : TipsBacked archive) {info : BlockHeaderInfo} {blockInfo : BlockInfo}
    (ok : archive.handleBlockEvent (.connectBlock info blockInfo) = .ok archive') : TipsBacked archive' := by
  obtain ⟨first,second,commitment,tips,header,contents,listable,connected,rfl⟩ := Archive.connectEventSource ok
  have put := (backed.putMainHeader header).putMainInfo contents
  obtain ⟨_,listed,rfl,⟨_,rfl⟩ | ⟨b,prevSideHash,isCommitment,connects⟩⟩ := Archive.connectMainchainSource connected
  · exact ⟨put.bodies,put.listed⟩
  · obtain ⟨_,header,supported,_⟩ := (Archive.listableSource listable).1 b prevSideHash isCommitment
    have backed' := Backed.connect put supported.body connects
    exact ⟨backed'.bodies,backed'.listed⟩

theorem orderedLess {tips : SideTips} {tipInfo : BlockHeaderInfo} {commitment : Option BlockHash}
    {ordered : Table SidechainTipInfo BlockHash} (ok : Archive.orderedWithout tips tipInfo commitment = .ok ordered)
    {info : SidechainTipInfo} (found : ordered.tryGet info = some b) : tips.orderedSidechainTips.tryGet info = some b := by
  cases commitment with
  | none =>
      cases ok
      exact found
  | some c =>
      simp only [Archive.orderedWithout,bindOk,okOrOk] at ok
      obtain ⟨listed,_,ok⟩ := ok
      split at ok
      · simp only [bindOk,ensureOk,pureOk] at ok
        obtain ⟨_,_,rfl⟩ := ok
        rw [Table.tryGetDelete] at found
        split at found
        · cases found
        · exact found
      · cases ok
        exact found

theorem TipsBacked.disconnectEvent (backed : TipsBacked archive)
    (ok : archive.handleBlockEvent (.disconnectBlock m) = .ok archive') : TipsBacked archive' := by
  obtain ⟨_,_,_,_,_,_,_,disconnected,rfl⟩ := Archive.disconnectEventSource ok
  rw [Archive.disconnectParts] at disconnected
  simp only [bindOk,pureOk] at disconnected
  obtain ⟨_,_,_,_,ordered,isOrdered,rfl⟩ := disconnected
  exact ⟨backed.bodies,fun found => backed.listed (orderedLess isOrdered found)⟩

theorem TipsBacked.step (backed : TipsBacked archive) {op : ArchiveOp} (ok : op.apply lib archive = .ok archive') :
    TipsBacked archive' := by
  cases op with
  | handleBlockEvent event =>
      cases event with
      | connectBlock info blockInfo => exact backed.connectEvent ok
      | disconnectBlock m => exact backed.disconnectEvent ok
  | putMainHeaderInfo info => exact backed.putMainHeader ok
  | putMainBlockInfo m blockInfo => exact backed.putMainInfo ok
  | putHeader header => exact backed.putHeader ok
  | putBody b body => exact backed.putBody ok
  | deleteBody b => exact backed.deleteBody ok

theorem backedClosed {start : Archive F} : ReorgClosed lib start TipsBacked :=
  ⟨fun backed _ put => backed.putHeader put,fun backed put => backed.putBody put,
    fun backed deleted => backed.deleteBody deleted,fun backed => ⟨backed.bodies,backed.listed⟩⟩

theorem TipsBacked.prune {before after : Marked F} (backed : TipsBacked before.archive)
    (pruning : Marked.Pruning before b after [])
    (unlisted : ∀ c, Marked.Below before.archive b c → before.archive.sideTips.sidechainTips.tryGet c = none) :
    TipsBacked after.archive := by
  obtain ⟨_,_,_,_,_,_,rest⟩ := pruning.rest
  have tips : after.archive.sideTips = before.archive.sideTips := by rw [rest]
  refine ⟨fun {c info} found => ?_,fun {info c} found => ?_⟩
  · rw [tips] at found
    rcases pruning.each c with same | ⟨_,below⟩
    · rw [same.body]
      exact backed.bodies found
    · cases (unlisted c below).symm.trans found
  · rw [tips] at found ⊢
    exact backed.listed found

end Steps

section Usable

inductive TipOp where
  | archive (op : ArchiveOp)
  | invalidateBlock (blockHash : BlockHash)
  | newTipReady (newTip : Tip) (rpc : BlockHash → RpcReplies)

def TipOp.apply (lib : Externals F) (ctxt : BatchVerificationContext) (prove : F → List Hash → Except Text UtreexoProof)
    (db : MarkedDb F) : TipOp → MarkedDb F
  | .archive op =>
      match op.apply lib db.archive with
      | .ok archive => { db with archive := archive }
      | .error _ => db
  | .invalidateBlock blockHash =>
      match NetTask.invalidateBlock lib prove db blockHash with
      | .ok db => db
      | .error _ => db
  | .newTipReady newTip rpc => (submitTip lib ctxt prove db newTip rpc).1

def runTips (lib : Externals F) (ctxt : BatchVerificationContext) (prove : F → List Hash → Except Text UtreexoProof)
    (ops : List TipOp) : MarkedDb F := ops.foldl (TipOp.apply lib ctxt prove) (MarkedDb.new F)

def TipOp.Names (lib : Externals F) (world : World) : TipOp → Prop
  | .archive op => op.Names lib world
  | _ => True

/- No header of an invalidated block is put, and no block is invalidated with a listed tip in its subtree. -/
def TipOp.LeavesListed (lib : Externals F) (db : MarkedDb F) : TipOp → Prop
  | .archive (.putHeader header) => db.marked.invalidatedBlock (header.hash lib) = false
  | .invalidateBlock b => (db.archive.headers.tryGet b).isSome = true →
      ∀ c, Marked.Below db.archive b c → db.archive.sideTips.sidechainTips.tryGet c = none
  | _ => True

structure TipsUsable (lib : Externals F) (world : World) (db : MarkedDb F) : Prop where
  woods : db.archive.Woods lib world
  apart : db.marked.Apart
  backed : TipsBacked db.archive

theorem TipsUsable.step {db : MarkedDb F} {op : TipOp} (usable : TipsUsable lib world db) (names : op.Names lib world)
    (leaves : op.LeavesListed lib db) : TipsUsable lib world (op.apply lib ctxt prove db) := by
  cases op with
  | archive op =>
      simp only [TipOp.apply]
      cases applied : op.apply lib db.archive with
      | error err => exact usable
      | ok archive =>
          refine ⟨usable.woods.step names applied,apartStays usable.apart rfl (fun b => ?_),usable.backed.step applied⟩
          cases isStored : stores op with
          | false => exact .inl (congrArg (fun headers => Table.tryGet headers b) (otherHeaders isStored applied))
          | true =>
              cases op with
              | putHeader header =>
                  by_cases here : b = header.hash lib
                  · exact .inr (here ▸ leaves)
                  · refine .inl ?_
                    show archive.headers.tryGet b = _
                    rw [putHeaderHeaders applied]
                    exact Table.tryGetPutOther here
              | _ => cases isStored
  | invalidateBlock b =>
      simp only [TipOp.apply]
      cases invalidated : NetTask.invalidateBlock lib prove db b with
      | error err => exact usable
      | ok db' =>
          rcases invalidateSource usable.woods invalidated with ⟨_,rfl⟩ | ⟨stored,pruning⟩
          · exact usable
          · exact ⟨pruning.woods usable.woods,pruning.apart usable.apart,
              TipsBacked.prune usable.backed pruning (leaves stored)⟩
  | newTipReady newTip rpc =>
      obtain ⟨carried,marks⟩ : Carried lib world db.archive ((TipOp.newTipReady newTip rpc).apply lib ctxt prove db).archive ∧
          ((TipOp.newTipReady newTip rpc).apply lib ctxt prove db).invalidBlocks = db.invalidBlocks :=
        submitTipCarried usable.woods
      exact ⟨carried.woods,apartStays usable.apart marks (fun b => .inl (carried.headers b)),
        backedClosed.reorg usable.woods.sides usable.backed⟩

def Listed (archive : Archive F) (b : BlockHash) : Prop :=
  (archive.sideTips.sidechainTips.tryGet b).isSome = true ∨
    ∃ info, archive.sideTips.orderedSidechainTips.tryGet info = some b

structure UsableBlock (db : MarkedDb F) (b : BlockHash) : Prop where
  header : (db.archive.headers.tryGet b).isSome = true
  height : (db.archive.blockHashToHeight.tryGet b).isSome = true
  body : (db.archive.bodies.tryGet b).isSome = true
  valid : db.marked.invalidatedBlock b = false

theorem TipsUsable.listed {db : MarkedDb F} (usable : TipsUsable lib world db) (isListed : Listed db.archive b) :
    UsableBlock db b := by
  have body : (db.archive.bodies.tryGet b).isSome = true := by
    rcases isListed with inTips | ⟨info,inOrder⟩
    · obtain ⟨info,found⟩ := Option.isSome_iff_exists.mp inTips
      exact usable.backed.bodies found
    · exact usable.backed.bodies (usable.backed.listed inOrder)
  have header := usable.woods.sides.bodies body
  refine ⟨header,(sideForest usable.woods.sides).heights b ▸ header,body,Bool.eq_false_iff.mpr (fun isMarked => ?_)⟩
  have missing := usable.apart b isMarked
  rw [MarkedDb.marked] at missing
  rw [missing] at header
  cases header

theorem TipsUsable.new : TipsUsable lib world (MarkedDb.new F) := by
  refine ⟨.new,fun b isMarked => Table.tryGetEmpty,fun found => ?_,fun found => ?_⟩
  · cases Table.tryGetEmpty.symm.trans found
  · cases Table.tryGetEmpty.symm.trans found

theorem runUsable {ops : List TipOp} (names : ∀ op ∈ ops, op.Names lib world)
    (leaves : ∀ before op after, ops = before ++ op :: after → op.LeavesListed lib (runTips lib ctxt prove before)) :
    TipsUsable lib world (runTips lib ctxt prove ops) := by
  refine foldlPrefix (P := TipsUsable lib world) .new (fun before op after split usable => ?_)
  exact usable.step (names op (split ▸ List.mem_append_right before List.mem_cons_self)) (leaves before op after split)

theorem listedUsable {ops : List TipOp} (names : ∀ op ∈ ops, op.Names lib world)
    (leaves : ∀ before op after, ops = before ++ op :: after → op.LeavesListed lib (runTips lib ctxt prove before)) :
    (∀ b, Listed (runTips lib ctxt prove ops).archive b → UsableBlock (runTips lib ctxt prove ops) b) ∧
      ∀ best info, (runTips lib ctxt prove ops).archive.sideTips.bestSideTip = some (best,info) →
        UsableBlock (runTips lib ctxt prove ops) best := by
  have usable : TipsUsable lib world (runTips lib ctxt prove ops) := runUsable names leaves
  refine ⟨fun b => usable.listed,fun best info isBest => usable.listed (.inr ⟨info,?_⟩)⟩
  obtain ⟨entry,isLast,same⟩ := Option.map_eq_some_iff.mp isBest
  cases same
  exact Table.lastFound isLast

open Reference Archive

instance {op : TipOp} : Decidable (op.Names externals world) :=
  match op with
  | .archive op => inferInstanceAs (Decidable (op.Names externals world))
  | .invalidateBlock _ | .newTipReady _ _ => isTrue trivial

def listedOps : List TipOp := tipListed.map .archive

theorem listedNames : ∀ op ∈ listedOps ++ [.invalidateBlock (tipHeader.hash externals)], op.Names externals tipWorld := by
  decide +kernel

/- A listed tip is invalidated, and stays listed. -/
theorem invalidatedStaysListed : ∃ (world : World) (b : BlockHash),
    (∀ op ∈ listedOps ++ [.invalidateBlock b], op.Names externals world) ∧
    Listed (runTips externals context noProof (listedOps ++ [.invalidateBlock b])).archive b ∧
    ¬ UsableBlock (runTips externals context noProof (listedOps ++ [.invalidateBlock b])) b := by
  have checked : ((runTips externals context noProof (listedOps ++ [.invalidateBlock
        (tipHeader.hash externals)])).archive.sideTips.sidechainTips.tryGet (tipHeader.hash externals)).isSome = true ∧
      (runTips externals context noProof (listedOps ++ [.invalidateBlock
        (tipHeader.hash externals)])).archive.headers.tryGet (tipHeader.hash externals) = none := by decide +kernel
  refine ⟨tipWorld,tipHeader.hash externals,listedNames,.inl checked.1,fun usable => ?_⟩
  have header := usable.header
  rw [checked.2] at header
  cases header

def leavesCheck (ops : List TipOp) : Bool :=
  (List.range ops.length).all (fun i =>
    match ops[i]? with
    | some (.archive (.putHeader header)) =>
        (runTips externals context noProof (ops.take i)).marked.invalidatedBlock (header.hash externals) = false
    | some (.invalidateBlock b) => (runTips externals context noProof (ops.take i)).archive.headers.tryGet b = none
    | _ => true)

theorem leavesCheckSound {ops : List TipOp} (checked : leavesCheck ops = true) (before : List TipOp) (op : TipOp)
    (after : List TipOp) (split : ops = before ++ op :: after) :
    op.LeavesListed externals (runTips externals context noProof before) := by
  have here := List.all_eq_true.mp checked before.length (by simp [split])
  have taken : ops.take before.length = before := by simp [split]
  have found : ops[before.length]? = some op := by simp [split]
  rw [taken,found] at here
  cases op with
  | archive op =>
      cases op with
      | putHeader header =>
          have unmarked := of_decide_eq_true here
          exact unmarked
      | _ => trivial
  | invalidateBlock b =>
      intro stored
      rw [of_decide_eq_true here] at stored
      cases stored
  | newTipReady => trivial

theorem listedTipUsable : UsableBlock (runTips externals context noProof listedOps) (tipHeader.hash externals) := by
  have checked : leavesCheck listedOps = true := by decide +kernel
  have isListed : ((runTips externals context noProof listedOps).archive.sideTips.sidechainTips.tryGet
      (tipHeader.hash externals)).isSome = true := by decide +kernel
  exact (listedUsable (fun op mem => listedNames op (List.mem_append_left _ mem)) (leavesCheckSound checked)).1 _ (.inl isListed)

end Usable

end Coinshift.NetTask
