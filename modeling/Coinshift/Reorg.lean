import Coinshift.NetTask

/-! A reorganisation as a whole: what is committed at each of its ends.
Between the start and a commit lie blocks disconnected and connected one by one, each of them wholly. -/
namespace Coinshift.NetTask
open Checked

variable {F : Type} {lib : Externals F} {ctxt : BatchVerificationContext}
  {prove : F → List Hash → Except Text UtreexoProof} {rpc : BlockHash → RpcReplies} {db working committed : Db F}

/- Blocks disconnected, then blocks connected. -/
inductive Whole (lib : Externals F) (ctxt : BatchVerificationContext) (prove : F → List Hash → Except Text UtreexoProof)
    (rpc : BlockHash → RpcReplies) (db : Db F) : Db F → Prop where
  | start : Whole lib ctxt prove rpc db db
  | disconnect {before after : Db F} (whole : Whole lib ctxt prove rpc db before)
      (done : disconnectTip_ lib prove before = .ok after) : Whole lib ctxt prove rpc db after
  | connect {before after : Db F} (whole : Whole lib ctxt prove rpc db before) {header : Header} {body : Body}
      {data : TwoWayPegData} (done : connectTip_ lib ctxt prove before header body data (rpc (header.hash lib)) = .ok after) :
      Whole lib ctxt prove rpc db after

structure BetterConnected (lib : Externals F) (ctxt : BatchVerificationContext)
    (prove : F → List Hash → Except Text UtreexoProof) (rpc : BlockHash → RpcReplies) (db committed : Db F) (t : Tip) :
    Prop where
  connected : ∃ before header body data after, Whole lib ctxt prove rpc db before ∧ header.hash lib = t.blockHash ∧
    connectTip_ lib ctxt prove before header body data (rpc t.blockHash) = .ok after ∧
    committed.state = after.state ∧ committed.mempool = after.mempool
  tip : committed.state.tip = some t.blockHash
  verified : committed.archive.getBestMainVerification t.blockHash = .ok t.mainBlockHash
  better : ∀ tip, stateTip db = .ok (some tip) → committed.archive.betterTip tip t = .ok (some t)

theorem Whole.disconnects {count : Nat} {start last : Db F} (whole : Whole lib ctxt prove rpc db start)
    (done : disconnectTips lib prove start count = .ok last) : Whole lib ctxt prove rpc db last := by
  induction count generalizing start with
  | zero =>
      cases done
      exact whole
  | succ count ih =>
      simp only [disconnectTips,bindOk] at done
      obtain ⟨next,first,rest⟩ := done
      exact ih (whole.disconnect first) rest

/- The states a reorganisation may leave when it stops: the one at the start, or a better tip. -/
def Allowed (lib : Externals F) (ctxt : BatchVerificationContext) (prove : F → List Hash → Except Text UtreexoProof)
    (rpc : BlockHash → RpcReplies) (db committed : Db F) : Prop :=
  committed.state = db.state ∧ committed.mempool = db.mempool ∨ ∃ t, BetterConnected lib ctxt prove rpc db committed t

/- The fork choice reads no bodies and no side tips. -/
theorem BetterConnected.discarded {t : Tip} {archive : Archive F} {blockHash : BlockHash}
    (connected : BetterConnected lib ctxt prove rpc db committed t)
    (deleted : committed.archive.deleteBody blockHash = .ok archive) :
    BetterConnected lib ctxt prove rpc db { committed with archive } t := by
  obtain ⟨tips,rfl⟩ := Archive.disconnectQueueFrame deleted
  exact ⟨connected.connected,connected.tip,connected.verified,connected.better⟩

theorem Allowed.discarded (allowed : Allowed lib ctxt prove rpc db committed) {blockHash : BlockHash} {err : NodeError} :
    Allowed lib ctxt prove rpc db (discardBody committed blockHash err).1 := by
  unfold discardBody
  split
  · exact allowed
  · split
    · next archive deleted =>
        rcases allowed with same | ⟨t,connected⟩
        · exact .inl same
        · exact .inr ⟨t,connected.discarded deleted⟩
    · exact allowed

theorem reachedBetterOk {tip : Option Tip} (reached : reachedBetter working tip = .ok true) :
    ∃ t, working.state.tip = some t.blockHash ∧ working.archive.getBestMainVerification t.blockHash = .ok t.mainBlockHash ∧
      ∀ first, tip = some first → working.archive.betterTip first t = .ok (some t) := by
  simp only [reachedBetter,bindOk,okOrOk,mapErrorOk] at reached
  obtain ⟨hash,isTip,mainHash,verified,better⟩ := reached
  refine ⟨⟨hash,mainHash⟩,isTip,verified,fun first isFirst => ?_⟩
  subst isFirst
  simp only [isBetter,bindOk,pureOk,decide_eq_true_eq] at better
  obtain ⟨winner,isWinner,rfl⟩ := better
  exact isWinner

/- By induction on the blocks: what is committed stays allowed, and the open transaction consists of whole blocks. -/
theorem applyBlocksAllowed {tip : Option Tip} (isTip : stateTip db = .ok tip) (batch : List (Hash × List BlockEvent))
    (blocks : List Block) (allowed : Allowed lib ctxt prove rpc db committed)
    (whole : Whole lib ctxt prove rpc db working) :
    Allowed lib ctxt prove rpc db (applyBlocks lib ctxt prove tip rpc committed working batch blocks).1 ∧
      ∀ last, (applyBlocks lib ctxt prove tip rpc committed working batch blocks).2 = .ok last →
        Whole lib ctxt prove rpc db last := by
  induction blocks generalizing committed working batch with
  | nil =>
      refine ⟨allowed,fun last isLast => ?_⟩
      cases isLast
      exact whole
  | cons block blocks ih =>
      unfold applyBlocks
      dsimp only
      split
      · exact ⟨allowed.discarded,fun last isLast => nomatch isLast⟩
      · next next connected =>
          have isWhole := whole.connect connected
          split
          · exact ⟨allowed,fun last isLast => nomatch isLast⟩
          · next reached =>
              obtain ⟨t,newTip,verified,better⟩ := reachedBetterOk reached
              have isHash : block.1.hash lib = t.blockHash :=
                Option.some.inj ((connectTipSource connected).tip.symm.trans newTip)
              have above : BetterConnected lib ctxt prove rpc db next t := by
                refine ⟨⟨working,block.1,block.2,_,next,whole,isHash,isHash ▸ connected,rfl,rfl⟩,newTip,verified,?_⟩
                intro first isFirst
                exact better first (Except.ok.inj (isTip.symm.trans isFirst))
              exact ih _ (.inr ⟨t,above⟩) isWhole
          · exact ih _ allowed isWhole

theorem reorgAtomic (db : Db F) (newTip : Tip) :
    match reorgToTip lib ctxt prove db newTip rpc with
    | (committed,.ok true) => committed.state.tip = some newTip.blockHash ∧ Whole lib ctxt prove rpc db committed
    | (committed,.ok false) => committed = db
    | (committed,.error _) => committed.state = db.state ∧ committed.mempool = db.mempool ∨
        ∃ t, BetterConnected lib ctxt prove rpc db committed t := by
  unfold reorgToTip
  cases started : startReorg lib prove db newTip with
  | error err => exact .inl ⟨rfl,rfl⟩
  | ok plan =>
      cases plan with
      | none => rfl
      | some reorg =>
          obtain ⟨ancestor,head,count,source⟩ := startReorgOk started
          have whole : Whole lib ctxt prove rpc db reorg.working := Whole.start.disconnects source.disconnected
          have ends := applyBlocksAllowed source.tip reorg.batch reorg.blocks (.inl ⟨rfl,rfl⟩) whole
          dsimp only
          cases applied : applyBlocks lib ctxt prove reorg.tip rpc db reorg.working reorg.batch reorg.blocks with
          | mk last result =>
              rw [applied] at ends
              cases result with
              | error err => exact ends.1
              | ok working =>
                  dsimp only
                  by_cases reached : working.state.tip = some newTip.blockHash
                  · rw [if_pos reached]
                    exact ⟨reached,ends.2 working rfl⟩
                  · rw [if_neg reached]
                    exact ends.1

end Coinshift.NetTask
