import Coinshift.ConnectedBodies
import Coinshift.PegSources
import Coinshift.VerifiedTips

/-! The peg tables over whole runs.
With each tip that is disconnected its peg data is taken back, and the tables are left below the new height. A main-chain
block event disconnects blocks without it, and a first block has no earlier entry to start from: then entries stay above
the tip. -/
namespace Coinshift.NetTask
open Checked Lineage Archive

variable {F : Type} {lib : Externals F} {ctxt : BatchVerificationContext}
  {prove : F → List Hash → Except Text UtreexoProof} {rpc : BlockHash → RpcReplies} {world : World}
  {db db' : Db F} {archive : Archive F} {newTip : Tip}

section Effects

def AtMost (height : Option Nat) (h : Nat) : Prop := ∃ top, height = some top ∧ h ≤ top

/- Every entry of the four tables is at most at the height of the state. -/
structure EffectsCovered (s : State F) : Prop where
  deposits : ∀ {k v}, s.depositBlocks.tryGet k = some v → AtMost s.height v.2
  reports : ∀ {k v}, s.withdrawalBundleEventBlocks.tryGet k = some v → AtMost s.height v.2
  expiries : ∀ {h v}, s.expiredSwaps.tryGet h = some v → AtMost s.height h
  index : ∀ {h v}, s.blockIndexEvents.tryGet h = some v → AtMost s.height h

structure BundlesCovered (s : State F) : Prop where
  pending : ∀ {bundle h}, s.pendingWithdrawalBundle = some (bundle,h) → AtMost s.height h
  statuses : ∀ {m6id info history}, s.withdrawalBundles.tryGet m6id = some (info,history) →
    ∀ x ∈ history.toList, AtMost s.height x.height
  failures : ∀ {history}, s.latestFailedWithdrawalBundle = some history → ∀ x ∈ history.toList, AtMost s.height x.height

theorem belowAtMost {s : State F} {h : Nat} (below : h < s.nextHeight) : AtMost s.height h := by
  unfold State.nextHeight at below
  cases isHeight : s.height with
  | none =>
      rw [isHeight] at below
      exact absurd below (Nat.not_lt_zero h)
  | some top =>
      rw [isHeight] at below
      exact ⟨top,rfl,Nat.le_of_lt_succ below⟩

theorem EffectsBelow.covered {s : State F} {n : Nat} (effects : EffectsBelow s n) (height : s.nextHeight = n) :
    EffectsCovered s := by
  subst height
  exact ⟨fun found => belowAtMost (effects.deposits found),fun found => belowAtMost (effects.reports found),
    fun found => belowAtMost (effects.expiries found),fun found => belowAtMost (effects.index found)⟩

theorem EffectsBelow.bundlesCovered {s : State F} {n : Nat} (effects : EffectsBelow s n) (height : s.nextHeight = n) :
    BundlesCovered s := by
  subst height
  refine ⟨fun found => belowAtMost (effects.bundles.pending found),
    fun found x mem => belowAtMost (effects.bundles.statuses (bookFound found) x mem),fun {history} found x mem => ?_⟩
  refine belowAtMost (effects.bundles.failures x ?_)
  show x ∈ (s.latestFailedWithdrawalBundle.map RollBack.toList).getD []
  rw [found]
  exact mem

theorem Recorded.covered (recorded : Recorded lib world db) : EffectsCovered db.state ∧ BundlesCovered db.state :=
  ⟨recorded.effects.covered recorded.height,recorded.effects.bundlesCovered recorded.height⟩

end Effects

section Moves

theorem Numbered.learn (numbered : Numbered lib world db) (fed : Fed lib world { db with archive }) :
    Numbered lib world { db with archive } := ⟨fed,numbered.deposits,numbered.reports⟩

theorem Recorded.learn (recorded : Recorded lib world db) (fed : Fed lib world { db with archive }) :
    Recorded lib world { db with archive } :=
  ⟨recorded.toNumbered.learn fed,recorded.expiries,recorded.index,recorded.bundles,recorded.quiet⟩

theorem numberedFed : FedRule lib ctxt prove world (Numbered lib world) where
  fed := fun numbered => numbered.toFed
  connect := fun numbered fed source => numbered.connect fed source
  disconnect := fun numbered quiet done => numbered.disconnect quiet done
  learn := fun numbered fed => numbered.learn fed

theorem recordedFed : FedRule lib ctxt prove world (Recorded lib world) where
  fed := fun recorded => recorded.toFed
  connect := fun recorded fed source => recorded.connect fed source
  disconnect := fun recorded quiet done => recorded.disconnect quiet done
  learn := fun recorded fed => recorded.learn fed

/- The tip is left for its parent: what its peg data brought about is taken back with it, if there is any. -/
structure TakesPegBack (lib : Externals F) (before after : Db F) : Prop where
  paired : ∃ c, before.connected = c :: after.connected ∧ (c.effects = false ∨ ∃ data middle body last,
    c.twoWayPegData.events <:+ data.events ∧ disconnectTwoWayPegData lib before.state data = .ok middle ∧
      disconnectTip lib middle c.header body = .ok last ∧
      after.state = { last with utreexoAccumulator := after.state.utreexoAccumulator })
  covered : EffectsCovered after.state ∧ BundlesCovered after.state

theorem Recorded.takesBack (recorded : Recorded lib world db) (quiet : FirstQuiet db.connected)
    (done : disconnectTip_ lib prove db = .ok db') : TakesPegBack lib db db' := by
  refine ⟨?_,(recorded.disconnect quiet done).covered⟩
  obtain ⟨c,below,body,isTop,isBelow,source,_⟩ := recorded.toFed.disconnect done
  obtain ⟨height,data,middle,last,accumulator,isHeight,isData,pegs,block,_,isState⟩ := source.state
  cases isHeight.symm.trans (recorded.toActive.tipStored isTop).2.2
  refine ⟨c,isBelow ▸ isTop,.inr ⟨data,middle,body,last,recorded.whole quiet isTop isData,pegs,block,?_⟩⟩
  rw [isState]

def Unwinds (lib : Externals F) (prove : F → List Hash → Except Text UtreexoProof) (db : Db F) (newTip : Tip)
    (before after : Db F) : Prop :=
  ∃ reorg i j, startReorg lib prove db newTip = .ok (some reorg) ∧ disconnectTips lib prove db i = .ok before ∧
    disconnectTip_ lib prove before = .ok after ∧ disconnectTips lib prove after j = .ok reorg.working

theorem Recorded.unwinds (ctxt : BatchVerificationContext) {before after : Db F} (recorded : Recorded lib world db)
    (first : KeepsFirst lib db newTip) (unwinds : Unwinds lib prove db newTip before after) : TakesPegBack lib before after := by
  obtain ⟨reorg,i,j,started,above,one,rest⟩ := unwinds
  obtain ⟨ancestor,head,count,start⟩ := startReorgOk started
  have quiet := start.quiet recorded.toActive first
  have active := recorded.toActive.disconnects above
  obtain ⟨c,below,_,isTop,isBelow,_,_⟩ := active.1.disconnect one
  have rule : FedRule lib ctxt prove world (Recorded lib world) := recordedFed
  have reached := rule.disconnects recorded above (fun none => by cases isTop.symm.trans none)
  refine reached.takesBack (fun d single => ?_) one
  obtain ⟨_,_,_,_,_,_,continues⟩ := active.1.disconnect one
  cases isTop.symm.trans single
  have ends := (continues.disconnects rest).2
  rw [isBelow,List.suffix_nil] at ends
  refine quiet ends c ?_
  have isSuffix := active.2
  rw [single] at isSuffix
  obtain ⟨front,isFront⟩ := isSuffix
  rw [← isFront,List.getLast?_concat]
  rfl

end Moves

section Unlisted

def isUnlisted (lib : Externals F) (db : Db F) (c : Connected) : Bool :=
  (db.archive.sideTips.sidechainTips.tryGet (c.header.hash lib)).isNone

variable {quiet : Connected → Prop} {R : Db F → Prop}

def UnlistedQuiet (quiet : Connected → Prop) (lib : Externals F) (db : Db F) : Prop :=
  ∀ c ∈ db.connected.takeWhile (isUnlisted lib db), quiet c

def Unlists (lib : Externals F) (db next : Db F) : Prop :=
  ∃ tip header body state, db.state.tip = some tip ∧ db.archive.sideTips.sidechainTips.tryGet tip = none ∧
    db.archive.headers.tryGet tip = some header ∧ disconnectTip lib db.state header body = .ok state ∧
    next = { db with state, connected := db.connected.tail }

theorem unlistRound {fuel : Nat} (done : disconnectToListed lib fuel db = .ok db') :
    db' = db ∨ ∃ left next, fuel = left + 1 ∧ Unlists lib db next ∧ disconnectToListed lib left next = .ok db' := by
  unfold disconnectToListed at done
  split at done
  · cases done
    exact .inl rfl
  · next tip isTip =>
      split at done
      · cases done
        exact .inl rfl
      · next unlisted =>
          cases fuel with
          | zero => cases done
          | succ fuel =>
              simp only [getHeader,bindOk,mapErrorOk,okOrOk] at done
              obtain ⟨header,isHeader,body,_,state,disconnected,done⟩ := done
              exact .inr ⟨fuel,_,rfl,⟨tip,header,body,state,isTip,Option.not_isSome_iff_eq_none.mp unlisted,isHeader,
                disconnected,rfl⟩,done⟩

structure Unlisted (lib : Externals F) (world : World) (db next : Db F) (c : Connected) : Prop where
  top : db.connected = c :: next.connected
  state : ∃ header body, disconnectTip lib db.state header body = .ok next.state
  archive : next.archive = db.archive
  fed : Fed lib world next

theorem Fed.unlists {next : Db F} (fed : Fed lib world db) (rest : UnlistedQuiet quiet lib db)
    (unlists : Unlists lib db next) : ∃ c, Unlisted lib world db next c ∧ quiet c ∧ UnlistedQuiet quiet lib next := by
  obtain ⟨tip,header,body,state,isTip,unlisted,isHeader,disconnected,rfl⟩ := unlists
  obtain ⟨c,below,isTop,rfl,isHash,active⟩ := fed.toActive.disconnectBlock isTip isHeader
    (disconnectSource disconnected).previous
  have isUnlisted_ : isUnlisted lib db c = true := by
    rw [isUnlisted,isHash,unlisted]
    rfl
  rw [UnlistedQuiet,isTop,List.takeWhile_cons_of_pos isUnlisted_] at rest
  have given := fed.given
  rw [isTop] at given ⊢
  refine ⟨c,⟨isTop,⟨c.header,body,disconnected⟩,rfl,active,fed.complete,?_⟩,rest c List.mem_cons_self,
    fun d mem => rest d (List.mem_cons_of_mem c mem)⟩
  cases given with
  | next earlier => exact earlier

/- What stays true when a quiet block is disconnected without its peg data. -/
structure UnlistRule (lib : Externals F) (ctxt : BatchVerificationContext) (prove : F → List Hash → Except Text UtreexoProof)
    (world : World) (quiet : Connected → Prop) (R : Db F → Prop) : Prop extends FedRule lib ctxt prove world R where
  unlists : ∀ {db next c}, R db → Unlisted lib world db next c → quiet c → R next

theorem UnlistRule.unlist {fuel : Nat} (rule : UnlistRule lib ctxt prove world quiet R) (holds : R db)
    (rest : UnlistedQuiet quiet lib db) (done : disconnectToListed lib fuel db = .ok db') :
    R db' ∧ db'.archive = db.archive := by
  induction fuel generalizing db with
  | zero =>
      rcases unlistRound done with rfl | ⟨_,_,again,_⟩
      · exact ⟨holds,rfl⟩
      · cases again
  | succ fuel ih =>
      rcases unlistRound done with rfl | ⟨_,next,again,unlists,done⟩
      · exact ⟨holds,rfl⟩
      · cases again
        obtain ⟨c,unlisted,isQuiet,rest⟩ := (rule.fed holds).unlists rest unlists
        obtain ⟨last,isArchive⟩ := ih (rule.unlists holds unlisted isQuiet) rest done
        exact ⟨last,isArchive.trans unlisted.archive⟩

def NoEvents (c : Connected) : Prop := c.twoWayPegData.events = []

def NoEffects (c : Connected) : Prop := c.effects = false

theorem Numbered.unlists {next : Db F} {c : Connected} (numbered : Numbered lib world db)
    (unlisted : Unlisted lib world db next c) (none : NoEvents c) : Numbered lib world next := by
  obtain ⟨isTop,⟨header,body,disconnected⟩,_,fed⟩ := unlisted
  have tables := disconnectBlockMarks disconnected
  obtain ⟨_,deposits,reports⟩ := numbered
  rw [isTop] at deposits reports
  refine ⟨fed,?_,?_⟩
  · rwa [tables.deposits,← marksQuiet (lastOfQuiet none)]
  · rwa [tables.reports,← marksQuiet (lastOfQuiet none)]

theorem Recorded.unlists {next : Db F} {c : Connected} (recorded : Recorded lib world db)
    (unlisted : Unlisted lib world db next c) (none : NoEffects c) : Recorded lib world next := by
  obtain ⟨numbered,expiries,index,booked,quiets⟩ := recorded
  have continues := numbered.unlists unlisted (quiets c (unlisted.top ▸ List.mem_cons_self) none)
  obtain ⟨isTop,⟨header,body,disconnected⟩,_,_⟩ := unlisted
  have tables := disconnectBlockMarks disconnected
  rw [isTop] at expiries index booked
  have other {h : Nat} (effects : c.effects = true) : h ≠ next.connected.length := by
    cases none.symm.trans effects
  refine ⟨continues,fun found => ?_,fun found => ?_,?_,fun d mem => ?_⟩
  · exact (expiries (tables.expiries ▸ found)).lower other
  · exact (index (tables.index ▸ found)).lower other
  · rw [bookSame (disconnectSource disconnected).pegs]
    exact booked.quiet none
  · exact quiets d (isTop ▸ List.mem_cons_of_mem c mem)

theorem numberedRule : UnlistRule lib ctxt prove world NoEvents (Numbered lib world) :=
  ⟨numberedFed,fun numbered unlisted none => numbered.unlists unlisted none⟩

theorem recordedRule : UnlistRule lib ctxt prove world NoEffects (Recorded lib world) :=
  ⟨recordedFed,fun recorded unlisted none => recorded.unlists unlisted none⟩

theorem Recorded.unlisting {before after : Db F} (recorded : Recorded lib world db) (rest : UnlistedQuiet NoEffects lib db)
    (earlier : Relation.ReflTransGen (Unlists lib) db before) (one : Unlists lib before after) :
    TakesPegBack lib before after := by
  have reached : Recorded lib world before ∧ UnlistedQuiet NoEffects lib before := by
    clear one
    induction earlier with
    | refl => exact ⟨recorded,rest⟩
    | tail _ round ih =>
        obtain ⟨c,unlisted,none,rest⟩ := ih.1.toFed.unlists ih.2 round
        exact ⟨ih.1.unlists unlisted none,rest⟩
  obtain ⟨c,unlisted,none,_⟩ := reached.1.toFed.unlists reached.2 one
  exact ⟨⟨c,unlisted.top,.inl none⟩,(reached.1.unlists unlisted none).covered⟩

end Unlisted

section Runs

def storesMainHeader : ArchiveOp → Bool
  | .putMainHeaderInfo _ => true
  | _ => false

/- The changes of tip, and what else is put into the archive. A main-chain header is stored with the contents of its block. -/
inductive PegStep where
  | connectTip_ (header : Header) (body : Body) (twoWayPegData : TwoWayPegData) (rpc : RpcReplies)
  | disconnectTip_
  | reorgToTip (newTip : Tip) (rpc : BlockHash → RpcReplies)
  | mainchainBlockEvent (rpc : BlockHash → RpcReplies)
  | storeMainBlock (info : BlockHeaderInfo) (blockInfo : BlockInfo)
  | other (op : { op : ArchiveOp // storesMainHeader op = false })

variable (lib : Externals F) (ctxt : BatchVerificationContext) (prove : F → List Hash → Except Text UtreexoProof)

def storeMainBlock (archive : Archive F) (info : BlockHeaderInfo) (blockInfo : BlockInfo) : Except ArchiveError (Archive F) := do
  let archive ← archive.putMainHeaderInfo info
  archive.putMainBlockInfo info.blockHash blockInfo

def PegStep.apply (db : Db F) : PegStep → Db F
  | .connectTip_ header body twoWayPegData rpc =>
      (NetTask.connectTip_ lib ctxt prove db header body twoWayPegData rpc).toOption.getD db
  | .disconnectTip_ => (NetTask.disconnectTip_ lib prove db).toOption.getD db
  | .reorgToTip newTip rpc => (NetTask.reorgToTip lib ctxt prove db newTip rpc).1
  | .mainchainBlockEvent rpc => (handleMainchainBlockEvent lib ctxt prove db rpc).1
  | .storeMainBlock info blockInfo =>
      match NetTask.storeMainBlock db.archive info blockInfo with
      | .ok archive => { db with archive }
      | .error _ => db
  | .other op =>
      match op.1.apply lib db.archive with
      | .ok archive => { db with archive }
      | .error _ => db

def runPegs (steps : List PegStep) : Db F := steps.foldl (PegStep.apply lib ctxt prove) (Db.new F)

def Dealt (world : World) (db : Db F) (header : Header) (data : TwoWayPegData) : Prop :=
  ∃ own below, Walk db.archive.mainNext (namedMain db.connected) below ∧
    Walk db.archive.mainNext (some header.prevMainHash) (own ++ below) ∧
    data.blockInfo = (own.map (eventsOf world)).reverse

/- What the callers see to: hashes name what they are computed from, a block is connected with the data dealt to it, and a
tip to reorganise to is verified. -/
def PegStep.Called (world : World) (db : Db F) : PegStep → Prop
  | .connectTip_ header _ data _ => header = world.header (header.hash lib) ∧ Dealt world db header data
  | .reorgToTip newTip _ => db.archive.verifiedAt newTip.blockHash newTip.mainBlockHash
  | .storeMainBlock info blockInfo => world.NamesMain info ∧ blockInfo = world.mainInfo info.blockHash
  | .other op => op.1.Names lib world
  | _ => True

/- A first block with events stays connected, and an event disconnects quiet blocks only. -/
def PegStep.Keeps (quiet : Connected → Prop) (db : Db F) : PegStep → Prop
  | .disconnectTip_ => FirstQuiet db.connected
  | .reorgToTip newTip _ => KeepsFirst lib db newTip
  | .mainchainBlockEvent _ => UnlistedQuiet quiet lib db ∧
      ∀ db' newTip, disconnectedToListed lib db = .ok db' → bestTip db'.archive = some newTip → KeepsFirst lib db' newTip
  | _ => True

def PegStep.KeepsEffects (db : Db F) (step : PegStep) : Prop := step.Keeps lib NoEffects db

def PegStep.KeepsEvents (db : Db F) (step : PegStep) : Prop := step.Keeps lib NoEvents db

inductive LeavesTip (db : Db F) : PegStep → Db F → Db F → Prop
  | disconnectTip_ {after : Db F} (done : NetTask.disconnectTip_ lib prove db = .ok after) :
      LeavesTip db .disconnectTip_ db after
  | reorgToTip {newTip : Tip} {rpc : BlockHash → RpcReplies} {before after : Db F}
      (unwinds : Unwinds lib prove db newTip before after) : LeavesTip db (.reorgToTip newTip rpc) before after
  | unlisted {rpc : BlockHash → RpcReplies} {before after db' : Db F} (done : disconnectedToListed lib db = .ok db')
      (earlier : Relation.ReflTransGen (Unlists lib) db before) (one : Unlists lib before after) :
      LeavesTip db (.mainchainBlockEvent rpc) before after
  | eventReorg {newTip : Tip} {rpc : BlockHash → RpcReplies} {before after db' : Db F}
      (done : disconnectedToListed lib db = .ok db') (best : bestTip db'.archive = some newTip)
      (unwinds : Unwinds lib prove db' newTip before after) : LeavesTip db (.mainchainBlockEvent rpc) before after

end Runs

section Kept

variable {quiet : Connected → Prop} {R : Db F → Prop}

structure Covers (lib : Externals F) (world : World) (R : Db F → Prop) (db : Db F) : Prop where
  holds : R db
  tips : TipsVerified lib world db.archive

theorem UnlistRule.coversReorg (rule : UnlistRule lib ctxt prove world quiet R) (covers : Covers lib world R db)
    (silent : RootSilent world) {v : MainHash} (committed : db.archive.Committed newTip.blockHash v)
    (first : KeepsFirst lib db newTip) : Covers lib world R (reorgToTip lib ctxt prove db newTip rpc).1 :=
  ⟨rule.reorg covers.holds silent committed first,(verifiedClosed.reorg covers.tips.trees.sides ⟨.bodies,covers.tips⟩).2⟩

theorem bestTipListed (best : bestTip archive = some newTip) : ∃ info,
    archive.sideTips.orderedSidechainTips.tryGet info = some newTip.blockHash ∧ info.mainBlockHash = newTip.mainBlockHash := by
  simp only [bestTip,SideTips.bestSideTip,Option.map_map,Option.map_eq_some_iff] at best
  obtain ⟨⟨info,b⟩,isLast,rfl⟩ := best
  exact ⟨info,Table.lastFound isLast,rfl⟩

theorem UnlistRule.coversEvent (rule : UnlistRule lib ctxt prove world quiet R) (covers : Covers lib world R db)
    (silent : RootSilent world) (keeps : (PegStep.mainchainBlockEvent rpc).Keeps lib quiet db) :
    Covers lib world R (handleMainchainBlockEvent lib ctxt prove db rpc).1 := by
  obtain ⟨rest,first⟩ := keeps
  unfold handleMainchainBlockEvent
  split
  · exact covers
  · next db' done =>
      obtain ⟨holds,same⟩ := rule.unlist covers.holds rest done
      have continues : Covers lib world R db' := ⟨holds,same ▸ covers.tips⟩
      split
      · exact continues
      · next newTip best =>
          obtain ⟨info,isListed,_⟩ := bestTipListed best
          exact rule.coversReorg continues silent (continues.tips.tips info _ isListed) (first db' newTip done best)

theorem UnlistRule.coversLearn (rule : UnlistRule lib ctxt prove world quiet R) (covers : Covers lib world R db)
    (tips : TipsVerified lib world archive) (grown : db.archive.Grown archive) (complete : Complete archive) :
    Covers lib world R { db with archive } :=
  ⟨rule.learn covers.holds ((rule.fed covers.holds).learn tips.trees grown complete),tips⟩

theorem storedComplete {info : BlockHeaderInfo} {blockInfo : BlockInfo} {first second : Archive F} (complete : Complete archive)
    (isFirst : archive.putMainHeaderInfo info = .ok first)
    (isSecond : first.putMainBlockInfo info.blockHash blockInfo = .ok second) : Complete second := by
  obtain ⟨_,_,_,_,_,_,_,_,_,rfl⟩ := putMainHeaderSource isFirst
  have put (m : MainHash) (has : ((archive.mainHeaderInfos.put info.blockHash info).tryGet m).isSome = true) :
      ((archive.mainBlockInfos.put info.blockHash blockInfo).tryGet m).isSome = true := by
    rw [Table.tryGetPut] at has ⊢
    split at has
    · next here => rw [if_pos here]; rfl
    · next other =>
        rw [if_neg other]
        exact complete m has
  obtain ⟨_,_,_,⟨_,rfl⟩ | ⟨_,_,_,_,_,_,rfl⟩⟩ := putMainInfoSource isSecond
  · exact put
  · exact put

theorem stepComplete {archive' : Archive F} {op : ArchiveOp} (complete : Complete archive) (other : storesMainHeader op = false)
    (ok : op.apply lib archive = .ok archive') : Complete archive' := by
  cases op with
  | handleBlockEvent event =>
      cases event with
      | connectBlock info blockInfo =>
          obtain ⟨first,second,_,_,isFirst,isSecond,_,_,rfl⟩ := connectEventSource ok
          have stored := storedComplete complete isFirst isSecond
          exact stored
      | disconnectBlock m =>
          obtain ⟨_,_,_,_,_,_,_,_,rfl⟩ := disconnectEventSource ok
          exact complete
  | putMainHeaderInfo info => cases other
  | putMainBlockInfo m blockInfo =>
      have more (n : MainHash) (has : (archive.mainHeaderInfos.tryGet n).isSome = true) :
          ((archive.mainBlockInfos.put m blockInfo).tryGet n).isSome = true := by
        rw [Table.tryGetPut]
        split
        · rfl
        · exact complete n has
      obtain ⟨_,_,_,⟨_,rfl⟩ | ⟨_,_,_,_,_,_,rfl⟩⟩ := putMainInfoSource ok
      · exact more
      · exact more
  | putHeader header =>
      obtain ⟨_,_,_,_,_,_,_,_,_,_,rfl⟩ := putHeaderSource ok
      exact complete
  | putBody b body =>
      obtain ⟨_,_,rfl⟩ := putBodyFrame ok
      exact complete
  | deleteBody b =>
      obtain ⟨_,rfl⟩ := disconnectQueueFrame ok
      exact complete

theorem UnlistRule.coversConnect {header : Header} {body : Body} {data : TwoWayPegData} {replies : RpcReplies}
    (rule : UnlistRule lib ctxt prove world quiet R) (covers : Covers lib world R db)
    (names : header = world.header (header.hash lib)) (dealt : Dealt world db header data)
    (source : ConnectTipSource lib ctxt db header body data replies db') : Covers lib world R db' := by
  obtain ⟨own,below,isBelow,isLine,isData⟩ := dealt
  have fed := (rule.fed covers.holds).connect names isBelow isLine isData source
  refine ⟨rule.connect covers.holds fed source,?_⟩
  obtain ⟨stored,kept,isHeader,isBody,isArchive⟩ := source.archive
  have isNamed : (ArchiveOp.putHeader header).Names lib world := names
  have put := (covers.tips.step isNamed isHeader).putBody isBody
  rw [isArchive]
  exact put.grow put.trees.putAccumulator .bodies (fun _ _ found => found)

theorem UnlistRule.coversMain {info : BlockHeaderInfo} {blockInfo : BlockInfo}
    (rule : UnlistRule lib ctxt prove world quiet R) (covers : Covers lib world R db) (names : world.NamesMain info)
    (contents : blockInfo = world.mainInfo info.blockHash) (ok : storeMainBlock db.archive info blockInfo = .ok archive) :
    Covers lib world R { db with archive } := by
  simp only [storeMainBlock,bindOk] at ok
  obtain ⟨first,isFirst,isSecond⟩ := ok
  have namesHeader : (ArchiveOp.putMainHeaderInfo info).Names lib world := names
  have namesInfo : (ArchiveOp.putMainBlockInfo info.blockHash blockInfo).Names lib world := contents
  have middle := covers.tips.step namesHeader isFirst
  have grown := (covers.tips.trees.stepGrown namesHeader isFirst).trans (middle.trees.stepGrown namesInfo isSecond)
  exact rule.coversLearn covers (middle.step namesInfo isSecond) grown
    (storedComplete (rule.fed covers.holds).complete isFirst isSecond)

theorem UnlistRule.step {step : PegStep} (rule : UnlistRule lib ctxt prove world quiet R) (covers : Covers lib world R db)
    (silent : RootSilent world) (called : step.Called lib world db) (keeps : step.Keeps lib quiet db) :
    Covers lib world R (step.apply lib ctxt prove db) := by
  cases step with
  | connectTip_ header body data replies =>
      unfold PegStep.apply
      dsimp only
      cases done : connectTip_ lib ctxt prove db header body data replies with
      | error err => exact covers
      | ok next => exact rule.coversConnect covers called.1 called.2 (connectTipSource done)
  | disconnectTip_ =>
      unfold PegStep.apply
      dsimp only
      cases done : disconnectTip_ lib prove db with
      | error err => exact covers
      | ok next =>
          obtain ⟨_,_,source⟩ := disconnectTipSource done
          refine ⟨rule.disconnect covers.holds keeps done,?_⟩
          show TipsVerified lib world next.archive
          rw [source.archive]
          exact covers.tips
  | reorgToTip newTip rpc =>
      exact rule.coversReorg covers silent ((covers.tips.trees.results _ _).mp called) keeps
  | mainchainBlockEvent rpc => exact rule.coversEvent covers silent keeps
  | storeMainBlock info blockInfo =>
      unfold PegStep.apply
      dsimp only
      cases stored : NetTask.storeMainBlock db.archive info blockInfo with
      | error err => exact covers
      | ok archive => exact rule.coversMain covers called.1 called.2 stored
  | other op =>
      obtain ⟨op,other⟩ := op
      unfold PegStep.apply
      dsimp only
      cases applied : op.apply lib db.archive with
      | error err => exact covers
      | ok archive =>
          exact rule.coversLearn covers (covers.tips.step called applied) (covers.tips.trees.stepGrown called applied)
            (stepComplete (rule.fed covers.holds).complete other applied)

theorem tipsNew : TipsVerified lib world (Db.new F).archive := by
  refine ⟨.new,fun info b found => ?_⟩
  rw [show (Db.new F).archive.sideTips.orderedSidechainTips = ∅ from rfl,Table.tryGetEmpty] at found
  cases found

theorem Recorded.new : Recorded lib world (Db.new F) := by
  have empty {V : Type} (k : Nat) (v : V) : (∅ : Table Nat V).tryGet k ≠ some v := by
    rw [Table.tryGetEmpty]
    exact nofun
  have active : Active lib world (Db.new F) := ⟨.new,.empty,rfl,fun _ mem => absurd mem List.not_mem_nil⟩
  have complete : Complete (Db.new F).archive := by
    intro m has
    rw [show (Db.new F).archive.mainHeaderInfos = ∅ from rfl,Table.tryGetEmpty] at has
    cases has
  have noBundle (m : M6id) : (Db.new F).state.withdrawalBundles.tryGet m = none := Table.tryGetEmpty
  have booked : Booked (Db.new F).connected (Db.new F).state.book := by
    refine .empty (fun m => ?_) rfl rfl
    simp only [PegTables.book,noBundle,Option.map_none]
  exact ⟨⟨⟨active,complete,.empty⟩,.empty,.empty⟩,fun found => absurd found (empty _ _),
    fun found => absurd found (empty _ _),booked,fun c mem => absurd mem List.not_mem_nil⟩

theorem UnlistRule.run {steps : List PegStep} (rule : UnlistRule lib ctxt prove world quiet R) (new : R (Db.new F))
    (silent : RootSilent world)
    (called : ∀ before step after, steps = before ++ step :: after → step.Called lib world (runPegs lib ctxt prove before))
    (keeps : ∀ before step after, steps = before ++ step :: after → step.Keeps lib quiet (runPegs lib ctxt prove before)) :
    R (runPegs lib ctxt prove steps) := by
  have covers : Covers lib world R (runPegs lib ctxt prove steps) :=
    foldlPrefix (P := Covers lib world R) ⟨new,tipsNew⟩ (fun before step after split covers =>
      rule.step covers silent (called before step after split) (keeps before step after split))
  exact covers.holds

theorem Recorded.leaves {step : PegStep} {before after : Db F} (recorded : Recorded lib world db)
    (ctxt : BatchVerificationContext) (keeps : step.KeepsEffects lib db) (leaves : LeavesTip lib prove db step before after) :
    TakesPegBack lib before after := by
  cases leaves with
  | disconnectTip_ done => exact recorded.takesBack keeps done
  | reorgToTip unwinds => exact recorded.unwinds ctxt keeps unwinds
  | unlisted done earlier one => exact recorded.unlisting keeps.1 earlier one
  | @eventReorg newTip _ _ _ db' done best unwinds =>
      have rule : UnlistRule lib ctxt prove world NoEffects (Recorded lib world) := recordedRule
      exact (rule.unlist recorded keeps.1 done).1.unwinds ctxt (keeps.2 db' newTip done best) unwinds

/- Peg effects are recorded for heights of the active chain only, and with every tip that is left its own are taken back. -/
theorem pegEffectsCovered {steps : List PegStep} (silent : RootSilent world)
    (called : ∀ before step after, steps = before ++ step :: after → step.Called lib world (runPegs lib ctxt prove before))
    (keeps : ∀ before step after, steps = before ++ step :: after → step.KeepsEffects lib (runPegs lib ctxt prove before)) :
    EffectsCovered (runPegs lib ctxt prove steps).state ∧ BundlesCovered (runPegs lib ctxt prove steps).state ∧
      ∀ earlier step later before after, steps = earlier ++ step :: later →
        LeavesTip lib prove (runPegs lib ctxt prove earlier) step before after → TakesPegBack lib before after := by
  have recorded : Recorded lib world (runPegs lib ctxt prove steps) := recordedRule.run .new silent called keeps
  refine ⟨recorded.covered.1,recorded.covered.2,fun earlier step later before after split leaves => ?_⟩
  have reached : Recorded lib world (runPegs lib ctxt prove earlier) := by
    refine recordedRule.run .new silent (fun b s a inner => called b s (a ++ step :: later) ?_)
      (fun b s a inner => keeps b s (a ++ step :: later) ?_)
    · rw [split,inner,List.append_assoc,List.cons_append]
    · rw [split,inner,List.append_assoc,List.cons_append]
  exact reached.leaves ctxt (keeps earlier step later split) leaves

end Kept

section Left

open Reference

def chainWorld (headers : List Header) (events : List (List BlockEvent)) : World where
  header b := (headers.find? (fun header => header.hash externals = b)).getD minedHeader
  mainHeader m := ⟨m,m - 1,m.toNat - 1,1⟩
  mainInfo m := ⟨if 2 ≤ m.toNat then (headers[m.toNat - 2]?).map (·.hash externals) else none,
    (events[m.toNat - 1]?).getD []⟩

theorem chainSilent {headers : List Header} {events : List (List BlockEvent)} : RootSilent (chainWorld headers events) := by
  intro m first
  have isFirst : m - 1#256 = 0#256 := first
  have low : ¬ 2 ≤ m.toNat := by bv_omega
  exact if_neg low

def connectMain (world : World) (m : MainHash) : PegStep :=
  .other ⟨.handleBlockEvent (.connectBlock (world.mainHeader m) (world.mainInfo m)),rfl⟩

def learnBlock (header : Header) : List PegStep :=
  [.other ⟨.putHeader header,rfl⟩,.other ⟨.putBody (header.hash externals) minedBody,rfl⟩]

def aliceDeposit : BlockEvent := .deposit (deposit 1 (coin alice 1000))

def calledCheck (world : World) (db : Db Forest) : PegStep → Bool
  | .connectTip_ _ _ _ _ => false
  | .reorgToTip newTip _ => (db.archive.getBmmResults newTip.blockHash).tryGet newTip.mainBlockHash = some .verified
  | .storeMainBlock info blockInfo => (ArchiveOp.putMainHeaderInfo info).Names externals world ∧
      (ArchiveOp.putMainBlockInfo info.blockHash blockInfo).Names externals world
  | .other op => op.1.Names externals world
  | _ => true

def effectsCheck (db : Db Forest) : PegStep → Bool
  | .disconnectTip_ => db.connected.length ≠ 1
  | .reorgToTip _ _ => db.connected.isEmpty
  | .mainchainBlockEvent _ => false
  | _ => true

theorem calledChecked {world : World} {steps : List PegStep}
    (checked : foldlEvery (PegStep.apply externals context noProof) (calledCheck world) steps (Db.new Forest) = true)
    (before : List PegStep) (step : PegStep) (after : List PegStep) (split : steps = before ++ step :: after) :
    step.Called externals world (runPegs externals context noProof before) := by
  subst split
  have here : calledCheck world (runPegs externals context noProof before) step = true := foldlEveryTaken checked
  cases step with
  | connectTip_ header body data rpc => cases here
  | reorgToTip newTip rpc =>
      simp only [calledCheck,decide_eq_true_eq] at here
      exact here
  | storeMainBlock info blockInfo =>
      simp only [calledCheck,decide_eq_true_eq] at here
      exact here
  | other op =>
      simp only [calledCheck,decide_eq_true_eq] at here
      exact here
  | disconnectTip_ => trivial
  | mainchainBlockEvent => trivial

theorem effectsChecked {quiet : Connected → Prop} {steps : List PegStep}
    (checked : foldlEvery (PegStep.apply externals context noProof) effectsCheck steps (Db.new Forest) = true)
    (before : List PegStep) (step : PegStep) (after : List PegStep) (split : steps = before ++ step :: after) :
    step.Keeps externals quiet (runPegs externals context noProof before) := by
  subst split
  have here : effectsCheck (runPegs externals context noProof before) step = true := foldlEveryTaken checked
  cases step with
  | disconnectTip_ =>
      intro c single
      rw [effectsCheck,single] at here
      cases here
  | reorgToTip newTip rpc =>
      intro _ c isLast
      rw [List.isEmpty_iff.mp here] at isLast
      cases isLast
  | mainchainBlockEvent rpc => cases here
  | connectTip_ header body data rpc => trivial
  | storeMainBlock info blockInfo => trivial
  | other op => trivial

def depositWorld : World := chainWorld [minedHeader] [[aliceDeposit]]

def depositConnected : List PegStep :=
  [connectMain depositWorld 1,.storeMainBlock (depositWorld.mainHeader 2) (depositWorld.mainInfo 2)] ++
    learnBlock minedHeader ++ [.reorgToTip ⟨minedHeader.hash externals,2⟩ (fun _ => noRpc)]

def depositLeft : List PegStep := depositConnected ++ [.mainchainBlockEvent (fun _ => noRpc)]

theorem eventLeaves {rpc : BlockHash → RpcReplies} (done : disconnectedToListed lib db = .ok db')
    (unlisted : db'.archive.sideTips.orderedSidechainTips.entries = []) :
    (handleMainchainBlockEvent lib ctxt prove db rpc).1 = db' := by
  have noTip : bestTip db'.archive = none := by
    rw [bestTip,SideTips.bestSideTip,Table.last,unlisted]
    rfl
  simp only [handleMainchainBlockEvent,done,noTip]

/- The event disconnects the only block, and its deposit stays recorded. -/
theorem eventLeavesDeposit : ∃ (world : World) (steps : List PegStep), RootSilent world ∧
    (∀ before step after, steps = before ++ step :: after →
      step.Called externals world (runPegs externals context noProof before)) ∧
    ¬ EffectsCovered (runPegs externals context noProof steps).state := by
  refine ⟨depositWorld,depositLeft,chainSilent,calledChecked (by decide +kernel),fun covered => ?_⟩
  have disconnects : (disconnectedToListed externals (runPegs externals context noProof depositConnected)).isOk = true := by
    decide +kernel
  obtain ⟨db,done⟩ := isOkExists disconnects
  have left : (disconnectedToListed externals (runPegs externals context noProof depositConnected)).toOption.map
      (fun db => (db.archive.sideTips.orderedSidechainTips.entries,db.state.height)) = some ([],none) := by decide +kernel
  have recorded : (disconnectedToListed externals (runPegs externals context noProof depositConnected)).toOption.map
      (fun db => db.state.depositBlocks.entries.map (·.2)) = some [(1,0)] := by decide +kernel
  rw [done] at left recorded
  obtain ⟨unlisted,noHeight⟩ := Prod.mk.inj (Option.some.inj left)
  obtain ⟨⟨k,v⟩,isOnly,_⟩ := List.map_eq_singleton_iff.mp (Option.some.inj recorded)
  have ends : runPegs externals context noProof depositLeft = db := by
    rw [depositLeft,runPegs,List.foldl_append]
    exact eventLeaves done unlisted
  rw [ends] at covered
  have found : db.state.depositBlocks.tryGet k = some v := Table.memEntries.mp (isOnly ▸ List.mem_cons_self)
  obtain ⟨top,isHeight,_⟩ := covered.deposits found
  cases noHeight.symm.trans isHeight

def firstConnected : Db Forest :=
  runPegs externals context noProof ([1,2].map (connectMain (chainWorld [minedHeader] [])) ++ learnBlock minedHeader ++
    [.reorgToTip ⟨minedHeader.hash externals,2⟩ (fun _ => noRpc)])

def secondHeader : Header := { mine firstConnected.state minedBody with prevMainHash := 2 }

def secondWorld : World := chainWorld [minedHeader,secondHeader] [[],[aliceDeposit]]

def secondUndone : List PegStep :=
  [1,2,3].map (connectMain secondWorld) ++ learnBlock minedHeader ++ learnBlock secondHeader ++
    [.reorgToTip ⟨secondHeader.hash externals,3⟩ (fun _ => noRpc),.disconnectTip_]

theorem secondUndoes : EffectsCovered (runPegs externals context noProof secondUndone).state ∧
    (runPegs externals context noProof secondUndone.dropLast).state.depositBlocks.entries.map (·.2) = [(2,1)] ∧
    ∃ after, TakesPegBack externals (runPegs externals context noProof secondUndone.dropLast) after := by
  have called : foldlEvery (PegStep.apply externals context noProof) (calledCheck secondWorld) secondUndone
      (Db.new Forest) = true := by decide +kernel
  have kept : foldlEvery (PegStep.apply externals context noProof) effectsCheck secondUndone (Db.new Forest) = true := by
    decide +kernel
  have disconnects : (NetTask.disconnectTip_ externals noProof
      (runPegs externals context noProof secondUndone.dropLast)).isOk = true := by decide +kernel
  obtain ⟨after,done⟩ := isOkExists disconnects
  obtain ⟨covered,_,takesBack⟩ := pegEffectsCovered chainSilent (calledChecked called) (effectsChecked kept)
  exact ⟨covered,by decide +kernel,after,takesBack secondUndone.dropLast .disconnectTip_ [] _ _ rfl (.disconnectTip_ done)⟩

end Left

end Coinshift.NetTask
