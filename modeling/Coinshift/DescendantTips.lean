import Coinshift.BlockService
import Coinshift.BodyRequests
import Coinshift.Waiters

/-! The bodies that peers send, and the tips that wait for them.
A body is stored; a tip whose blocks lack another one waits for the lowest that is missing, with the peer that sent it.
When that body comes the tip is looked at again, and it or the part of its chain that has bodies is announced. -/
namespace Coinshift.NetTask
open Checked Lineage Archive Peer

variable {F A : Type} {lib : Externals F} {ctxt : BatchVerificationContext}
  {prove : F → List Hash → Except Text UtreexoProof} {world : World} {db : Db F} {archive : Archive F}
  {header : Header} {body : Body} {b : BlockHash} {h : Nat}

section Handler

inductive Notification (A : Type) where
  | removed (addr : A)
  | bodiesAvailable (peerStateId : Hash) (addr : A)
  | newTipReady (tip : Tip) (addr : A)
  deriving DecidableEq, Repr

/- The tips wait for the lowest body they lack. A panic stops the task. -/
structure BodyNet (F A : Type) extends Db F where
  descendantTips : Waiters BlockHash (Tip × A)
  -- oldest first
  sent : List (Notification A)
  stopped : Bool

def BodyNet.new (F A : Type) : BodyNet F A := ⟨.new F,.empty _ _,[],false⟩

def BodyNet.notify (net : BodyNet F A) (notification : Notification A) : BodyNet F A :=
  { net with sent := net.sent ++ [notification] }

def earliestMissingBody (archive : Archive F) (blockHash : BlockHash) (start : Nat) :
    Except ArchiveError (Option BlockHash) :=
  (firstMissing archive (archive.headers.entries.length + 1) 1 (Position.new blockHash start)).map List.head?

def heightAfter (archive : Archive F) : Option BlockHash → Except ArchiveError Nat
  | none => pure 0
  | some ancestor => (archive.getHeight ancestor).map (· + 1)

def verificationOn (archive : Archive F) (mainHash : MainHash) :
    List (MainHash × BmmResult) → Except ArchiveError (Option MainHash)
  | [] => pure none
  | (_,.failed) :: rest => verificationOn archive mainHash rest
  | (main,.verified) :: rest => do
      let above ← archive.isMainDescendant main mainHash
      if above then pure (some main) else verificationOn archive mainHash rest

def tipBelow (archive : Archive F) (missing : BlockHash) : Except ArchiveError (Option Tip) := do
  let header ← archive.getHeader missing
  match header.prevSideHash with
  | none => pure none
  | some parent => do
      let main ← archive.getBestMainVerification parent
      pure (some ⟨parent,main⟩)

def forkPoint (archive : Archive F) (blockHash : BlockHash) : Option Tip → Except ArchiveError (Option BlockHash)
  | none => pure none
  | some tip => archive.lastCommonAncestor blockHash tip.blockHash

def earliestMissingOf (archive : Archive F) (tip : Option Tip) (descendantTip : Tip) :
    Except ArchiveError (Option BlockHash) := do
  let ancestor ← forkPoint archive descendantTip.blockHash tip
  let start ← heightAfter archive ancestor
  earliestMissingBody archive descendantTip.blockHash start

variable [DecidableEq A]

def noteBodies (net : BodyNet F A) (addr : A) (request : GetBlockRequest) (descendantTip : Tip) (peerStateId : Hash) :
    Except ArchiveError (BodyNet F A) := do
  let start ← heightAfter net.archive request.ancestor
  match ← earliestMissingBody net.archive request.blockHash start with
  | some missing => pure { net with descendantTips := net.descendantTips.register missing (descendantTip,addr) }
  | none => pure (net.notify (.bodiesAvailable peerStateId addr))

def announceBetter (net : BodyNet F A) (tip : Option Tip) (nextTip : Tip) (addr : A) :
    BodyNet F A × Except ArchiveError Unit :=
  match isBetter net.archive tip nextTip with
  | .error err => (net,.error err)
  | .ok false => (net,.ok ())
  | .ok true => (net.notify (.newTipReady nextTip addr),.ok ())

def followTip (net : BodyNet F A) (tip : Option Tip) (waiting : Tip × A) : BodyNet F A × Except ArchiveError Unit :=
  match earliestMissingOf net.archive tip waiting.1 with
  | .error err => (net,.error err)
  | .ok none => announceBetter net tip waiting.1 waiting.2
  | .ok (some missing) =>
      let net := { net with descendantTips := net.descendantTips.register missing waiting }
      match tipBelow net.archive missing with
      | .error err => (net,.error err)
      | .ok none => (net,.ok ())
      | .ok (some nextTip) => announceBetter net tip nextTip waiting.2

/- An error leaves the tips that are still to be looked at out. -/
def followTips (tip : Option Tip) : BodyNet F A → List (Tip × A) → BodyNet F A × Except ArchiveError Unit
  | net, [] => (net,.ok ())
  | net, waiting :: rest =>
      match followTip net tip waiting with
      | (net,.error err) => (net,.error err)
      | (net,.ok _) => followTips tip net rest

/- A body has been stored: its block is announced if it is on the tip, and the tips that waited for it are taken. -/
def followUp (net : BodyNet F A) (addr : A) (header : Header) (blockHash : BlockHash) (descendantTip : Tip)
    (results : List (MainHash × BmmResult)) (waiting : List (Tip × A)) : BodyNet F A × Except NodeError Unit :=
  match stateTip net.toDb,verificationOn net.archive descendantTip.mainBlockHash results with
  | .error err, _ | .ok _, .error err => (net,.error (.archive err))
  | .ok _, .ok none => (net,.error .panic)
  | .ok tip, .ok (some mainBlockHash) =>
      let net :=
        if header.prevSideHash = tip.map (·.blockHash) then net.notify (.newTipReady ⟨blockHash,mainBlockHash⟩ addr)
        else net
      let (net,result) := followTips tip { net with descendantTips := net.descendantTips.remove blockHash } waiting
      (net,result.mapError .archive)

variable (lib) in
/- The block that was asked for. `results` and `waiting` are the verifications of the block and the tips that wait for it,
in the order in which the maps give them. -/
def handleBlock (net : BodyNet F A) (addr : A) (request : GetBlockRequest) (header : Header) (body : Body)
    (results : List (MainHash × BmmResult)) (waiting : List (Tip × A)) : BodyNet F A × Except NodeError Unit :=
  match request.descendantTip,request.peerStateId with
  | some descendantTip,some peerStateId =>
      if header.hash lib ≠ request.blockHash then (net.notify (.removed addr),.ok ())
      else
        match net.archive.putBody request.blockHash body with
        | .error err => (net,.error (.archive err))
        | .ok archive =>
            let net := { net with archive }
            match noteBodies net addr request descendantTip peerStateId with
            | .error err => (net,.error (.archive err))
            | .ok net => followUp net addr header request.blockHash descendantTip results waiting
  | _,_ => (net.notify (.removed addr),.ok ())

inductive BodyNetStep (A : Type) where
  | block (addr : A) (request : GetBlockRequest) (header : Header) (body : Body) (results : List (MainHash × BmmResult))
      (waiting : List (Tip × A))
  | other (step : ChainStep)

variable (lib ctxt prove) in
/- A peer whose response cannot be handled is dropped. -/
def BodyNetStep.apply (net : BodyNet F A) : BodyNetStep A → BodyNet F A
  | .block addr request header body results waiting =>
      if net.stopped then net
      else if results.isPerm (net.archive.getBmmResults request.blockHash).entries ∧
          waiting.isPerm (net.descendantTips request.blockHash) then
        match handleBlock lib net addr request header body results waiting with
        | (net,.ok _) => net
        | (net,.error .panic) => { net with stopped := true }
        | (net,.error _) => net.notify (.removed addr)
      else net
  | .other step => { net with toDb := step.apply lib ctxt prove net.toDb }

variable (lib ctxt prove) in
def runBodyNet (steps : List (BodyNetStep A)) : BodyNet F A := steps.foldl (BodyNetStep.apply lib ctxt prove) (.new F A)

end Handler

section Missing

structure EarliestMissing (archive : Archive F) (b : BlockHash) (start : Nat) (missing : Option BlockHash) : Prop where
  first : ∀ m, missing = some m → archive.links.Descends m b ∧ archive.containsBody m = false
  below : ∀ a k, archive.links.Descends a b → archive.links.height a = .ok k → start ≤ k →
    (∀ m km, missing = some m → archive.links.height m = .ok km → k < km) → archive.containsBody a = true

theorem SideTree.iterated (sides : archive.SideTree lib world) (known : archive.links.height b = .ok h) (fits : h ≤ maxU32)
    (start : Nat) : ∃ items : List (BlockHash × Header),
      archive.ancestorsRev.take (archive.headers.entries.length + 1) (Position.new b start) = .ok items ∧
      items.length = h + 1 - start ∧
      ∀ i, start + i ≤ h → ∃ a header, items[i]? = some (a,header) ∧ archive.links.Descends a b ∧
        archive.links.height a = .ok (start + i) := by
  obtain ⟨line,isLine,taken⟩ := sides.forward known fits start
  obtain ⟨length,places⟩ := lineForward isLine start
  refine ⟨_,?_,length,fun i bound => ?_⟩
  · have bounded := sides.heightBound (heightOk.mp known)
    rw [taken,List.take_of_length_le (by omega)]
  · obtain ⟨a,item,atIndex,above,isItem⟩ := places i bound
    obtain ⟨a',above',height⟩ := sides.sound.upHeight known (Nat.sub_le h (start + i))
    cases above.symm.trans above'
    simp only [ancestorsRev,headerOf,bindOk,pureOk] at isItem
    obtain ⟨header,_,rfl⟩ := isItem
    rw [Nat.sub_sub_self bound] at height
    exact ⟨a,header,atIndex,⟨h,h - (start + i),known,Nat.sub_le h _,above⟩,height⟩

theorem SideTree.earliestMissing (sides : archive.SideTree lib world) (known : archive.links.height b = .ok h)
    (fits : h ≤ maxU32) (start : Nat) :
    ∃ missing, earliestMissingBody archive b start = .ok missing ∧ EarliestMissing archive b start missing := by
  obtain ⟨items,taken,length,places⟩ := SideTree.iterated sides known fits start
  have placed {a : BlockHash} {k : Nat} (descends : archive.links.Descends a b) (height : archive.links.height a = .ok k)
      (low : start ≤ k) : ∃ header, items[k - start]? = some (a,header) := by
    obtain ⟨k',bound,height',above⟩ := sides.sound.descent descends known
    cases height.symm.trans height'
    obtain ⟨a',header,atIndex,descends',height''⟩ := places (k - start) (by omega)
    rw [Nat.add_sub_cancel' low] at height''
    obtain ⟨_,_,same,above'⟩ := sides.sound.descent descends' known
    cases height''.symm.trans same
    cases above.symm.trans above'
    exact ⟨header,atIndex⟩
  refine ⟨_,by rw [earliestMissingBody,firstMissingTake taken]; rfl,?_⟩
  rw [List.head?_take,if_neg Nat.one_ne_zero,List.head?_filterMap]
  constructor
  · intro m found
    obtain ⟨⟨a,header⟩,mem,isMissing⟩ := List.exists_of_findSome?_eq_some found
    obtain ⟨i,inside,atIndex⟩ := List.getElem_of_mem mem
    obtain ⟨a',header',atIndex',descends,_⟩ := places i (by omega)
    rw [List.getElem?_eq_getElem inside,atIndex] at atIndex'
    cases atIndex'
    dsimp only at isMissing
    split at isMissing
    · cases isMissing
    · next absent =>
        cases isMissing
        exact ⟨descends,Bool.not_eq_true _ |>.mp absent⟩
  · intro a k descends height low lower
    obtain ⟨header,atIndex⟩ := placed descends height low
    cases found : items.findSome? (fun a => if archive.containsBody a.1 then none else some a.1) with
    | none =>
        have stored := List.findSome?_eq_none_iff.mp found _ (List.mem_of_getElem? atIndex)
        dsimp only at stored
        split at stored
        · next has => exact has
        · cases stored
    | some m =>
        obtain ⟨before,⟨missing,header'⟩,after,isSplit,isMissing,earlier⟩ := List.findSome?_eq_some_iff.mp found
        have atPlace : items[before.length]? = some (missing,header') := by
          rw [isSplit,List.getElem?_append_right (Nat.le_refl _),Nat.sub_self]
          rfl
        dsimp only at isMissing
        split at isMissing
        · cases isMissing
        · cases Option.some.inj isMissing
          have inside : before.length < items.length := by
            rw [isSplit,List.length_append,List.length_cons]
            omega
          obtain ⟨m'',_,atIndex',_,heightM⟩ := places before.length (by omega)
          cases atPlace.symm.trans atIndex'
          have under := lower m _ found heightM
          rw [isSplit,List.getElem?_append_left (by omega)] at atIndex
          have stored := earlier _ (List.mem_of_getElem? atIndex)
          dsimp only at stored
          split at stored
          · next has => exact has
          · cases stored

end Missing

section Ready

variable {own : Option Tip} {tip : Tip}

/- A reorganisation can be made to the block: it is known, and bodies are missing on the connected chain at most. -/
structure Ready (lib : Externals F) (db : Db F) (b : BlockHash) : Prop where
  stored : (db.archive.headers.tryGet b).isSome = true
  bodies : ∀ a, db.archive.links.Descends a b → ¬ ConnectedAs lib db.connected a → db.archive.containsBody a = true

theorem earliestKnown {start : Nat} {missing : Option BlockHash} (ok : earliestMissingBody archive b start = .ok missing) :
    ∃ h, archive.links.height b = .ok h := by
  simp only [earliestMissingBody,firstMissing,Forward.next,Forward.batchOf,Position.new,mapOk,bindOk] at ok
  obtain ⟨_,⟨_,⟨_,⟨h,known,_⟩,_⟩,_⟩,_⟩ := ok
  exact ⟨h,known⟩

theorem Active.forkStart (active : Active lib world db) (isOwn : stateTip db = .ok own)
    (known : db.archive.links.height b = .ok h)
    {ancestor : Option BlockHash} {start : Nat}
    (common : forkPoint db.archive b own = .ok ancestor)
    (isStart : heightAfter db.archive ancestor = .ok start) {a : BlockHash} {k : Nat}
    (descends : db.archive.links.Descends a b) (height : db.archive.links.height a = .ok k)
    (apart : ¬ ConnectedAs lib db.connected a) : start ≤ k := by
  have sound := active.trees.sides.sound
  have isTip := stateTipOk isOwn
  cases own with
  | none =>
      cases common
      cases isStart
      exact Nat.zero_le k
  | some tip =>
      obtain ⟨hTip,knownTip⟩ := active.tipKnown isTip.symm
      obtain ⟨_,isResult,highest,_⟩ := lastCommonTotal sound known knownTip
      cases common.symm.trans isResult
      cases ancestor with
      | none =>
          cases isStart
          exact Nat.zero_le k
      | some x =>
          have isHighest := highest x rfl
          simp only [heightAfter,mapOk] at isStart
          obtain ⟨hx,heightX,rfl⟩ := isStart
          refine Nat.lt_of_not_le (fun low => apart ?_)
          have below := sound.descentLine descends isHighest.left height heightX low
          exact (active.ancestors isTip.symm).mpr (sound.descentTrans below isHighest.right)

theorem Active.earliestOf (active : Active lib world db) (fits : db.archive.headers.entries.length ≤ maxU32)
    (isOwn : stateTip db = .ok own) {missing : Option BlockHash}
    (ok : earliestMissingOf db.archive own tip = .ok missing) :
    (missing = none → Ready lib db tip.blockHash) ∧
    ∀ m, missing = some m → db.archive.links.Descends m tip.blockHash ∧ db.archive.containsBody m = false ∧
      ∀ below, tipBelow db.archive m = .ok (some below) → Ready lib db below.blockHash := by
  have sides := active.trees.sides
  simp only [earliestMissingOf,bindOk] at ok
  obtain ⟨ancestor,common,start,isStart,found⟩ := ok
  obtain ⟨h,known⟩ := earliestKnown found
  have bounded := Nat.lt_of_lt_of_le (sides.heightBound (heightOk.mp known)) fits
  obtain ⟨_,isFound,earliest⟩ := SideTree.earliestMissing sides known (Nat.le_of_lt bounded) start
  cases found.symm.trans isFound
  have above {a : BlockHash} {k : Nat} (descends : db.archive.links.Descends a tip.blockHash)
      (height : db.archive.links.height a = .ok k) (apart : ¬ ConnectedAs lib db.connected a) : start ≤ k :=
    active.forkStart isOwn known common isStart descends height apart
  refine ⟨fun none => ⟨Option.isSome_iff_exists.mpr (sides.heights.only (heightOk.mp known)),fun a descends apart => ?_⟩,
    fun m some => ?_⟩
  · obtain ⟨k,_,height,_⟩ := sides.sound.descent descends known
    refine earliest.below a k descends height (above descends height apart) (fun m _ some => ?_)
    cases none.symm.trans some
  · obtain ⟨descends,absent⟩ := earliest.first m some
    refine ⟨descends,absent,fun below isBelow => ?_⟩
    simp only [tipBelow,getHeader,bindOk,okOrOk] at isBelow
    obtain ⟨header,stored,isBelow⟩ := isBelow
    split at isBelow
    · cases isBelow
    · next parent isParent =>
        simp only [bindOk,pureOk] at isBelow
        obtain ⟨main,_,same⟩ := isBelow
        cases same
        refine ⟨sides.parentStored stored isParent,fun a descendsParent apart => ?_⟩
        obtain ⟨km,heightM,count⟩ := sides.heights.counted stored
        rcases sideCounts count with ⟨first,_⟩ | ⟨p,j,isChild,heightP,rfl⟩
        · cases first.symm.trans isParent
        · cases isChild.symm.trans isParent
          obtain ⟨k,low,height,_⟩ := sides.sound.descent descendsParent (heightOk.mpr heightP)
          have onMissing := sides.sound.descentTrans descendsParent (sides.parentOn stored isParent)
          have onTip := sides.sound.descentTrans onMissing descends
          refine earliest.below a k onTip height (above onTip height apart) (fun m' km same heightM' => ?_)
          cases some.symm.trans same
          cases (heightOk.mp heightM').symm.trans heightM
          exact Nat.lt_succ_of_le low

theorem Active.readyOnTip (active : Active lib world db) (isOwn : stateTip db = .ok own)
    (stored : db.archive.headers.tryGet b = some header) (onTip : header.prevSideHash = own.map (·.blockHash))
    (has : db.archive.containsBody b = true) : Ready lib db b := by
  refine ⟨Option.isSome_iff_exists.mpr ⟨header,stored⟩,fun a descends apart => ?_⟩
  rcases active.trees.sides.sound.descendsParent descends with rfl | ⟨p,isParent,below⟩
  · exact has
  · obtain ⟨header',stored',isPrev⟩ := parentOk.mp isParent
    cases stored.symm.trans stored'
    have isTip := (onTip.symm.trans isPrev).symm.trans (stateTipOk isOwn)
    exact absurd ((active.ancestors isTip.symm).mpr below) apart

theorem Active.apartAbove (active : Active lib world db) (isOwn : stateTip db = .ok own)
    (known : db.archive.links.height tip.blockHash = .ok h) (apart : ¬ ConnectedAs lib db.connected tip.blockHash)
    {line : List BlockHash} (walk : Walk db.archive.sideNext (some tip.blockHash) (tip.blockHash :: line)) :
    ∃ ancestor, commonAncestor db.archive own tip = .ok ancestor ∧
      ∀ c ∈ line.takeWhile (fun b => !decide (some b = ancestor)), ¬ ConnectedAs lib db.connected c := by
  have sides := active.trees.sides
  have isTip := stateTipOk isOwn
  cases own with
  | none =>
      refine ⟨none,rfl,fun c _ connected => ?_⟩
      rw [ConnectedAs,active.noTip.mp isTip.symm] at connected
      cases connected
  | some top =>
      obtain ⟨hTip,knownTip⟩ := active.tipKnown isTip.symm
      obtain ⟨ancestor,isAncestor,highest,none⟩ := lastCommonTotal sides.sound knownTip known
      refine ⟨ancestor,isAncestor,fun c inside connected => ?_⟩
      have below := (active.ancestors isTip.symm).mp connected
      cases ancestor with
      | none =>
          obtain ⟨whole,isWhole,_,ancestors⟩ := sides.sound.walk sides.leads known
          have descends := (ancestors c).mp (walk.unique isWhole ▸ List.mem_cons_of_mem _ (List.takeWhile_subset _ inside))
          exact none.mp rfl ⟨c,below,descends⟩
      | some x =>
          have isHighest := highest x rfl
          have other : tip.blockHash ≠ x := by
            intro same
            exact apart ((active.ancestors isTip.symm).mpr (same ▸ isHighest.left))
          refine isHighest.apart (fun b => decide (some b = some x)) sides.sound sides.leads walk (decide_eq_true rfl) ?_
            below
          rw [List.takeWhile_cons,decide_eq_false (fun same => other (Option.some.inj same))]
          exact List.mem_cons_of_mem _ inside

theorem Ready.read (ready : Ready lib db tip.blockHash) (active : Active lib world db) (isOwn : stateTip db = .ok own)
    (apart : ¬ ConnectedAs lib db.connected tip.blockHash) :
    ∃ ancestor blocks, commonAncestor db.archive own tip = .ok ancestor ∧
      blocksToApply db.archive ancestor tip = .ok blocks := by
  have sides := active.trees.sides
  obtain ⟨header,stored⟩ := Option.isSome_iff_exists.mp ready.stored
  obtain ⟨h,height,_⟩ := sides.heights.counted stored
  have known := heightOk.mpr height
  obtain ⟨whole,walk,length,ancestors⟩ := sides.sound.walk sides.leads known
  cases walk with
  | @step _ following line isNext walked =>
      have reads (c : BlockHash) (mem : c ∈ tip.blockHash :: line) (free : ¬ ConnectedAs lib db.connected c) :
          ∃ block, getBlock db.archive c = .ok block := by
        have descends := (ancestors c).mp mem
        obtain ⟨body,has⟩ := Option.isSome_iff_exists.mp (ready.bodies c descends free)
        obtain ⟨hc,_,heightC,_⟩ := sides.sound.descent descends known
        obtain ⟨header',stored'⟩ := sides.heights.only (heightOk.mp heightC)
        exact ⟨(header',body),getBlockOk.mpr ⟨stored',has⟩⟩
      obtain ⟨head,isHead⟩ := reads tip.blockHash List.mem_cons_self apart
      obtain ⟨ancestor,common,free⟩ := active.apartAbove isOwn known apart (.step isNext walked)
      obtain ⟨header',stored',rfl⟩ := sideNextOk.mp isNext
      cases (getBlockOk.mp isHead).1.symm.trans stored'
      refine ⟨ancestor,?_⟩
      cases prev : head.1.prevSideHash with
      | none => exact ⟨[head],common,by rw [blocksToApply,isHead,okBind,prev]; rfl⟩
      | some p =>
          rw [prev] at walked
          have bounded := sides.heightBound height
          have short : line.length ≤ db.archive.headers.entries.length := by
            rw [List.length_cons] at length
            omega
          have tail : ∃ kept, db.archive.ancestorsUntil (fun b => some b = ancestor)
              (fun b => (getBlock db.archive b).map some) p = .ok kept := by
            refine walked.total short (fun c inside => ?_)
            obtain ⟨block,isBlock⟩ := reads c (List.mem_cons_of_mem _ (List.takeWhile_subset _ inside)) (free c inside)
            exact ⟨some block,by rw [isBlock]; rfl⟩
          obtain ⟨kept,isKept⟩ := tail
          exact ⟨head :: kept,common,by rw [blocksToApply,isHead,okBind,prev]; simp only [isKept,okBind]; rfl⟩

end Ready

section Told

variable {net net' : BodyNet F A} {own : Option Tip} {tip : Tip} {addr : A} {request : GetBlockRequest}
  {results : List (MainHash × BmmResult)} {waiting : List (Tip × A)}

structure Told (lib : Externals F) (net net' : BodyNet F A) : Prop where
  same : net'.toDb = net.toDb
  told : ∃ new, net'.sent = net.sent ++ new ∧ ∀ tip addr, .newTipReady tip addr ∈ new → Ready lib net.toDb tip.blockHash

theorem Told.refl (net : BodyNet F A) : Told lib net net :=
  ⟨rfl,[],(List.append_nil _).symm,fun _ _ mem => absurd mem List.not_mem_nil⟩

theorem Told.trans {net'' : BodyNet F A} (first : Told lib net net') (second : Told lib net' net'') :
    Told lib net net'' := by
  obtain ⟨more,isMore,readyMore⟩ := first.told
  obtain ⟨rest,isRest,readyRest⟩ := second.told
  refine ⟨second.same.trans first.same,more ++ rest,?_,fun tip addr mem => ?_⟩
  · rw [isRest,isMore,List.append_assoc]
  · rcases List.mem_append.mp mem with earlier | later
    · exact readyMore tip addr earlier
    · rw [← first.same]
      exact readyRest tip addr later

theorem Told.notify {notification : Notification A}
    (ready : ∀ tip addr, notification = .newTipReady tip addr → Ready lib net.toDb tip.blockHash) :
    Told lib net (net.notify notification) :=
  ⟨rfl,[notification],rfl,fun tip addr mem => ready tip addr (List.mem_singleton.mp mem).symm⟩

theorem Told.waits {descendantTips : Waiters BlockHash (Tip × A)} : Told lib net { net with descendantTips } :=
  ⟨rfl,[],(List.append_nil _).symm,fun _ _ mem => absurd mem List.not_mem_nil⟩

theorem announceTold (ready : Ready lib net.toDb tip.blockHash) : Told lib net (announceBetter net own tip addr).1 := by
  unfold announceBetter
  split
  · exact .refl net
  · exact .refl net
  · refine .notify (fun _ _ same => ?_)
    cases same
    exact ready

variable [DecidableEq A]

theorem followTold {waits : Tip × A} (active : Active lib world net.toDb)
    (fits : net.archive.headers.entries.length ≤ maxU32) (isOwn : stateTip net.toDb = .ok own) :
    Told lib net (followTip net own waits).1 := by
  unfold followTip
  split
  · exact .refl net
  · next found => exact announceTold ((active.earliestOf fits isOwn found).1 rfl)
  · next missing found =>
      obtain ⟨_,_,below⟩ := (active.earliestOf fits isOwn found).2 missing rfl
      dsimp only
      split
      · exact .waits
      · exact .waits
      · next nextTip isBelow =>
          have registered : Told lib net { net with descendantTips := net.descendantTips.register missing waits } := .waits
          exact registered.trans (announceTold (below nextTip isBelow))

theorem followsTold (active : Active lib world net.toDb) (fits : net.archive.headers.entries.length ≤ maxU32)
    (isOwn : stateTip net.toDb = .ok own) : Told lib net (followTips own net waiting).1 := by
  induction waiting generalizing net with
  | nil => exact .refl net
  | cons waits rest ih =>
      have first : Told lib net (followTip net own waits).1 := followTold active fits isOwn
      unfold followTips
      cases followed : followTip net own waits with
      | mk next result =>
          rw [followed] at first
          cases result with
          | error err => exact first
          | ok done =>
              have same := first.same
              refine first.trans (ih ?_ ?_ ?_)
              · rw [same]
                exact active
              · rw [same]
                exact fits
              · rw [same]
                exact isOwn

theorem noteTold {peerStateId : Hash} (ok : noteBodies net addr request tip peerStateId = .ok net') :
    Told lib net net' := by
  simp only [noteBodies,bindOk] at ok
  obtain ⟨start,_,missing,_,ok⟩ := ok
  cases missing with
  | none =>
      cases ok
      refine .notify (fun _ _ same => ?_)
      cases same
  | some missing =>
      cases ok
      exact .waits

theorem followUpTold (active : Active lib world net.toDb) (fits : net.archive.headers.entries.length ≤ maxU32)
    (stored : net.archive.headers.tryGet b = some header) (has : net.archive.containsBody b = true) :
    Told lib net (followUp net addr header b tip results waiting).1 := by
  unfold followUp
  split
  · exact .refl net
  · exact .refl net
  · exact .refl net
  · next own main isOwn _ =>
      dsimp only
      have first : Told lib net
          (if header.prevSideHash = own.map (·.blockHash) then net.notify (.newTipReady ⟨b,main⟩ addr) else net) := by
        split
        · next onTip =>
            refine .notify (fun _ _ same => ?_)
            cases same
            exact active.readyOnTip isOwn stored onTip has
        · exact .refl net
      generalize
        (if header.prevSideHash = own.map (·.blockHash) then net.notify (.newTipReady ⟨b,main⟩ addr) else net) = next
        at first
      have removed : Told lib next { next with descendantTips := next.descendantTips.remove b } := .waits
      have db : next.toDb = net.toDb := first.same
      have nextActive : Active lib world next.toDb := db ▸ active
      refine first.trans (removed.trans (followsTold nextActive ?_ ?_))
      · exact db ▸ fits
      · exact db ▸ isOwn

end Told

section Steps

variable {net net' : BodyNet F A} {addr : A} {request : GetBlockRequest} {results : List (MainHash × BmmResult)}
  {waiting : List (Tip × A)} {step : BodyNetStep A} {steps before after : List (BodyNetStep A)}

def Announces (lib : Externals F) (net net' : BodyNet F A) : Prop :=
  ∃ new, net'.sent = net.sent ++ new ∧ ∀ tip addr, .newTipReady tip addr ∈ new → Ready lib net'.toDb tip.blockHash

theorem Announces.of {archive : Archive F} (told : Told lib { net with archive } net') : Announces lib net net' := by
  obtain ⟨new,isNew,ready⟩ := told.told
  refine ⟨new,isNew,fun tip addr mem => ?_⟩
  rw [told.same]
  exact ready tip addr mem

theorem Active.newNet : Active lib world (BodyNet.new F A).toDb :=
  ⟨.new,.empty,rfl,fun _ mem => absurd mem List.not_mem_nil⟩

variable [DecidableEq A]

theorem blockTold (active : Active lib world net.toDb) (names : header = world.header (header.hash lib))
    (fits : net.archive.headers.entries.length ≤ maxU32) :
    ∃ archive, Active lib world { net.toDb with archive } ∧
      Told lib { net with archive } (handleBlock lib net addr request header body results waiting).1 := by
  unfold handleBlock
  split
  · split
    · refine ⟨net.archive,active,.notify (fun _ _ same => ?_)⟩
      cases same
    · next own =>
        split
        · exact ⟨net.archive,active,.refl net⟩
        · next archive put =>
            have trees := active.trees.putBody put
            obtain ⟨isStored,tips,rfl⟩ := putBodyFrame put
            have learned := active.learn trees .bodies
            refine ⟨_,learned,?_⟩
            dsimp only
            split
            · exact .refl _
            · next next noted =>
                have first : Told lib _ next := noteTold noted
                obtain ⟨stored,isHeader⟩ := Option.isSome_iff_exists.mp isStored
                have isOwn : header.hash lib = request.blockHash := not_not.mp own
                have same : stored = header := by
                  rw [(active.trees.sides.named isHeader).1,← isOwn]
                  exact names.symm
                have nextActive : Active lib world next.toDb := first.same ▸ learned
                refine first.trans (followUpTold nextActive ?_ ?_ ?_)
                · rw [first.same]
                  exact fits
                · rw [first.same]
                  exact same ▸ isHeader
                · rw [first.same]
                  show ((net.archive.bodies.put request.blockHash body).tryGet request.blockHash).isSome = true
                  rw [Table.tryGetPutSelf]
                  rfl
  · refine ⟨net.archive,active,.notify (fun _ _ same => ?_)⟩
    cases same

def BodyNetStep.Called (lib : Externals F) (world : World) (net : BodyNet F A) : BodyNetStep A → Prop
  | .block _ _ header _ _ _ => header = world.header (header.hash lib) ∧ net.archive.headers.entries.length ≤ maxU32
  | .other step => step.Names lib world

theorem Active.netStep (active : Active lib world net.toDb) (called : step.Called lib world net) :
    Active lib world (step.apply lib ctxt prove net).toDb ∧ Announces lib net (step.apply lib ctxt prove net) := by
  have quiet : Announces lib net net := ⟨[],(List.append_nil _).symm,fun _ _ mem => absurd mem List.not_mem_nil⟩
  cases step with
  | other step =>
      exact ⟨(active.step called).toActive,[],(List.append_nil _).symm,fun _ _ mem => absurd mem List.not_mem_nil⟩
  | block addr request header body results waiting =>
      obtain ⟨names,fits⟩ := called
      obtain ⟨archive,learned,told⟩ : ∃ archive, Active lib world { net.toDb with archive } ∧
          Told lib { net with archive } (handleBlock lib net addr request header body results waiting).1 :=
        blockTold active names fits
      unfold BodyNetStep.apply
      dsimp only
      split
      · exact ⟨active,quiet⟩
      · split
        · split
          · next next _ handled =>
              rw [handled] at told
              exact ⟨told.same ▸ learned,.of told⟩
          · next next handled =>
              rw [handled] at told
              have announced : Announces lib net next := .of told
              exact ⟨told.same ▸ learned,announced⟩
          · next next _ _ handled =>
              rw [handled] at told
              exact ⟨told.same ▸ learned,.of (told.trans (.notify nofun))⟩
        · exact ⟨active,quiet⟩

theorem runNetActive (called : ∀ before step after, steps = before ++ step :: after →
    step.Called lib world (runBodyNet lib ctxt prove before)) :
    Active lib world (runBodyNet lib ctxt prove steps).toDb :=
  foldlPrefix (P := fun net : BodyNet F A => Active lib world net.toDb) .newNet
    (fun before step after split active => (active.netStep (called before step after split)).1)

theorem runNetConcat :
    runBodyNet lib ctxt prove (before ++ [step]) = step.apply lib ctxt prove (runBodyNet lib ctxt prove before) := by
  rw [runBodyNet,List.foldl_append]
  rfl

/- A reorganisation can be made to each tip when it is announced: bodies are missing on the connected chain at most, and if
the tip is not on it, every block to connect is read. -/
theorem announcedReady (called : ∀ before step after, steps = before ++ step :: after →
    step.Called lib world (runBodyNet lib ctxt prove before)) (split : steps = before ++ step :: after) :
    ∃ new, (runBodyNet lib ctxt prove (before ++ [step])).sent = (runBodyNet lib ctxt prove before).sent ++ new ∧
      ∀ tip addr, .newTipReady tip addr ∈ new →
        Ready lib (runBodyNet lib ctxt prove (before ++ [step])).toDb tip.blockHash ∧
        (¬ ConnectedAs lib (runBodyNet lib ctxt prove (before ++ [step])).connected tip.blockHash →
          ∀ own, stateTip (runBodyNet lib ctxt prove (before ++ [step])).toDb = .ok own →
            ∃ ancestor blocks,
              commonAncestor (runBodyNet lib ctxt prove (before ++ [step])).archive own tip = .ok ancestor ∧
              blocksToApply (runBodyNet lib ctxt prove (before ++ [step])).archive ancestor tip = .ok blocks) := by
  have active : Active lib world (runBodyNet lib ctxt prove before).toDb := by
    refine runNetActive (fun first own rest isSplit => called first own (rest ++ step :: after) ?_)
    rw [split,isSplit,List.append_assoc,List.cons_append]
  rw [runNetConcat]
  obtain ⟨continues,new,isNew,ready⟩ :
      Active lib world (step.apply lib ctxt prove (runBodyNet lib ctxt prove before)).toDb ∧
      Announces lib (runBodyNet lib ctxt prove before) (step.apply lib ctxt prove (runBodyNet lib ctxt prove before)) :=
    active.netStep (called before step after split)
  refine ⟨new,isNew,fun tip addr mem => ⟨ready tip addr mem,fun apart own isOwn => ?_⟩⟩
  exact (ready tip addr mem).read continues isOwn apart

namespace Reference

open Coinshift.Reference

def received (op : { op : ArchiveOp // storesBody op = false }) : BodyNetStep Nat := .other (.body (.other op))

def knownHeaders : List (BodyNetStep Nat) :=
  (forkMain.take 3).map (fun entry => received ⟨.handleBlockEvent (.connectBlock entry.1 (forkInfo entry.2)),rfl⟩) ++
    [forkGenesis,forkChild 1 2].map (fun header => received ⟨.putHeader header,rfl⟩)

def response (header : Header) (mainBlockHash : MainHash) (waiting : List (Tip × Nat)) : BodyNetStep Nat :=
  .block 7 ⟨header.hash externals,some (forkTip 1 2 3),none,some 0⟩ header ⟨[],[],[]⟩ [(mainBlockHash,.verified)] waiting

def childFirst : List (BodyNetStep Nat) := knownHeaders ++ [response (forkChild 1 2) 3 []]

def thenGenesis : BodyNetStep Nat := response forkGenesis 2 [(forkTip 1 2 3,7)]

def calledCheck (net : BodyNet Forest Nat) : BodyNetStep Nat → Bool
  | .block _ _ header _ _ _ =>
      header = forkWorld.header (header.hash externals) ∧ net.archive.headers.entries.length ≤ maxU32
  | .other step => decide (step.Names externals forkWorld)

theorem bothCalled : ∀ before step after, childFirst ++ [thenGenesis] = before ++ step :: after →
    step.Called externals forkWorld (runBodyNet externals context noProof before) := by
  have checked : foldlEvery (BodyNetStep.apply externals context noProof) calledCheck (childFirst ++ [thenGenesis])
      (.new Forest Nat) = true := by decide +kernel
  intro before step after split
  rw [split] at checked
  have here : calledCheck (runBodyNet externals context noProof before) step = true := foldlEveryTaken checked
  cases step with
  | block =>
      unfold calledCheck at here
      dsimp only at here
      rw [decide_eq_true_eq] at here
      exact here
  | other step =>
      unfold calledCheck at here
      dsimp only at here
      rw [decide_eq_true_eq] at here
      exact here

theorem bothAnnounced : ∃ new,
    (runBodyNet externals context noProof (childFirst ++ [thenGenesis])).sent =
      (runBodyNet externals context noProof childFirst).sent ++ new ∧
    .newTipReady (forkTip 1 2 3) 7 ∈ new ∧
    Ready externals (runBodyNet externals context noProof (childFirst ++ [thenGenesis])).toDb
      (forkTip 1 2 3).blockHash := by
  obtain ⟨new,sent,ready⟩ := announcedReady bothCalled rfl
  have nothing : (runBodyNet externals context noProof childFirst).sent = [] := by decide +kernel
  have told : .newTipReady (forkTip 1 2 3) 7 ∈
      (runBodyNet externals context noProof (childFirst ++ [thenGenesis])).sent := by decide +kernel
  rw [sent,nothing] at told
  exact ⟨new,sent,told,(ready _ _ told).1⟩

end Reference

end Steps

section Waiting

variable {net net' : BodyNet F A} {own : Option Tip} {tip : Tip} {addr : A} {request : GetBlockRequest}
  {results : List (MainHash × BmmResult)} {waiting : List (Tip × A)} {waits : Tip × A}

/- A tip that has all of its bodies has been compared with the tip of the state, and announced if it is better. -/
def Settled (lib : Externals F) (net : BodyNet F A) (waits : Tip × A) : Prop :=
  Ready lib net.toDb waits.1.blockHash ∧ ∃ own better, stateTip net.toDb = .ok own ∧
    isBetter net.archive own waits.1 = .ok better ∧ (better = true → .newTipReady waits.1 waits.2 ∈ net.sent)

structure Looked (lib : Externals F) (net : BodyNet F A) (waits : Tip × A) (net' : BodyNet F A) : Prop where
  same : net'.toDb = net.toDb
  sent : ∀ notification ∈ net.sent, notification ∈ net'.sent
  kept : ∀ {k other}, other ∈ net.descendantTips k → other ∈ net'.descendantTips k
  new : ∀ {k other}, other ∈ net'.descendantTips k → other ∈ net.descendantTips k ∨ net.archive.containsBody k = false
  own : (∃ k, waits ∈ net'.descendantTips k) ∨ Settled lib net' waits

theorem announceOk (ok : announceBetter net own tip addr = (net',.ok ())) : net'.toDb = net.toDb ∧
    net'.descendantTips = net.descendantTips ∧ (∀ notification ∈ net.sent, notification ∈ net'.sent) ∧
    ∃ better, isBetter net.archive own tip = .ok better ∧ (better = true → .newTipReady tip addr ∈ net'.sent) := by
  unfold announceBetter at ok
  split at ok
  · cases ok
  · next isWorse =>
      cases ok
      exact ⟨rfl,rfl,fun _ mem => mem,false,isWorse,nofun⟩
  · next isBetter =>
      cases ok
      exact ⟨rfl,rfl,fun _ mem => List.mem_append_left _ mem,true,isBetter,
        fun _ => List.mem_append_right _ (List.mem_singleton_self _)⟩

theorem Settled.keep (settled : Settled lib net waits) (same : net'.toDb = net.toDb)
    (sent : ∀ notification ∈ net.sent, notification ∈ net'.sent) : Settled lib net' waits := by
  obtain ⟨ready,own,better,isOwn,compared,announced⟩ := settled
  refine ⟨same ▸ ready,own,better,same ▸ isOwn,same ▸ compared,fun isBetter => sent _ (announced isBetter)⟩

variable [DecidableEq A]

theorem followLooked (active : Active lib world net.toDb) (fits : net.archive.headers.entries.length ≤ maxU32)
    (isOwn : stateTip net.toDb = .ok own) (ok : followTip net own waits = (net',.ok ())) : Looked lib net waits net' := by
  unfold followTip at ok
  split at ok
  · cases ok
  · next found =>
      obtain ⟨same,tips,sent,better,compared,announced⟩ := announceOk ok
      refine ⟨same,sent,fun mem => tips ▸ mem,fun mem => .inl (tips ▸ mem),.inr ⟨?_,own,better,?_,?_,announced⟩⟩
      · exact same ▸ (active.earliestOf fits isOwn found).1 rfl
      · exact same ▸ isOwn
      · exact same ▸ compared
  · next missing found =>
      obtain ⟨_,absent,_⟩ := (active.earliestOf fits isOwn found).2 missing rfl
      have registered (after : BodyNet F A) (same : after.toDb = net.toDb)
          (tips : after.descendantTips = net.descendantTips.register missing waits)
          (sent : ∀ notification ∈ net.sent, notification ∈ after.sent) : Looked lib net waits after := by
        refine ⟨same,sent,fun mem => ?_,fun mem => ?_,.inl ⟨missing,?_⟩⟩
        · rw [tips]
          exact Waiters.memRegister.mpr (.inl mem)
        · rw [tips] at mem
          rcases Waiters.memRegister.mp mem with before | ⟨rfl,_⟩
          · exact .inl before
          · exact .inr absent
        · rw [tips]
          exact Waiters.registered
      dsimp only at ok
      split at ok
      · cases ok
      · cases ok
        exact registered _ rfl rfl (fun _ mem => mem)
      · obtain ⟨same,tips,sent,_⟩ := announceOk ok
        exact registered net' same tips sent

structure LookedAll (lib : Externals F) (net : BodyNet F A) (waiting : List (Tip × A)) (net' : BodyNet F A) : Prop where
  same : net'.toDb = net.toDb
  kept : ∀ {k other}, other ∈ net.descendantTips k → other ∈ net'.descendantTips k
  new : ∀ {k other}, other ∈ net'.descendantTips k → other ∈ net.descendantTips k ∨ net.archive.containsBody k = false
  sent : ∀ notification ∈ net.sent, notification ∈ net'.sent
  own : ∀ waits ∈ waiting, (∃ k, waits ∈ net'.descendantTips k) ∨ Settled lib net' waits

theorem followsLooked (active : Active lib world net.toDb) (fits : net.archive.headers.entries.length ≤ maxU32)
    (isOwn : stateTip net.toDb = .ok own) (ok : followTips own net waiting = (net',.ok ())) :
    LookedAll lib net waiting net' := by
  induction waiting generalizing net with
  | nil =>
      cases ok
      exact ⟨rfl,fun mem => mem,fun mem => .inl mem,fun _ mem => mem,fun _ mem => absurd mem List.not_mem_nil⟩
  | cons waits rest ih =>
      unfold followTips at ok
      cases followed : followTip net own waits with
      | mk next result =>
          rw [followed] at ok
          cases result with
          | error err => cases ok
          | ok done =>
              have first := followLooked active fits isOwn followed
              have same := first.same
              have later := ih (same ▸ active) (same ▸ fits) (same ▸ isOwn) ok
              refine ⟨later.same.trans same,fun mem => later.kept (first.kept mem),fun mem => ?_,
                fun n mem => later.sent n (first.sent n mem),fun other mem => ?_⟩
              · rcases later.new mem with before | absent
                · exact first.new before
                · exact .inr (same ▸ absent)
              · rcases List.mem_cons.mp mem with rfl | inside
                · rcases first.own with ⟨k,again⟩ | settled
                  · exact .inl ⟨k,later.kept again⟩
                  · exact .inr (settled.keep later.same later.sent)
                · exact later.own other inside

def WaitsRight (net : BodyNet F A) : Prop :=
  ∀ k, ∀ waits ∈ net.descendantTips k, net.archive.containsBody k = false

theorem followUpWaits (active : Active lib world net.toDb) (fits : net.archive.headers.entries.length ≤ maxU32)
    (right : ∀ k, k ≠ b → ∀ waits ∈ net.descendantTips k, net.archive.containsBody k = false)
    (ok : followUp net addr header b tip results waiting = (net',.ok ())) :
    WaitsRight net' ∧ (∀ k, k ≠ b → ∀ waits ∈ net.descendantTips k, waits ∈ net'.descendantTips k) ∧
      ∀ waits ∈ waiting, (∃ k, waits ∈ net'.descendantTips k) ∨ Settled lib net' waits := by
  unfold followUp at ok
  split at ok
  · cases ok
  · cases ok
  · cases ok
  · next own main isOwn _ =>
      dsimp only at ok
      obtain ⟨next,same,tips,isNext⟩ : ∃ next : BodyNet F A, next.toDb = net.toDb ∧
          next.descendantTips = net.descendantTips ∧
          next = if header.prevSideHash = own.map (·.blockHash) then net.notify (.newTipReady ⟨b,main⟩ addr) else net := by
        refine ⟨_,?_,?_,rfl⟩
        · split <;> rfl
        · split <;> rfl
      rw [← isNext] at ok
      cases followed : followTips own { next with descendantTips := next.descendantTips.remove b } waiting with
      | mk last result =>
          rw [followed] at ok
          cases result with
          | error err => cases ok
          | ok done =>
              cases ok
              have nextActive : Active lib world { next with descendantTips := next.descendantTips.remove b }.toDb :=
                same ▸ active
              have looked : LookedAll lib _ waiting last := followsLooked nextActive (same ▸ fits) (same ▸ isOwn) followed
              refine ⟨fun k waits mem => ?_,fun k other waits mem => ?_,looked.own⟩
              · rw [looked.same]
                rcases looked.new mem with before | absent
                · obtain ⟨other,before⟩ := Waiters.memRemove.mp before
                  exact same ▸ right k other waits (tips ▸ before)
                · exact absent
              · exact looked.kept (Waiters.memRemove.mpr ⟨other,tips ▸ mem⟩)

theorem noteWaits {peerStateId : Hash} (ok : noteBodies net addr request tip peerStateId = .ok net')
    (sides : net.archive.SideTree lib world) (fits : net.archive.headers.entries.length ≤ maxU32) :
    net'.toDb = net.toDb ∧ (∀ k, ∀ waits ∈ net.descendantTips k, waits ∈ net'.descendantTips k) ∧
      ∀ k, ∀ waits ∈ net'.descendantTips k, waits ∈ net.descendantTips k ∨ net.archive.containsBody k = false := by
  simp only [noteBodies,bindOk] at ok
  obtain ⟨start,_,missing,found,ok⟩ := ok
  cases missing with
  | none =>
      cases ok
      exact ⟨rfl,fun _ _ mem => mem,fun _ _ mem => .inl mem⟩
  | some missing =>
      cases ok
      obtain ⟨h,known⟩ := earliestKnown found
      have bounded := Nat.lt_of_lt_of_le (sides.heightBound (heightOk.mp known)) fits
      obtain ⟨_,isFound,earliest⟩ := SideTree.earliestMissing sides known (Nat.le_of_lt bounded) start
      cases found.symm.trans isFound
      refine ⟨rfl,fun k waits mem => Waiters.memRegister.mpr (.inl mem),fun k waits mem => ?_⟩
      rcases Waiters.memRegister.mp mem with before | ⟨rfl,_⟩
      · exact .inl before
      · exact .inr (earliest.first _ rfl).2

theorem blockWaits (active : Active lib world net.toDb) (fits : net.archive.headers.entries.length ≤ maxU32)
    (right : WaitsRight net) (all : waiting.Perm (net.descendantTips request.blockHash))
    (ok : handleBlock lib net addr request header body results waiting = (net',.ok ())) :
    WaitsRight net' ∧ ∀ k, ∀ waits ∈ net.descendantTips k,
      (∃ k, waits ∈ net'.descendantTips k) ∨ Settled lib net' waits := by
  have stays (same : net'.descendantTips = net.descendantTips) (archive : net'.archive = net.archive) : WaitsRight net' ∧
      ∀ k, ∀ waits ∈ net.descendantTips k, (∃ k, waits ∈ net'.descendantTips k) ∨ Settled lib net' waits := by
    refine ⟨fun k waits mem => ?_,fun k waits mem => .inl ⟨k,same ▸ mem⟩⟩
    rw [archive]
    exact right k waits (same ▸ mem)
  unfold handleBlock at ok
  split at ok
  · split at ok
    · cases ok
      exact stays rfl rfl
    · split at ok
      · cases ok
      · next archive put =>
          have trees := active.trees.putBody put
          obtain ⟨_,tips,rfl⟩ := putBodyFrame put
          have learned := active.learn trees .bodies
          dsimp only at ok
          split at ok
          · cases ok
          · next noted isNoted =>
              obtain ⟨same,kept,new⟩ := noteWaits isNoted learned.trees.sides fits
              have absent (k : BlockHash) (other : k ≠ request.blockHash) (waits : Tip × A)
                  (mem : waits ∈ noted.descendantTips k) : noted.archive.containsBody k = false := by
                rw [same]
                rcases new k waits mem with before | missing
                · show ((net.archive.bodies.put request.blockHash body).tryGet k).isSome = false
                  rw [Table.tryGetPutOther other]
                  exact right k waits before
                · exact missing
              have seen : Active lib world noted.toDb := by
                rw [same]
                exact learned
              have fitsStill : noted.archive.headers.entries.length ≤ maxU32 := by
                rw [same]
                exact fits
              obtain ⟨ends,others,own⟩ := followUpWaits seen fitsStill absent ok
              refine ⟨ends,fun k waits mem => ?_⟩
              rcases Classical.em (k = request.blockHash) with rfl | other
              · exact own waits (all.mem_iff.mpr mem)
              · exact .inl ⟨k,others k other waits (kept k waits mem)⟩
  · cases ok
    exact stays rfl rfl

end Waiting

section Quiet

variable {start db' : Db F} {newTip : Tip} {rpc : BlockHash → RpcReplies}

def BodiesFrom (start db : Db F) : Prop := ∀ b, db.archive.containsBody b = true → start.archive.containsBody b = true

structure ReadRound (lib : Externals F) (start committed working : Db F) (blocks : List Block) : Prop where
  stays : BodiesFrom start committed
  goesOn : BodiesFrom start working
  stored : ∀ block ∈ blocks, start.archive.containsBody (block.1.hash lib) = true

theorem readRule : LoopRule lib ctxt prove rpc
    (fun committed working _ blocks => ReadRound lib start committed working blocks) (BodiesFrom start) where
  connect := by
    intro committed working next batch block blocks round done
    refine ⟨round.stays,fun b has => ?_,fun later mem => round.stored later (List.mem_cons_of_mem block mem)⟩
    have bodies := (connectTipSource done).bodies
    unfold containsBody at has
    rw [bodies,Table.tryGetPut] at has
    split at has
    · next own =>
        rw [own]
        exact round.stored block List.mem_cons_self
    · exact round.goesOn b has
  commit := fun round => ⟨round.goesOn,round.goesOn,round.stored⟩
  holds := fun round => round.stays
  discard := by
    intro committed working batch block blocks err round _
    unfold discardBody
    split
    · exact round.stays
    · split
      · next archive deleted =>
          obtain ⟨tips,rfl⟩ := disconnectQueueFrame deleted
          intro b has
          refine round.stays b ?_
          unfold containsBody at has ⊢
          dsimp only at has
          rw [Table.tryGetDelete] at has
          split at has
          · cases has
          · exact has
      · exact round.stays

theorem Active.reorgBodies (active : Active lib world db) :
    BodiesFrom db (reorgToTip lib ctxt prove db newTip rpc).1 := by
  refine readRule.reorg (fun _ has => has)
    (fun reorg ancestor head count source => ⟨fun _ has => has,?_,fun block mem => ?_⟩)
  · intro b has
    rw [disconnectTipsArchive source.disconnected] at has
    exact has
  · obtain ⟨line,_,_,stored⟩ := blocksRead active.trees.sides source.blocks
    exact Option.isSome_iff_exists.mpr ⟨block.2,(stored block (List.mem_reverse.mpr mem)).2⟩

def ChainStep.Quiet : ChainStep → Prop
  | .body (.connectTip_ _ _ _ _) | .body (.submitBlock _ _ _ _ _) | .body (.blockResponse _ _ _) => False
  | _ => True

theorem unlistArchive {fuel : Nat} (done : disconnectToListed lib fuel db = .ok db') : db'.archive = db.archive := by
  induction fuel generalizing db with
  | zero =>
      rcases unlistRound done with rfl | ⟨_,_,again,_⟩
      · rfl
      · cases again
  | succ fuel ih =>
      rcases unlistRound done with rfl | ⟨_,_,again,⟨_,_,_,_,_,_,_,_,rfl⟩,done⟩
      · rfl
      · cases again
        have rest := ih done
        exact rest

theorem Active.quietBodies {step : ChainStep} (active : Active lib world db) (quiet : step.Quiet) :
    BodiesFrom db (step.apply lib ctxt prove db) := by
  intro b has
  cases step with
  | disconnectToListed =>
      unfold ChainStep.apply at has
      dsimp only at has
      cases done : disconnectedToListed lib db with
      | error err =>
          rw [done] at has
          exact has
      | ok next =>
          rw [done] at has
          exact unlistArchive done ▸ has
  | body step =>
      cases step with
      | connectTip_ => cases quiet
      | submitBlock => cases quiet
      | blockResponse => cases quiet
      | reorgToTip newTip rpc => exact active.reorgBodies b has
      | disconnectTip_ =>
          unfold ChainStep.apply BodyStep.apply at has
          dsimp only at has
          cases done : disconnectTip_ lib prove db with
          | error err =>
              rw [done] at has
              exact has
          | ok next =>
              rw [done] at has
              obtain ⟨_,_,source⟩ := disconnectTipSource done
              exact source.archive ▸ has
      | other op =>
          obtain ⟨op,other⟩ := op
          unfold ChainStep.apply BodyStep.apply at has
          dsimp only at has
          cases applied : op.apply lib db.archive with
          | error err =>
              rw [applied] at has
              exact has
          | ok archive =>
              rw [applied] at has
              unfold containsBody at has ⊢
              rw [← otherBodies other applied]
              exact has

end Quiet

section Kept

variable [DecidableEq A] {net : BodyNet F A} {steps before after : List (BodyNetStep A)} {step : BodyNetStep A}
  {waits : Tip × A} {k : BlockHash}

/- Responses are handled without an error, and only they store bodies. -/
def BodyNetStep.Fine (lib : Externals F) (net : BodyNet F A) : BodyNetStep A → Prop
  | .block addr request header body results waiting =>
      (handleBlock lib net addr request header body results waiting).2 = .ok ()
  | .other step => step.Quiet

theorem netStepWaits (active : Active lib world net.toDb) (called : step.Called lib world net) (fine : step.Fine lib net)
    (right : WaitsRight net) : WaitsRight (step.apply lib ctxt prove net) ∧ ∀ k, ∀ waits ∈ net.descendantTips k,
      (∃ k, waits ∈ (step.apply lib ctxt prove net).descendantTips k) ∨
        Settled lib (step.apply lib ctxt prove net) waits := by
  have stays : WaitsRight net ∧ ∀ k, ∀ waits ∈ net.descendantTips k, (∃ k, waits ∈ net.descendantTips k) ∨
      Settled lib net waits := ⟨right,fun k _ mem => .inl ⟨k,mem⟩⟩
  cases step with
  | other step =>
      refine ⟨fun k waits mem => ?_,fun k waits mem => .inl ⟨k,mem⟩⟩
      have absent := right k waits mem
      cases has : (step.apply lib ctxt prove net.toDb).archive.containsBody k with
      | false => exact has
      | true =>
          rw [active.quietBodies fine k has] at absent
          cases absent
  | block addr request header body results waiting =>
      unfold BodyNetStep.apply
      dsimp only
      split
      · exact stays
      · split
        · next _ orders =>
            cases handled : handleBlock lib net addr request header body results waiting with
            | mk next result =>
                have isOk : result = .ok () := (congrArg Prod.snd handled).symm.trans fine
                subst isOk
                exact blockWaits active called.2 right (List.isPerm_iff.mp orders.2) handled
        · exact stays

/- While responses are handled, no tip that waits is lost: it goes on waiting, always for a body that is missing, until it
has all of its bodies and is announced or found not to be better. -/
theorem waitingTipsKept (called : ∀ before step after, steps = before ++ step :: after →
      step.Called lib world (runBodyNet lib ctxt prove before))
    (fine : ∀ before step after, steps = before ++ step :: after → step.Fine lib (runBodyNet lib ctxt prove before)) :
    (∀ k, ∀ waits ∈ (runBodyNet lib ctxt prove steps).descendantTips k,
      (runBodyNet lib ctxt prove steps).archive.containsBody k = false) ∧
    ∀ before after, steps = before ++ after → ∀ k, ∀ waits ∈ (runBodyNet lib ctxt prove before).descendantTips k,
      (∃ k, waits ∈ (runBodyNet lib ctxt prove steps).descendantTips k) ∨
      ∃ taken, taken <+: after ∧ Settled lib (runBodyNet lib ctxt prove (before ++ taken)) waits := by
  have right (first : List (BodyNetStep A)) (isPrefix : first <+: steps) :
      Active lib world (runBodyNet lib ctxt prove first).toDb ∧ WaitsRight (runBodyNet lib ctxt prove first) := by
    obtain ⟨rest,rfl⟩ := isPrefix
    refine foldlPrefix (P := fun net : BodyNet F A => Active lib world net.toDb ∧ WaitsRight net)
      ⟨.newNet,fun _ _ mem => absurd mem List.not_mem_nil⟩ (fun before step after split holds => ?_)
    have isSplit : first ++ rest = before ++ step :: (after ++ rest) := by
      rw [split,List.append_assoc,List.cons_append]
    have isCalled := called before step _ isSplit
    exact ⟨(holds.1.netStep isCalled).1,(netStepWaits holds.1 isCalled (fine before step _ isSplit) holds.2).1⟩
  refine ⟨(right steps List.prefix_rfl).2,fun before after split k waits mem => ?_⟩
  subst split
  induction after using List.reverseRecOn with
  | nil => exact .inl ⟨k,by rw [List.append_nil]; exact mem⟩
  | append_singleton after step ih =>
      have isSplit : before ++ (after ++ [step]) = (before ++ after) ++ step :: [] := by rw [List.append_assoc]
      have shorter {first : List (BodyNetStep A)} {one : BodyNetStep A} {last : List (BodyNetStep A)}
          (split : before ++ after = first ++ one :: last) :
          before ++ (after ++ [step]) = first ++ one :: (last ++ [step]) := by
        rw [← List.append_assoc,split,List.append_assoc,List.cons_append]
      have within : before ++ after <+: before ++ (after ++ [step]) :=
        List.prefix_append_right_inj before |>.mpr (List.prefix_append _ _)
      have earlier := ih (fun first one last split => called first one _ (shorter split))
        (fun first one last split => fine first one _ (shorter split))
        (fun first isPrefix => right first (isPrefix.trans within))
      have isRun : runBodyNet lib ctxt prove (before ++ (after ++ [step])) =
          step.apply lib ctxt prove (runBodyNet lib ctxt prove (before ++ after)) := by
        rw [isSplit,runNetConcat]
      rcases earlier with ⟨k,still⟩ | ⟨taken,isPrefix,settled⟩
      · obtain ⟨active,waits⟩ := right (before ++ after) ⟨[step],List.append_assoc before after [step]⟩
        have stays : ∀ k, ∀ waits ∈ (runBodyNet lib ctxt prove (before ++ after)).descendantTips k,
            (∃ k, waits ∈ (runBodyNet lib ctxt prove (before ++ (after ++ [step]))).descendantTips k) ∨
              Settled lib (runBodyNet lib ctxt prove (before ++ (after ++ [step]))) waits := by
          rw [isRun]
          exact (netStepWaits active (called _ step _ isSplit) (fine _ step _ isSplit) waits).2
        rcases stays k _ still with kept | settled
        · exact .inl kept
        · exact .inr ⟨after ++ [step],List.prefix_rfl,settled⟩
      · exact .inr ⟨taken,isPrefix.trans (List.prefix_append _ _),settled⟩

namespace Reference

open Coinshift.Reference

def fineCheck (net : BodyNet Forest Nat) : BodyNetStep Nat → Bool
  | .block addr request header body results waiting =>
      match (handleBlock externals net addr request header body results waiting).2 with
      | .ok () => true
      | .error _ => false
  | .other (.body (.other _)) => true
  | .other _ => false

theorem bothFine : ∀ before step after, childFirst ++ [thenGenesis] = before ++ step :: after →
    step.Fine externals (runBodyNet externals context noProof before) := by
  have checked : foldlEvery (BodyNetStep.apply externals context noProof) fineCheck (childFirst ++ [thenGenesis])
      (.new Forest Nat) = true := by decide +kernel
  intro before step after split
  rw [split] at checked
  have here : fineCheck (runBodyNet externals context noProof before) step = true := foldlEveryTaken checked
  cases step with
  | block =>
      unfold fineCheck at here
      dsimp only at here
      split at here
      · next isOk => exact isOk
      · cases here
  | other step =>
      cases step with
      | disconnectToListed => cases here
      | body step =>
          cases step with
          | other => trivial
          | _ => cases here

theorem bothWaited : (forkTip 1 2 3,7) ∈ (runBodyNet externals context noProof childFirst).descendantTips
      (forkGenesis.hash externals) ∧
    ((∃ k, (forkTip 1 2 3,7) ∈ (runBodyNet externals context noProof (childFirst ++ [thenGenesis])).descendantTips k) ∨
      ∃ taken, taken <+: [thenGenesis] ∧
        Settled externals (runBodyNet externals context noProof (childFirst ++ taken)) (forkTip 1 2 3,7)) := by
  have waits : (forkTip 1 2 3,7) ∈ (runBodyNet externals context noProof childFirst).descendantTips
      (forkGenesis.hash externals) := by decide +kernel
  exact ⟨waits,(waitingTipsKept bothCalled bothFine).2 childFirst [thenGenesis] rfl _ _ waits⟩

end Reference

end Kept

end Coinshift.NetTask
